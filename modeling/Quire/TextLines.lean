import Mathlib.Data.List.Basic
import Mathlib.Data.List.TakeDrop
import Mathlib.Data.List.TakeWhile
import Quire.Text

namespace Quire.TextLines
open Text
variable {left right front rest core tail reversed : List Char} {separator : Char}

theorem span_field (free : separator ∉ front) (rest : List Char) :
    (front ++ separator :: rest).span (fun c => c != separator) = (front,separator :: rest) := by
  have other : ∀ c ∈ front, (c != separator) = true := by
    intro c member
    simp only [bne_iff_ne,ne_eq]
    rintro rfl
    exact free member
  rw [List.span_eq_takeWhile_dropWhile,List.takeWhile_append_of_pos other,List.dropWhile_append_of_pos other]
  simp

theorem splitnChars_field (free : separator ∉ front) (n : Nat) (rest : List Char) :
    splitnChars separator (n + 2) (front ++ separator :: rest) = front :: splitnChars separator (n + 1) rest := by
  rw [splitnChars,span_field free]

theorem splitOnce_field {s field : String} (shape : s.toList = field.toList ++ separator :: rest) (free : separator ∉ field.toList) :
    splitOnce s separator = some (field,String.ofList rest) := by
  rw [splitOnce,shape,span_field free]
  exact congrArg (fun text => some (text,String.ofList rest)) String.ofList_toList

-- Every piece but the last is free of the separator.
theorem splitnChars_first (inside : separator ∈ left) (n : Nat) :
    ∃ front rest, left = front ++ separator :: rest ∧ separator ∉ front ∧
      splitnChars separator (n + 2) left = front :: splitnChars separator (n + 1) rest := by
  obtain ⟨front,rest,rfl,free⟩ := List.eq_append_cons_of_mem inside
  exact ⟨front,rest,rfl,free,splitnChars_field free n rest⟩

-- No blanks at the ends.
def Solid (s : List Char) : Prop :=
  (∀ c ∈ s.head?, isWhitespace c = false) ∧ ∀ c ∈ s.getLast?, isWhitespace c = false

def Blank (s : List Char) : Prop := ∀ c ∈ s, isWhitespace c = true

-- Decided by a look at the characters of the text, not by one at all characters.
instance : DecidablePred Solid := fun s =>
  decidable_of_iff ((s.head?.all fun c => !isWhitespace c) = true ∧ (s.getLast?.all fun c => !isWhitespace c) = true)
    (by simp [Solid,Option.all_eq_true])

instance : DecidablePred Blank := fun _ => decidable_of_iff _ List.all_eq_true

theorem dropWhile_blank (blank : Blank left) (right : List Char) :
    (left ++ right).dropWhile isWhitespace = right.dropWhile isWhitespace :=
  List.dropWhile_append_of_pos blank

theorem dropWhile_solid (solid : ∀ c ∈ left.head?, isWhitespace c = false) : left.dropWhile isWhitespace = left := by
  cases left with
  | nil => rfl
  | cons c rest => rw [List.dropWhile_cons,solid c rfl]; rfl

-- What stands before a solid character.
theorem dropWhile_stop (solid : isWhitespace c = false) (left rest : List Char) :
    (left ++ c :: rest).dropWhile isWhitespace = left.dropWhile isWhitespace ++ c :: rest := by
  induction left with
  | nil => rw [List.nil_append,List.dropWhile_cons,solid]; rfl
  | cons d left ih =>
    rw [List.cons_append,List.dropWhile_cons,List.dropWhile_cons,ih]
    split <;> rfl

theorem blank_nil : Blank [] := fun _ member => absurd member List.not_mem_nil

theorem trimChars_around (before : Blank left) (solid : Solid core) (after : Blank tail) :
    trimChars (left ++ (core ++ tail)) = core := by
  have back : Blank tail.reverse := fun c member => after c (List.mem_reverse.mp member)
  unfold trimChars
  rw [dropWhile_blank before]
  cases core with
  | nil =>
    rw [List.nil_append,List.dropWhile_eq_nil_iff.mpr after]
    rfl
  | cons c rest =>
    have first : isWhitespace c = false := solid.1 c rfl
    have ending : ∀ d ∈ (c :: rest).reverse.head?, isWhitespace d = false := by
      rw [List.head?_reverse]
      exact solid.2
    have kept : (c :: rest ++ tail).dropWhile isWhitespace = c :: rest ++ tail := dropWhile_solid (by simpa using first)
    rw [kept,List.reverse_append,dropWhile_blank back,dropWhile_solid ending,List.reverse_reverse]

theorem dropWhile_head (s : List Char) : ∀ c ∈ (s.dropWhile isWhitespace).head?, isWhitespace c = false := by
  intro c found
  have stopped := List.head?_dropWhile_not isWhitespace s
  rw [Option.mem_def.mp found] at stopped
  exact stopped

theorem trimChars_split (s : List Char) :
    ∃ left tail, s = left ++ (trimChars s ++ tail) ∧ Blank left ∧ Solid (trimChars s) ∧ Blank tail := by
  have opened := List.takeWhile_append_dropWhile (p := isWhitespace) (l := s)
  have first := dropWhile_head s
  have unfolded : trimChars s = ((s.dropWhile isWhitespace).reverse.dropWhile isWhitespace).reverse := rfl
  generalize s.dropWhile isWhitespace = inner at opened first unfolded
  have last := dropWhile_head inner.reverse
  have closed : trimChars s ++ (inner.reverse.takeWhile isWhitespace).reverse = inner := by
    rw [unfolded,← List.reverse_append,List.takeWhile_append_dropWhile,List.reverse_reverse]
  refine ⟨s.takeWhile isWhitespace,(inner.reverse.takeWhile isWhitespace).reverse,by rw [closed,opened],?_,⟨?_,?_⟩,?_⟩
  · exact fun c member => List.mem_takeWhile_imp member
  · intro c found
    rw [← closed,List.head?_append,Option.mem_def.mp found] at first
    exact first c rfl
  · rw [unfolded,List.getLast?_reverse]
    exact last
  · exact fun c member => List.mem_takeWhile_imp (List.mem_reverse.mp member)

theorem blank_newline : Blank ['\n'] := by
  intro c member
  obtain rfl := List.mem_singleton.mp member
  decide

theorem blank_append (first : Blank left) (second : Blank right) : Blank (left ++ right) := by
  intro c member
  rcases List.mem_append.mp member with inLeft | inRight
  · exact first c inLeft
  · exact second c inRight

theorem trimChars_tail (blank : Blank tail) (s : List Char) : trimChars (s ++ tail) = trimChars s := by
  obtain ⟨left,ending,split,before,solid,after⟩ := trimChars_split s
  have text : s ++ tail = left ++ (trimChars s ++ (ending ++ tail)) := by
    conv_lhs => rw [split]
    simp
  rw [text,trimChars_around before solid (blank_append after blank)]

theorem trimChars_solid (solid : Solid core) : trimChars core = core := by
  have whole := trimChars_around blank_nil solid blank_nil
  rwa [List.nil_append,List.append_nil] at whole

-- What follows a solid text loses blanks at its end only.
theorem trimChars_front (solid : Solid core) (some : core ≠ []) (tail : List Char) :
    ∃ kept, kept <+: tail ∧ trimChars (core ++ tail) = core ++ kept := by
  have first : (core ++ tail).dropWhile isWhitespace = core ++ tail := by
    apply dropWhile_solid
    rw [List.head?_append_of_ne_nil _ some]
    exact solid.1
  rcases List.eq_nil_or_concat core with empty | ⟨front,c,rfl⟩
  · exact absurd empty some
  · have last : isWhitespace c = false := solid.2 c (by simp)
    refine ⟨(tail.reverse.dropWhile isWhitespace).reverse,?_,?_⟩
    · have ending := List.reverse_prefix.mpr (List.dropWhile_suffix isWhitespace (l := tail.reverse))
      rwa [List.reverse_reverse] at ending
    · rw [trimChars,first,List.concat_eq_append,List.reverse_append,List.reverse_append,List.reverse_singleton,List.singleton_append,
        dropWhile_stop last]
      simp

theorem stripReturn_kept (plain : ∀ c ∈ reversed.head?, c ≠ '\r') : stripReturn reversed = reversed.reverse := by
  unfold stripReturn
  split
  · exact absurd rfl (plain '\r' rfl)
  · rfl

-- A line as str::lines gives it.
def chomp (line : List Char) : List Char := stripReturn line.reverse

theorem chomp_eq {line : List Char} : chomp line = line ↔ line.getLast? ≠ some '\r' := by
  rcases List.eq_nil_or_concat line with rfl | ⟨front,c,rfl⟩
  · simp [chomp,stripReturn]
  · rw [List.concat_eq_append,List.getLast?_append_of_ne_nil _ (List.cons_ne_nil _ _),List.getLast?_singleton,chomp,
      List.reverse_append,List.reverse_singleton,List.singleton_append]
    by_cases last : c = '\r'
    · subst last
      simp [stripReturn]
    · rw [stripReturn_kept (by simpa using last)]
      simp [last]

theorem linesFrom_line {line : List Char} (free : '\n' ∉ line) (rest : List Char) :
    linesFrom [] (line ++ '\n' :: rest) = chomp line :: linesFrom [] rest := by
  have single := linesFrom_single [] free
  rw [List.append_nil] at single
  rw [linesFrom_append,single]
  rfl

theorem linesFrom_text (body rest : List Char) :
    linesFrom [] (body ++ '\n' :: rest) = linesFrom [] (body ++ ['\n']) ++ linesFrom [] rest :=
  linesFrom_append [] body rest

theorem linesFrom_free (free : '\n' ∉ left) (some : reversed.reverse ++ left ≠ []) :
    linesFrom reversed left = [reversed.reverse ++ left] := by
  induction left generalizing reversed with
  | nil =>
    rw [List.append_nil] at some
    have full : reversed.isEmpty = false := by simpa using some
    rw [linesFrom,full,List.append_nil]
    rfl
  | cons c rest ih =>
    rw [List.mem_cons,not_or] at free
    rw [linesFrom,if_neg (Ne.symm free.1),ih free.2 (by simp),List.reverse_cons,List.append_assoc,List.singleton_append]

theorem linesFrom_empty (none : linesFrom reversed left = []) : left = [] := by
  induction left generalizing reversed with
  | nil => rfl
  | cons c rest ih =>
    unfold linesFrom at none
    split at none
    · cases none
    · have last := ih none
      rw [last,linesFrom] at none
      cases none

-- A newline at the end adds no line, where the last one does not end in a return.
theorem linesFrom_newline (plain : c ≠ '\n') (other : c ≠ '\r') (reversed front : List Char) :
    linesFrom reversed (front ++ [c] ++ ['\n']) = linesFrom reversed (front ++ [c]) := by
  induction front generalizing reversed with
  | nil =>
    have kept : stripReturn (c :: reversed) = (c :: reversed).reverse := stripReturn_kept (by simpa using other)
    simp [linesFrom,plain,kept]
  | cons d front ih =>
    simp only [List.cons_append,linesFrom]
    split
    · exact congrArg _ (ih _)
    · exact ih _

-- Lines that are terminated each by its newline.
theorem linesFrom_framed (texts : List (List Char)) (free : ∀ text ∈ texts, '\n' ∉ text) (rest : List Char) :
    linesFrom [] (texts.flatMap (· ++ ['\n']) ++ rest) = texts.map chomp ++ linesFrom [] rest := by
  induction texts with
  | nil => rfl
  | cons text texts ih =>
    obtain ⟨first,later⟩ := List.forall_mem_cons.mp free
    rw [List.flatMap_cons,List.append_assoc,List.append_assoc,List.singleton_append,linesFrom_line first,ih later,List.map_cons,
      List.cons_append]

theorem linesFrom_chomped (texts : List (List Char)) (free : ∀ text ∈ texts, '\n' ∉ text) :
    linesFrom [] (texts.flatMap (· ++ ['\n'])) = texts.map chomp := by
  have whole := linesFrom_framed texts free []
  have none : linesFrom [] [] = [] := rfl
  rwa [List.append_nil,none,List.append_nil] at whole

theorem linesFrom_terminated (texts : List (List Char)) (single : ∀ text ∈ texts, '\n' ∉ text ∧ ∀ c ∈ text.getLast?, c ≠ '\r') :
    linesFrom [] (texts.flatMap (· ++ ['\n'])) = texts := by
  have kept : texts.map chomp = texts.map id := by
    apply List.map_congr_left
    intro text member
    exact chomp_eq.mpr fun last => (single text member).2 _ last rfl
  rw [linesFrom_chomped texts fun text member => (single text member).1,kept,List.map_id]

theorem solid_append (left right : List Char) (leftSolid : Solid left) (rightSolid : Solid right) (some : left ≠ [])
    (ending : right ≠ []) (middle : List Char) : Solid (left ++ (middle ++ right)) := by
  constructor
  · rw [List.head?_append_of_ne_nil _ some]
    exact leftSolid.1
  · rw [← List.append_assoc,List.getLast?_append_of_ne_nil _ ending]
    exact rightSolid.2

-- Solid lines make a solid text, but for its last newline.
theorem terminated_solid {front : List (List Char)} {last : List Char}
    (single : ∀ text ∈ front ++ [last], text ≠ [] ∧ Solid text ∧ '\n' ∉ text) : Solid (front.flatMap (· ++ ['\n']) ++ last) := by
  obtain ⟨full,solid,_⟩ := single last (by simp)
  cases front with
  | nil => exact solid
  | cons first rest =>
    obtain ⟨some,firstSolid,_⟩ := single first (by simp)
    have joined := solid_append first last firstSolid solid some full (['\n'] ++ rest.flatMap (· ++ ['\n']))
    simpa using joined

theorem linesFrom_end {last : List Char} (full : last ≠ []) (free : '\n' ∉ last) (plain : ∀ c ∈ last.getLast?, c ≠ '\r')
    (front : List Char) : linesFrom [] (front ++ last ++ ['\n']) = linesFrom [] (front ++ last) := by
  rcases List.eq_nil_or_concat last with empty | ⟨before,c,rfl⟩
  · exact absurd empty full
  · rw [List.concat_eq_append] at free plain ⊢
    have other : c ≠ '\n' := by
      rintro rfl
      exact free (by simp)
    rw [← List.append_assoc]
    exact linesFrom_newline other (plain c (by simp)) [] (front ++ before)

-- Trimming takes the last newline only, so all the lines are there.
theorem linesFrom_trimmed (texts : List (List Char)) (single : ∀ text ∈ texts, text ≠ [] ∧ Solid text ∧ '\n' ∉ text) :
    linesFrom [] (trimChars (texts.flatMap (· ++ ['\n']))) = texts := by
  have endings : ∀ text ∈ texts, '\n' ∉ text ∧ ∀ c ∈ text.getLast?, c ≠ '\r' := by
    intro text member
    obtain ⟨_,solid,free⟩ := single text member
    refine ⟨free,?_⟩
    rintro c last rfl
    exact absurd (solid.2 '\r' last) (by decide)
  rcases List.eq_nil_or_concat texts with rfl | ⟨front,last,rfl⟩
  · rfl
  · rw [List.concat_eq_append] at single endings ⊢
    obtain ⟨full,_,free⟩ := single last (by simp)
    have text : (front ++ [last]).flatMap (· ++ ['\n']) = front.flatMap (· ++ ['\n']) ++ last ++ ['\n'] := by simp
    have whole := linesFrom_terminated _ endings
    rw [text] at whole ⊢
    rw [trimChars_tail blank_newline,trimChars_solid (terminated_solid single),← whole]
    exact (linesFrom_end full free (endings last (by simp)).2 _).symm

theorem chomp_returned (front : List Char) : chomp (front ++ ['\r']) = front := by simp [chomp,stripReturn]

-- Only the last character of a line counts.
theorem chomp_behind (plain : left.getLast? ≠ some '\r') (right : List Char) : chomp (left ++ right) = left ++ chomp right := by
  rcases List.eq_nil_or_concat right with rfl | ⟨front,c,rfl⟩
  · rw [List.append_nil,chomp_eq.mpr plain]
    exact (List.append_nil left).symm
  · rw [List.concat_eq_append,← List.append_assoc]
    by_cases last : c = '\r'
    · subst last
      rw [chomp_returned,chomp_returned]
    · have ends : ∀ text : List Char, (text ++ [c]).getLast? ≠ some '\r' := by simp [last]
      rw [chomp_eq.mpr (ends _),chomp_eq.mpr (ends _),List.append_assoc]

-- What may follow the last line and leave it as it is.
theorem last_kept {last : List Char} (some : last ≠ []) (free : '\n' ∉ last) (plain : last.getLast? ≠ Option.some '\r') :
    linesFrom [] (last ++ tail) = [last] ↔ tail = [] ∨ tail = ['\n'] ∨ tail = ['\r','\n'] := by
  constructor
  · intro kept
    by_cases inside : '\n' ∈ tail
    · obtain ⟨before,rest,rfl,clear⟩ := List.eq_append_cons_of_mem inside
      have line : '\n' ∉ last ++ before := by simp [free,clear]
      rw [← List.append_assoc,linesFrom_line line] at kept
      obtain ⟨same,none⟩ := List.cons_eq_cons.mp kept
      rw [linesFrom_empty none]
      rcases List.eq_nil_or_concat before with rfl | ⟨front,c,rfl⟩
      · exact .inr (.inl rfl)
      · rw [List.concat_eq_append,← List.append_assoc] at same
        by_cases returned : c = '\r'
        · rw [returned,chomp_returned,List.append_right_eq_self] at same
          exact .inr (.inr (by rw [List.concat_eq_append,same,returned]; rfl))
        · rw [chomp_eq.mpr (by simpa using returned),List.append_assoc,List.append_right_eq_self] at same
          simp at same
    · have whole : '\n' ∉ last ++ tail := by simp [free,inside]
      have single : linesFrom [] (last ++ tail) = [last ++ tail] := linesFrom_free whole (by simp [some])
      rw [single,List.cons.injEq,List.append_right_eq_self] at kept
      exact .inl kept.1
  · rintro (rfl | rfl | rfl)
    · rw [List.append_nil]
      exact linesFrom_free free (by simpa using some)
    · rw [linesFrom_line free,chomp_eq.mpr plain]
      rfl
    · have line : '\n' ∉ last ++ ['\r'] := by simp [free]
      have split : last ++ ['\r','\n'] = (last ++ ['\r']) ++ '\n' :: [] := by simp
      rw [split,linesFrom_line line,chomp_returned]
      rfl

-- The lines before the last one do not depend on what follows.
theorem linesFrom_last (plain : core.getLast? ≠ some '\n') (some : core ≠ []) :
    ∃ settled last, last ≠ [] ∧ '\n' ∉ last ∧ last <:+ core ∧
      ∀ tail, linesFrom [] (core ++ tail) = settled ++ linesFrom [] (last ++ tail) := by
  by_cases inside : '\n' ∈ core.reverse
  · obtain ⟨reversed,before,split,free⟩ := List.eq_append_cons_of_mem inside
    have text : core = before.reverse ++ '\n' :: reversed.reverse := by
      rw [← List.reverse_reverse core,split]
      simp
    refine ⟨linesFrom [] (before.reverse ++ ['\n']),reversed.reverse,?_,by simpa using free,?_,?_⟩
    · intro none
      rw [text,none] at plain
      simp at plain
    · rw [text]
      exact (List.suffix_cons '\n' _).trans (List.suffix_append _ _)
    · intro tail
      rw [text,List.append_assoc,List.cons_append]
      exact linesFrom_append [] before.reverse (reversed.reverse ++ tail)
  · exact ⟨[],core,some,by simpa using inside,List.suffix_rfl,fun tail => rfl⟩

theorem linesFrom_tail (solid : Solid core) (some : core ≠ []) :
    linesFrom [] (core ++ tail) = linesFrom [] core ↔ tail = [] ∨ tail = ['\n'] ∨ tail = ['\r','\n'] := by
  have ending : ∀ c, isWhitespace c = true → core.getLast? ≠ Option.some c := fun c blank last => by
    rw [solid.2 c last] at blank
    cases blank
  obtain ⟨settled,last,full,free,within,lines⟩ := linesFrom_last (ending '\n' (by decide)) some
  have plain : last.getLast? ≠ Option.some '\r' := by
    obtain ⟨front,split⟩ := within
    intro returned
    apply ending '\r' (by decide)
    rw [← split,List.getLast?_append_of_ne_nil _ full,returned]
  have alone : linesFrom [] last = [last] := linesFrom_free free (by simpa using full)
  have whole := lines []
  rw [List.append_nil,List.append_nil,alone] at whole
  rw [lines tail,whole,List.append_right_inj,last_kept full free plain]

-- The first line begins the text, and is not empty where the text begins solid.
theorem first_prefix (read : linesFrom reversed left = line :: more) : line <+: reversed.reverse ++ left := by
  induction left generalizing reversed with
  | nil =>
    unfold linesFrom at read
    split at read
    · cases read
    · cases read
      exact List.prefix_append _ _
  | cons c rest ih =>
    unfold linesFrom at read
    split at read
    · obtain ⟨rfl,_⟩ := List.cons_eq_cons.mp read
      have front : stripReturn reversed <+: reversed.reverse := by
        unfold stripReturn
        split
        · rw [List.reverse_cons]
          exact List.prefix_append _ _
        · exact List.prefix_rfl
      exact front.trans (List.prefix_append _ _)
    · have inner := ih read
      rwa [List.reverse_cons,List.append_assoc,List.singleton_append] at inner

theorem first_line (solid : c ≠ '\r') (start : reversed.getLast? = some c) (left : List Char) :
    ∃ line more, linesFrom reversed left = line :: more ∧ line.head? = some c := by
  induction left generalizing reversed with
  | nil =>
    have full : reversed.isEmpty = false := by
      cases reversed with
      | nil => cases start
      | cons => rfl
    refine ⟨reversed.reverse,[],?_,by rw [List.head?_reverse,start]⟩
    rw [linesFrom,full]
    rfl
  | cons d rest ih =>
    rw [linesFrom]
    split
    · refine ⟨stripReturn reversed,linesFrom [] rest,rfl,?_⟩
      unfold stripReturn
      split
      · rename_i front
        rw [List.head?_reverse]
        cases front with
        | nil => exact absurd (Option.some.inj start).symm solid
        | cons => simpa using start
      · rw [List.head?_reverse,start]
    · apply ih
      cases reversed with
      | nil => cases start
      | cons => simpa using start

theorem linesFrom_clear (clear : '\n' ∉ reversed) : ∀ line ∈ linesFrom reversed left, '\n' ∉ line := by
  induction left generalizing reversed with
  | nil =>
    intro line member
    unfold linesFrom at member
    split at member
    · cases member
    · obtain rfl := List.mem_singleton.mp member
      simpa using clear
  | cons c rest ih =>
    intro line member
    unfold linesFrom at member
    split at member
    · rcases List.mem_cons.mp member with rfl | later
      · unfold stripReturn
        split
        · rw [List.mem_reverse]
          exact fun inside => clear (List.mem_cons_of_mem _ inside)
        · simpa using clear
      · exact ih List.not_mem_nil line later
    · rename_i other
      have longer : '\n' ∉ c :: reversed := by simp [Ne.symm other,clear]
      exact ih longer line member

theorem lines_free (s : String) : ∀ line ∈ lines s, '\n' ∉ line.toList := by
  intro line member
  obtain ⟨chars,listed,rfl⟩ := List.mem_map.mp member
  rw [String.toList_ofList]
  exact linesFrom_clear List.not_mem_nil chars listed

theorem numeral_digits (n : Nat) : n.repr.toList ≠ [] ∧ ∀ c ∈ n.repr.toList, c.isDigit = true := by
  rw [Nat.toList_repr]
  exact ⟨Nat.toDigits_ne_nil,fun c member => Nat.isDigit_of_mem_toDigits (by decide) (by decide) member⟩

theorem digits_repr (n : Nat) : digits n.repr.toList = some n := by
  obtain ⟨some,digit⟩ := numeral_digits n
  rw [digits,if_pos ⟨some,List.all_eq_true.mpr digit⟩,Nat.toList_repr]
  exact congrArg Option.some Nat.ofDigitChars_ten_toDigits

-- Where a string is split, the front holds no separator; else there is none.
theorem splitOnce_cases (s : String) (separator : Char) :
    (splitOnce s separator = none ∧ separator ∉ s.toList) ∨ ∃ front remainder, splitOnce s separator = some (front,remainder) ∧
      s.toList = front.toList ++ separator :: remainder.toList ∧ separator ∉ front.toList := by
  have cut : s.toList.span (fun c => c != separator) =
      (s.toList.takeWhile fun c => c != separator,s.toList.dropWhile fun c => c != separator) :=
    List.span_eq_takeWhile_dropWhile _ _
  have whole := List.takeWhile_append_dropWhile (p := fun c => c != separator) (l := s.toList)
  have free : separator ∉ s.toList.takeWhile fun c => c != separator := fun inside => by
    simpa using List.mem_takeWhile_imp inside
  rw [splitOnce,cut]
  cases behind : s.toList.dropWhile fun c => c != separator with
  | nil =>
    rw [behind,List.append_nil] at whole
    rw [whole] at free
    exact .inl ⟨rfl,free⟩
  | cons c rest =>
    have same : c = separator := by
      have stopped := List.head?_dropWhile_not (fun c => c != separator) s.toList
      rw [behind] at stopped
      simpa using stopped
    refine .inr ⟨_,_,rfl,?_,by rwa [String.toList_ofList]⟩
    subst same
    rw [String.toList_ofList,String.toList_ofList,← behind,whole]

theorem splitOn_free (separator : Char) (chars : List Char) : ∀ piece ∈ chars.splitOn separator, separator ∉ piece := by
  induction chars with
  | nil => simp
  | cons c rest ih =>
    rw [List.splitOn_cons_eq_if_modifyHead]
    by_cases same : c = separator
    · simpa [same] using ih
    · cases pieces : rest.splitOn separator with
      | nil => exact absurd pieces (List.splitOn_ne_nil _ _)
      | cons first more =>
        rw [pieces] at ih
        obtain ⟨free,behind⟩ := List.forall_mem_cons.mp ih
        simpa [same,free,Ne.symm same] using behind

-- Lines that a newline ends each are the pieces before the last, which is empty.
theorem splitOn_terminated (texts : List (List Char)) (free : ∀ text ∈ texts, '\n' ∉ text) :
    (texts.flatMap (· ++ ['\n'])).splitOn '\n' = texts ++ [[]] := by
  induction texts with
  | nil => rfl
  | cons text texts ih =>
    obtain ⟨first,later⟩ := List.forall_mem_cons.mp free
    rw [List.flatMap_cons,List.append_assoc,List.singleton_append,List.splitOn_append_cons_self_of_not_mem first,ih later]
    rfl

theorem terminated_pieces (texts : List (List Char)) :
    ['\n'].intercalate (texts ++ [[]]) = texts.flatMap (· ++ ['\n']) := by
  induction texts with
  | nil => rfl
  | cons text texts ih =>
    have more : texts ++ [[]] ≠ [] := by simp
    rw [List.cons_append,List.intercalate_cons_of_ne_nil more,ih,List.flatMap_cons]

theorem terminated_joined {texts : List (List Char)} (some : texts ≠ []) :
    texts.flatMap (· ++ ['\n']) = ['\n'].intercalate texts ++ ['\n'] := by
  induction texts with
  | nil => exact absurd rfl some
  | cons text texts ih =>
    by_cases more : texts = []
    · subst more
      rw [List.flatMap_cons,List.flatMap_nil,List.append_nil,List.intercalate_singleton]
    · rw [List.flatMap_cons,ih more,List.intercalate_cons_of_ne_nil more]
      simp

theorem wordsFrom_letters {word : List Char} (solid : ∀ c ∈ word, isWhitespace c = false) (reversed rest : List Char) :
    wordsFrom reversed (word ++ rest) = wordsFrom (word.reverse ++ reversed) rest := by
  induction word generalizing reversed with
  | nil => rfl
  | cons c word ih =>
    obtain ⟨first,later⟩ := List.forall_mem_cons.mp solid
    rw [List.cons_append,wordsFrom,first,if_neg Bool.false_ne_true,ih later (c :: reversed),List.reverse_cons,List.append_assoc]
    rfl

theorem wordsFrom_word {word : List Char} (solid : ∀ c ∈ word, isWhitespace c = false) (some : word ≠ []) (rest : List Char) :
    wordsFrom [] (word ++ ' ' :: rest) = word :: wordsFrom [] rest := by
  have full : word.reverse.isEmpty = false := by simpa using some
  rw [wordsFrom_letters solid,List.append_nil,wordsFrom,if_pos (by decide),full,List.reverse_reverse]
  rfl

theorem wordsFrom_last {word : List Char} (solid : ∀ c ∈ word, isWhitespace c = false) (some : word ≠ []) :
    wordsFrom [] word = [word] := by
  have full : word.reverse.isEmpty = false := by simpa using some
  have whole := wordsFrom_letters solid [] []
  rw [List.append_nil] at whole
  rw [whole,List.append_nil,wordsFrom,full,List.reverse_reverse]
  rfl

end Quire.TextLines
