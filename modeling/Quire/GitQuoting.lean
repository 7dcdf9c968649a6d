import Quire.JsonTokens
import Quire.UrlPath

namespace Quire.GitQuoting
open JsonTokens UrlPath

-- How git prints a path, by the documentation of core.quotePath: control
-- characters, the quote, the backslash and all but ASCII are unusual.
def unusual (b : UInt8) : Bool := b < 32 || 126 < b || b == 34 || b == 92

-- The letters that C has for some of them: \a \b \t \n \v \f \r \" \\
def cLetters : List (UInt8 × UInt8) := [(7,97),(8,98),(9,116),(10,110),(11,118),(12,102),(13,114),(34,34),(92,92)]

def escapeOf (b : UInt8) : Bytes :=
  match cLetters.lookup b with
  | some letter => [92,letter]
  | none => [92,48 + b / 64,48 + b / 8 % 8,48 + b % 8]

def quoteByte (b : UInt8) : Bytes := if unusual b then escapeOf b else [b]

def quotedBytes (name : Bytes) : Bytes := 34 :: name.flatMap quoteByte ++ [34]

-- Every byte of it is ASCII.
def quoteName (name : String) : String :=
  if (bytesOf name).any unusual then String.ofList ((quotedBytes (bytesOf name)).map fun b => Char.ofNat b.toNat) else name

-- Nothing that is printed for a byte is unusual itself, but for quotes and backslashes.
theorem quoteByte_printed (b : UInt8) : ∀ c ∈ quoteByte b, 32 ≤ c ∧ c ≤ 126 := by
  have all := every_byte (fun b => (quoteByte b).all fun c => decide (32 ≤ c ∧ c ≤ 126)) (by decide +kernel) b
  intro c member
  exact of_decide_eq_true (List.all_eq_true.mp all c member)

theorem quotedBytes_printed (name : Bytes) : ∀ c ∈ quotedBytes name, 32 ≤ c ∧ c ≤ 126 := by
  intro c member
  rcases List.mem_append.mp member with inside | ending
  · rcases List.mem_cons.mp inside with rfl | within
    · decide
    · obtain ⟨b,_,printed⟩ := List.mem_flatMap.mp within
      exact quoteByte_printed b c printed
  · obtain rfl := List.mem_singleton.mp ending
    decide

theorem ascii_byte : ∀ n < 128, bytesOf (String.singleton (Char.ofNat n)) = [UInt8.ofNat n] := by decide +kernel

theorem ascii_bytes (bytes : Bytes) (ascii : ∀ b ∈ bytes, b ≤ 126) :
    bytesOf (String.ofList (bytes.map fun b => Char.ofNat b.toNat)) = bytes := by
  induction bytes with
  | nil => decide
  | cons b rest ih =>
    obtain ⟨first,later⟩ := List.forall_mem_cons.mp ascii
    have small : b.toNat < 128 := Nat.lt_of_le_of_lt (UInt8.le_iff_toNat_le.mp first) (by decide)
    have single := ascii_byte b.toNat small
    rw [UInt8.ofNat_toNat] at single
    have split : String.ofList ((b :: rest).map fun b => Char.ofNat b.toNat) =
        String.singleton (Char.ofNat b.toNat) ++ String.ofList (rest.map fun b => Char.ofNat b.toNat) := by simp
    rw [split,bytes_append,ih later,single]
    rfl

-- A text of ASCII bytes has a character for each.
theorem ascii_chars {text : String} (ascii : ∀ b ∈ bytesOf text, b ≤ 126) :
    text.toList = (bytesOf text).map fun b => Char.ofNat b.toNat := by
  have read := congrArg textOf (ascii_bytes (bytesOf text) ascii)
  rw [textOf_bytes,textOf_bytes,Option.some_inj] at read
  rw [← congrArg String.toList read,String.toList_ofList]

theorem usual_ascii {b : UInt8} (usual : unusual b = false) : 32 ≤ b ∧ b ≤ 126 := by
  simp only [unusual,Bool.or_eq_false_iff,decide_eq_false_iff_not,UInt8.not_lt] at usual
  exact usual.1.1

theorem quoteName_usual {name : String} (usual : ∀ b ∈ bytesOf name, unusual b = false) : quoteName name = name := by
  apply if_neg
  intro found
  obtain ⟨b,member,odd⟩ := List.any_eq_true.mp found
  rw [usual b member] at odd
  cases odd

theorem quoteName_bytes {name : String} (odd : ∃ b ∈ bytesOf name, unusual b = true) :
    bytesOf (quoteName name) = quotedBytes (bytesOf name) := by
  rw [quoteName,if_pos (List.any_eq_true.mpr odd)]
  exact ascii_bytes _ fun b member => (quotedBytes_printed _ b member).2

-- An unusual byte other than the backslash is printed as a backslash and a
-- letter, a digit or a quote, which none of the bytes behind it cuts off.
theorem escaped_shape (b : UInt8) (odd : unusual b = true) (other : b ≠ 92) : ∃ c rest, quoteByte b = 92 :: c :: rest ∧
    c ≠ 46 ∧ c ≠ 37 ∧ ∀ d ∈ c :: rest, slash d = false ∧ (d != 63 && d != 35) = true := by
  have all := every_byte (fun b => !unusual b || b == 92 || ((quoteByte b).take 1 == [92] &&
    ((quoteByte b)[1]?.any fun c => c != 46 && c != 37) && (quoteByte b).tail.all fun d => !slash d && (d != 63 && d != 35)))
    (by decide +kernel) b
  rw [odd,beq_eq_false_iff_ne.mpr other] at all
  cases shape : quoteByte b with
  | nil => simp [shape] at all
  | cons first rest =>
    cases rest with
    | nil => simp [shape] at all
    | cons c rest =>
      simp only [shape,Bool.not_true,Bool.false_or,Bool.and_eq_true,List.all_eq_true,Bool.not_eq_true'] at all
      obtain ⟨⟨opens,second⟩,clear⟩ := all
      obtain rfl : first = 92 := by simpa using opens
      obtain ⟨dotless,plain⟩ : c ≠ 46 ∧ c ≠ 37 := by simpa using second
      exact ⟨c,rest,rfl,dotless,plain,fun d member => by simpa using clear d member⟩

theorem splitOnP_behind {left text first : Bytes} {more : List Bytes} (free : ∀ b ∈ left, slash b = false)
    (found : text.splitOnP slash = first :: more) : (left ++ text).splitOnP slash = (left ++ first) :: more := by
  induction left with
  | nil => exact found
  | cons b left ih =>
    obtain ⟨other,later⟩ := List.forall_mem_cons.mp free
    rw [List.cons_append,List.splitOnP_cons_eq_if_modifyHead,other,ih later]
    rfl

-- Dot segments begin with a dot or with an escape.
theorem headed_plain {piece : Bytes} (dotless : piece.head? ≠ some 46) (unescaped : piece.head? ≠ some percent) :
    doubleDot piece = false ∧ singleDot piece = false := by
  have doubles : ∀ piece ∈ dot.flatMap fun one => dot.map (one ++ ·), piece.head? = some 46 ∨ piece.head? = some percent := by decide
  have singles : ∀ piece ∈ dot, piece.head? = some 46 ∨ piece.head? = some percent := by decide
  have other : ¬ (piece.head? = some 46 ∨ piece.head? = some percent) := not_or.mpr ⟨dotless,unescaped⟩
  exact ⟨Bool.eq_false_iff.mpr fun double => other (doubles piece (List.contains_iff_mem.mp double)),
    Bool.eq_false_iff.mpr fun single => other (singles piece (List.contains_iff_mem.mp single))⟩

-- A name whose bytes a URL path would keep, which is what makes the escapes the only cuts.
def Clear (name : Bytes) : Prop := ∀ b ∈ name, slash b = false ∧ (b != 63 && b != 35) = true

theorem quoteByte_clear {b : UInt8} (clear : slash b = false ∧ (b != 63 && b != 35) = true) :
    ∀ c ∈ quoteByte b, (c != 63 && c != 35) = true := by
  intro c member
  cases odd : unusual b with
  | false =>
    rw [quoteByte,odd] at member
    obtain rfl := List.mem_singleton.mp member
    exact clear.2
  | true =>
    have other : b ≠ 92 := by
      rintro rfl
      exact absurd clear.1 (by decide)
    obtain ⟨d,rest,shape,_,_,kept⟩ := escaped_shape b odd other
    rw [shape] at member
    rcases List.mem_cons.mp member with rfl | behind
    · decide
    · exact (kept c behind).2

-- By induction on the name: every escape starts a piece, with a byte that starts no dot segment.
theorem quoted_split {name : Bytes} (clear : Clear name) : ∃ first more,
    (name.flatMap quoteByte ++ [34]).splitOnP slash = first :: more ∧
      (∀ piece ∈ more, piece.head? ≠ some 46 ∧ piece.head? ≠ some percent) ∧ ((∃ b ∈ name, unusual b = true) → more ≠ []) := by
  induction name with
  | nil => exact ⟨[34],[],by decide,fun _ member => absurd member List.not_mem_nil,fun ⟨_,member,_⟩ => absurd member List.not_mem_nil⟩
  | cons b name ih =>
    obtain ⟨kept,later⟩ := List.forall_mem_cons.mp clear
    obtain ⟨first,more,split,headed,cut⟩ := ih later
    rw [List.flatMap_cons,List.append_assoc]
    cases odd : unusual b with
    | false =>
      have single : quoteByte b = [b] := by rw [quoteByte,odd]; rfl
      refine ⟨b :: first,more,?_,headed,?_⟩
      · rw [single]
        exact splitOnP_behind (by simpa using kept.1) split
      · rintro ⟨c,member,found⟩
        rcases List.mem_cons.mp member with rfl | behind
        · rw [odd] at found
          cases found
        · exact cut ⟨c,behind,found⟩
    | true =>
      have other : b ≠ 92 := by
        rintro rfl
        exact absurd kept.1 (by decide)
      obtain ⟨c,rest,shape,dotless,unescaped,plain⟩ := escaped_shape b odd other
      have behind := splitOnP_behind (fun d member => (plain d member).1) split
      refine ⟨[],(c :: rest ++ first) :: more,?_,?_,fun _ => List.cons_ne_nil _ _⟩
      · rw [shape,List.cons_append,List.splitOnP_cons_eq_if_modifyHead,if_pos (by decide),behind]
      · rw [List.forall_mem_cons]
        exact ⟨⟨by simpa using dotless,by simpa [percent] using unescaped⟩,headed⟩

-- A quoted name is cut in a URL path, into pieces that all stay.
theorem quoted_pieces {name : Bytes} (clear : Clear name) (odd : ∃ b ∈ name, unusual b = true) : ∃ first second more,
    pieces (quotedBytes name) = (34 :: first) :: second :: more ∧
      ∀ piece ∈ pieces (quotedBytes name), doubleDot piece = false ∧ singleDot piece = false := by
  obtain ⟨first,more,split,headed,cut⟩ := quoted_split clear
  have tabs : ∀ b ∈ quotedBytes name, tabNewline b = false := by
    intro b member
    have plain := every_byte (fun b => !decide (32 ≤ b) || !tabNewline b) (by decide +kernel) b
    rw [decide_eq_true (quotedBytes_printed name b member).1] at plain
    simpa using plain
  have ending : ∀ b ∈ (quotedBytes name).getLast?, c0Space b = false := by
    intro b last
    rw [quotedBytes,List.getLast?_concat] at last
    cases last
    decide
  have passed : ∀ b ∈ quotedBytes name, (b != 63 && b != 35) = true := by
    intro b member
    rcases List.mem_append.mp member with inside | last
    · rcases List.mem_cons.mp inside with rfl | within
      · decide
      · obtain ⟨c,listed,printed⟩ := List.mem_flatMap.mp within
        exact quoteByte_clear (clear c listed) b printed
    · obtain rfl := List.mem_singleton.mp last
      decide
  have opens : ∀ b ∈ [(34 : UInt8)], slash b = false := fun b member => List.mem_singleton.mp member ▸ rfl
  have whole : pieces (quotedBytes name) = (34 :: first) :: more := by
    rw [pieces,clean_same tabs ending,pathPart,List.takeWhile_eq_self_iff.mpr passed]
    exact splitOnP_behind opens split
  obtain ⟨second,rest,rfl⟩ := List.exists_cons_of_ne_nil (cut odd)
  refine ⟨first,second,rest,whole,?_⟩
  rw [whole,List.forall_mem_cons]
  have opening : ∀ rest : Bytes, (34 :: rest).head? = some 34 := fun _ => rfl
  refine ⟨headed_plain (by rw [opening]; decide) (by rw [opening]; decide),?_⟩
  exact fun piece member => headed_plain (headed piece member).1 (headed piece member).2

end Quire.GitQuoting
