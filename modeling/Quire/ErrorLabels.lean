import Quire.SourceLines

namespace Quire.ErrorLabels
open ByteOffsets LineFraming SourceLines
variable {text front : List Char}

-- The inner loop: `idx` is the byte index in the line, as `char_indices` counts.
def bytePosFrom (col idx bytePos : Nat) : List Char → Nat
  | [] => bytePos
  | c :: rest => if idx + 1 = col then idx else bytePosFrom col (idx + c.utf8Size) (idx + c.utf8Size) rest

def lineColOffset (source : String) (line : Nat) (col : Option Nat) : Option Nat :=
  (lineFrom line 1 0 source.toList).map fun (i,rest) =>
    match col with
    | some col => i + bytePosFrom col 0 0 (rest.takeWhile (· != '\n'))
    | none => i

-- The pieces ended by a newline and a last one that is not empty.
def sourceLines (source : List Char) : List (List Char) :=
  if (source.splitOn '\n').getLast? = some [] then (source.splitOn '\n').dropLast else source.splitOn '\n'

-- Lines count from one.
def sourceLine (source : String) : Nat → Option (List Char)
  | 0 => none
  | n + 1 => (sourceLines source.toList)[n]?

-- What the comments of `line_col_offset` promise: a column is one of characters
-- that counts from one, and one past the line is its end.
def pointed (source : String) (line : Nat) (col : Option Nat) : Option Nat :=
  (sourceLine source line).map fun text =>
    bytes (frame '\n' ((sourceLines source.toList).take (line - 1))) +
      match col with
      | some col => bytes (text.take (col - 1))
      | none => 0

def BeginsAt (mid : Nat) (text : List Char) : Prop := ∃ left c right, text = left ++ c :: right ∧ bytes left = mid

theorem bytePosFrom_begins (left : List Char) (c : Char) (right : List Char) (idx : Nat) :
    bytePosFrom (idx + bytes left + 1) idx idx (left ++ c :: right) = idx + bytes left := by
  induction left generalizing idx with
  | nil => exact if_pos rfl
  | cons d left ih =>
    have one := d.utf8Size_pos
    have later : idx + 1 ≠ idx + bytes (d :: left) + 1 := by rw [bytes_cons]; omega
    have next : idx + bytes (d :: left) = idx + d.utf8Size + bytes left := by rw [bytes_cons,Nat.add_assoc]
    rw [List.cons_append,bytePosFrom,if_neg later,next]
    exact ih _

theorem bytePosFrom_ends (idx : Nat) (missing : ∀ left c right, text = left ++ c :: right → idx + bytes left + 1 ≠ col) :
    bytePosFrom col idx idx text = idx + bytes text := by
  induction text generalizing idx with
  | nil => rfl
  | cons c rest ih =>
    have other : idx + 1 ≠ col := missing [] c rest rfl
    rw [bytePosFrom,if_neg other,bytes_cons,← Nat.add_assoc]
    apply ih
    rintro left d right rfl
    have later := missing (c :: left) d right rfl
    rwa [bytes_cons,← Nat.add_assoc] at later

-- The loop stops at the byte before the column, or not before the line's end.
theorem bytePosFrom_cases (counted : 0 < col) (text : List Char) :
    (BeginsAt (col - 1) text ∧ bytePosFrom col 0 0 text = col - 1) ∨
      (¬ BeginsAt (col - 1) text ∧ bytePosFrom col 0 0 text = bytes text) := by
  by_cases begins : BeginsAt (col - 1) text
  · obtain ⟨left,c,right,rfl,size⟩ := begins
    have same : col = 0 + bytes left + 1 := by omega
    refine .inl ⟨⟨left,c,right,rfl,size⟩,?_⟩
    rw [← size]
    conv_lhs => rw [same]
    rw [bytePosFrom_begins,Nat.zero_add]
  · refine .inr ⟨begins,?_⟩
    rw [bytePosFrom_ends,Nat.zero_add]
    rintro left c right shape equal
    exact begins ⟨left,c,right,shape,by omega⟩

theorem bytePosFrom_boundary (counted : 0 < col) (text : List Char) :
    ∃ front back, text = front ++ back ∧ bytePosFrom col 0 0 text = bytes front := by
  rcases bytePosFrom_cases counted text with ⟨⟨left,c,right,shape,size⟩,stops⟩ | ⟨_,ends⟩
  · exact ⟨left,c :: right,shape,stops.trans size.symm⟩
  · exact ⟨text,[],by simp,ends⟩

-- A character that begins at the byte before the column is the one that is meant
-- where all before it take one byte each.
theorem column_begins (begins : BeginsAt (col - 1) text) :
    col - 1 = bytes (text.take (col - 1)) ↔ ∀ c ∈ text.take (col - 1), c.utf8Size = 1 := by
  obtain ⟨left,c,right,shape,before⟩ := begins
  have one := c.utf8Size_pos
  have inside : bytes text = col - 1 + (c.utf8Size + bytes right) := by rw [shape,bytes_append,bytes_cons,before]
  have size : (text.take (col - 1)).length = min (col - 1) text.length := List.length_take
  have short : text.length ≤ col - 1 → bytes text = bytes (text.take (col - 1)) := fun within => by
    rw [List.take_of_length_le within]
  rw [← bytes_eq_length,size]
  constructor <;> intro equal <;> omega

theorem begins_single (longer : col - 1 < text.length) (single : ∀ c ∈ text.take (col - 1), c.utf8Size = 1) :
    BeginsAt (col - 1) text := by
  have size : (text.take (col - 1)).length = col - 1 := List.length_take_of_le longer.le
  refine ⟨text.take (col - 1),text[col - 1],text.drop (col - 1 + 1),?_,?_⟩
  · rw [← List.drop_eq_getElem_cons longer,List.take_append_drop]
  · rw [bytes_eq_length.mpr single,size]

-- Bytes and characters agree on a column behind characters of one byte each; past
-- the end of the line they may agree on the end.
theorem bytePosFrom_column (counted : 0 < col) (text : List Char) : bytePosFrom col 0 0 text = bytes (text.take (col - 1)) ↔
    (∀ c ∈ text.take (col - 1), c.utf8Size = 1) ∨ text.length < col ∧ ¬ BeginsAt (col - 1) text := by
  rcases bytePosFrom_cases counted text with ⟨begins,stops⟩ | ⟨missing,ends⟩
  · rw [stops,column_begins begins,or_iff_left fun past => past.2 begins]
  · have parts : bytes text = bytes (text.take (col - 1)) + bytes (text.drop (col - 1)) := by
      rw [← bytes_append,List.take_append_drop]
    have rest := length_le_bytes (text.drop (col - 1))
    rw [List.length_drop] at rest
    rw [ends]
    constructor
    · intro equal
      exact .inr ⟨by omega,missing⟩
    · intro agrees
      have short : text.length ≤ col - 1 := by
        rcases agrees with single | ⟨past,_⟩
        · by_contra longer
          exact missing (begins_single (by omega) single)
        · omega
      rw [List.take_of_length_le short]

-- The loop finds the lines that a source has and no other.
theorem sourceLines_get (source : List Char) (n : Nat) :
    (sourceLines source)[n]? = if onward source n = [] then none else (source.splitOn '\n')[n]? := by
  rcases List.eq_nil_or_concat (source.splitOn '\n') with none | ⟨front,last,pieces⟩
  · exact absurd none (List.splitOn_ne_nil '\n' source)
  rw [List.concat_eq_append] at pieces
  rw [sourceLines,onward,pieces,List.getLast?_concat,List.dropLast_concat]
  rcases Nat.lt_trichotomy n front.length with before | rfl | behind
  · have more : ['\n'].intercalate ((front ++ [last]).drop n) ≠ [] := by
      have shape : (front ++ [last]).drop n = front[n] :: (front.drop (n + 1) ++ [last]) := by
        rw [List.drop_append_of_le_length before.le,List.drop_eq_getElem_cons before,List.cons_append]
      rw [shape,List.intercalate_cons_of_ne_nil (by simp)]
      simp
    rw [if_neg more]
    split
    · rw [List.getElem?_append_left before]
    · rfl
  · have shape : (front ++ [last]).drop front.length = [last] := List.drop_left
    rw [shape,List.intercalate_singleton]
    by_cases empty : last = []
    · rw [if_pos empty,if_pos (congrArg some empty)]
      exact List.getElem?_eq_none (Nat.le_refl _)
    · rw [if_neg empty,if_neg (by simpa using empty)]
  · have outside : (front ++ [last]).length ≤ n := by rw [List.length_append]; exact behind
    have none : ['\n'].intercalate ((front ++ [last]).drop n) = [] := by rw [List.drop_eq_nil_of_le outside]; rfl
    rw [if_pos none]
    split
    · exact List.getElem?_eq_none behind.le
    · exact List.getElem?_eq_none outside

theorem sourceLines_take {source : List Char} (found : (sourceLines source)[n]? = some text) :
    (sourceLines source).take n = (source.splitOn '\n').take n := by
  obtain ⟨within,_⟩ := List.getElem?_eq_some_iff.mp found
  rw [sourceLines] at within ⊢
  split at within
  · rename_i ended
    rw [List.length_dropLast] at within
    rw [if_pos ended,List.dropLast_eq_take,List.take_take,Nat.min_eq_left within.le]
  · rename_i other
    rw [if_neg other]

-- What the source tells of a line that it has.
theorem lineColOffset_line (found : (sourceLines source.toList)[n]? = some text) (col : Option Nat) :
    (∃ rest, source.toList = frame '\n' ((sourceLines source.toList).take n) ++ (text ++ rest)) ∧
      lineColOffset source (n + 1) col = some (bytes (frame '\n' ((sourceLines source.toList).take n)) +
        match col with
        | some col => bytePosFrom col 0 0 text
        | none => 0) := by
  have pieces := found
  rw [sourceLines_get] at pieces
  split at pieces
  · cases pieces
  · rename_i more
    obtain ⟨rest,shape,line⟩ := onward_line pieces
    have whole := source_onward pieces
    rw [shape] at whole
    refine ⟨⟨rest,by rwa [sourceLines_take found]⟩,?_⟩
    rw [lineColOffset,Nat.add_comm n 1,lineFrom_onward,if_neg more,Option.map_some,Nat.zero_add,start,sourceLines_take found]
    cases col with
    | none => rfl
    | some col =>
      change some (_ + bytePosFrom col 0 0 ((onward source.toList n).takeWhile (· != '\n'))) = _
      rw [line]

theorem lineColOffset_none (source : String) (line : Nat) (col : Option Nat) :
    lineColOffset source line col = none ↔ sourceLine source line = none := by
  cases line with
  | zero =>
    rw [lineColOffset,lineFrom_passed Nat.zero_lt_one]
    exact ⟨fun _ => rfl,fun _ => rfl⟩
  | succ n =>
    rw [sourceLine]
    cases found : (sourceLines source.toList)[n]? with
    | none =>
      rw [sourceLines_get] at found
      have empty : onward source.toList n = [] := by
        by_contra more
        rw [if_neg more] at found
        exact more (onward_none found)
      rw [lineColOffset,Nat.add_comm n 1,lineFrom_onward,if_pos empty]
      exact ⟨fun _ => rfl,fun _ => rfl⟩
    | some text =>
      rw [(lineColOffset_line found col).2]
      exact ⟨nofun,nofun⟩

theorem lineColOffset_boundary (counted : col ≠ some 0) (found : lineColOffset source line col = some offset) :
    Boundary offset source.toList := by
  cases line with
  | zero =>
    rw [lineColOffset,lineFrom_passed Nat.zero_lt_one] at found
    cases found
  | succ n =>
    have held : (sourceLines source.toList)[n]? ≠ none := by
      intro missing
      rw [(lineColOffset_none source (n + 1) col).mpr missing] at found
      cases found
    obtain ⟨text,line⟩ := Option.ne_none_iff_exists'.mp held
    obtain ⟨⟨rest,whole⟩,offsetAt⟩ := lineColOffset_line line col
    rw [offsetAt] at found
    cases found
    cases col with
    | none =>
      have opens := boundary_append (frame '\n' ((sourceLines source.toList).take n)) (text ++ rest)
      rwa [← whole] at opens
    | some col =>
      have first : 0 < col := Nat.pos_of_ne_zero fun zero => counted (congrArg some zero)
      obtain ⟨front,back,rfl,size⟩ := bytePosFrom_boundary first text
      have inside := boundary_append (frame '\n' ((sourceLines source.toList).take n) ++ front) (back ++ rest)
      rw [List.append_assoc,← List.append_assoc front,← whole,bytes_append,← size] at inside
      exact inside

-- `line_col_offset` compares a byte index with the column.
theorem lineColOffset_points (source : String) (line : Nat) (col : Option Nat) (counted : col ≠ some 0) :
    (lineColOffset source line col = pointed source line col ∧
      (∀ offset, lineColOffset source line col = some offset → Boundary offset source.toList) ∧
      (lineColOffset source line col = none ↔ sourceLine source line = none)) ↔
    ∀ k text, col = some k → sourceLine source line = some text →
      (∀ c ∈ text.take (k - 1), c.utf8Size = 1) ∨ text.length < k ∧ ¬ BeginsAt (k - 1) text := by
  have bounded : ∀ offset, lineColOffset source line col = some offset → Boundary offset source.toList :=
    fun offset found => lineColOffset_boundary counted found
  rw [and_iff_left ⟨bounded,lineColOffset_none source line col⟩]
  cases held : sourceLine source line with
  | none =>
    rw [(lineColOffset_none source line col).mpr held,pointed,held]
    exact ⟨fun _ _ _ _ found => (nomatch found),fun _ => rfl⟩
  | some text =>
    cases line with
    | zero => cases held
    | succ n =>
      rw [(lineColOffset_line held col).2,pointed,held]
      cases col with
      | none =>
        constructor
        · rintro _ k _ ⟨⟩
        · exact fun _ => rfl
      | some k =>
        have first : 0 < k := Nat.pos_of_ne_zero fun zero => counted (congrArg some zero)
        rw [Option.map_some,Option.some_inj,Nat.add_sub_cancel,Nat.add_left_cancel_iff]
        constructor
        · rintro equal _ _ ⟨⟩ ⟨⟩
          exact (bytePosFrom_column first text).mp equal
        · intro agrees
          exact (bytePosFrom_column first text).mpr (agrees k text rfl rfl)

theorem lineColOffset_points_plain :
    (lineColOffset "(job\n  :a)\n" 2 (some 4) = pointed "(job\n  :a)\n" 2 (some 4) ∧
      (∀ offset, lineColOffset "(job\n  :a)\n" 2 (some 4) = some offset → Boundary offset "(job\n  :a)\n".toList) ∧
      (lineColOffset "(job\n  :a)\n" 2 (some 4) = none ↔ sourceLine "(job\n  :a)\n" 2 = none)) ↔
    ∀ k text, some 4 = some k → sourceLine "(job\n  :a)\n" 2 = some text →
      (∀ c ∈ text.take (k - 1), c.utf8Size = 1) ∨ text.length < k ∧ ¬ BeginsAt (k - 1) text :=
  lineColOffset_points "(job\n  :a)\n" 2 (some 4) (by decide)

-- A letter of two bytes before the column moves the label to the end of the line.
theorem lineColOffset_behind : lineColOffset "éa" 1 (some 2) = some 3 ∧ pointed "éa" 1 (some 2) = some 2 := by decide

end Quire.ErrorLabels
