import Mathlib.Data.List.Basic

namespace Quire.ByteOffsets

-- Offsets into a text are counted in the bytes of its UTF-8 encoding.
def bytes : List Char → Nat
  | [] => 0
  | c :: rest => c.utf8Size + bytes rest

-- str::split_at: what stands before and behind an offset, none where it is no
-- boundary of a character in the text.
def cut : Nat → List Char → Option (List Char × List Char)
  | 0,rest => some ([],rest)
  | _ + 1,[] => none
  | mid + 1,c :: rest =>
    if c.utf8Size ≤ mid + 1 then (cut (mid + 1 - c.utf8Size) rest).map fun (front,back) => (c :: front,back) else none

-- Some character begins before the offset and ends behind it.
def Straddled (mid : Nat) (text : List Char) : Prop :=
  ∃ left c right, text = left ++ c :: right ∧ bytes left < mid ∧ mid < bytes left + c.utf8Size

-- str::is_char_boundary, which the ends of a text are too.
def Boundary (mid : Nat) (text : List Char) : Prop := (cut mid text).isSome = true

variable {text front back left right : List Char} {mid : Nat}

@[simp] theorem bytes_nil : bytes [] = 0 := rfl

@[simp] theorem bytes_cons (c : Char) (rest : List Char) : bytes (c :: rest) = c.utf8Size + bytes rest := rfl

@[simp] theorem bytes_append (left right : List Char) : bytes (left ++ right) = bytes left + bytes right := by
  induction left with
  | nil => rw [List.nil_append,bytes_nil,Nat.zero_add]
  | cons c rest ih => rw [List.cons_append,bytes_cons,bytes_cons,ih,Nat.add_assoc]

theorem bytes_string (s : String) : s.utf8ByteSize = bytes s.toList := by
  rw [← String.ofList_toList (s := s)]
  generalize s.toList = chars
  rw [String.toList_ofList]
  induction chars with
  | nil => rfl
  | cons c rest ih =>
    have split : String.ofList (c :: rest) = String.singleton c ++ String.ofList rest := by simp
    rw [split,String.utf8ByteSize_append,String.utf8ByteSize_singleton,ih,bytes_cons]

theorem length_le_bytes (text : List Char) : text.length ≤ bytes text := by
  induction text with
  | nil => exact Nat.le_refl _
  | cons c rest ih =>
    have one := c.utf8Size_pos
    rw [List.length_cons,bytes_cons]
    omega

-- Only texts of single bytes are as long as their encoding.
theorem bytes_eq_length : bytes text = text.length ↔ ∀ c ∈ text, c.utf8Size = 1 := by
  induction text with
  | nil => simp
  | cons c rest ih =>
    have one := c.utf8Size_pos
    have more := length_le_bytes rest
    rw [List.forall_mem_cons,← ih,bytes_cons,List.length_cons]
    omega

theorem bytes_front (start : front <+: text) : bytes front ≤ bytes text := by
  obtain ⟨rest,rfl⟩ := start
  rw [bytes_append]
  omega

-- Of two beginnings of one text the one with no more bytes begins the other.
theorem prefix_within (first : front <+: text) (second : left <+: text) (order : bytes front ≤ bytes left) : front <+: left := by
  rcases List.prefix_or_prefix_of_prefix first second with within | ⟨rest,rfl⟩
  · exact within
  · rw [bytes_append] at order
    have none := length_le_bytes rest
    have empty : rest = [] := List.length_eq_zero_iff.mp (by omega)
    exact ⟨[],by rw [empty,List.append_nil,List.append_nil]⟩

theorem prefix_eq (first : front <+: text) (second : left <+: text) (same : bytes front = bytes left) : front = left := by
  have one := prefix_within first second (Nat.le_of_eq same)
  have two := prefix_within second first (Nat.le_of_eq same.symm)
  exact one.eq_of_length (Nat.le_antisymm one.length_le two.length_le)

theorem cut_append (front back : List Char) : cut (bytes front) (front ++ back) = some (front,back) := by
  induction front with
  | nil => cases back <;> rfl
  | cons c front ih =>
    have one := c.utf8Size_pos
    obtain ⟨mid,size⟩ : ∃ mid, bytes (c :: front) = mid + 1 := ⟨bytes (c :: front) - 1,by rw [bytes_cons]; omega⟩
    have fits : c.utf8Size ≤ mid + 1 := by rw [← size,bytes_cons]; omega
    have left : mid + 1 - c.utf8Size = bytes front := by rw [← size,bytes_cons]; omega
    rw [size,List.cons_append,cut,if_pos fits,left,ih]
    rfl

theorem cut_inv (found : cut mid text = some (front,back)) : text = front ++ back ∧ bytes front = mid := by
  induction text generalizing mid front with
  | nil =>
    cases mid with
    | zero => cases found; exact ⟨rfl,rfl⟩
    | succ mid => cases found
  | cons c rest ih =>
    cases mid with
    | zero => cases found; exact ⟨rfl,rfl⟩
    | succ mid =>
      rw [cut] at found
      split at found
      · rename_i fits
        obtain ⟨⟨inner,behind⟩,later,same⟩ := Option.map_eq_some_iff.mp found
        cases same
        obtain ⟨rfl,size⟩ := ih later
        refine ⟨rfl,?_⟩
        rw [bytes_cons]
        omega
      · cases found

theorem boundary_append (front back : List Char) : Boundary (bytes front) (front ++ back) := by
  rw [Boundary,cut_append]
  rfl

theorem boundary_clear (found : Boundary mid text) : mid ≤ bytes text ∧ ¬ Straddled mid text := by
  obtain ⟨⟨front,back⟩,cutAt⟩ := Option.isSome_iff_exists.mp found
  obtain ⟨rfl,rfl⟩ := cut_inv cutAt
  refine ⟨bytes_front (List.prefix_append _ _),?_⟩
  rintro ⟨left,c,right,split,before,behind⟩
  rcases List.append_eq_append_iff.mp split with ⟨more,rfl,_⟩ | ⟨more,rfl,rest⟩
  · rw [bytes_append] at before
    omega
  · cases more with
    | nil => simp at before
    | cons d more =>
      obtain ⟨rfl,_⟩ := List.cons_eq_cons.mp rest
      simp only [bytes_append,bytes_cons] at behind
      omega

theorem clear_boundary (inside : mid ≤ bytes text) (clear : ¬ Straddled mid text) : Boundary mid text := by
  induction text generalizing mid with
  | nil =>
    obtain rfl : mid = 0 := Nat.le_zero.mp inside
    rfl
  | cons c rest ih =>
    cases mid with
    | zero => rfl
    | succ mid =>
      have fits : c.utf8Size ≤ mid + 1 := by
        by_contra wide
        exact clear ⟨[],c,rest,rfl,Nat.succ_pos _,by simpa using wide⟩
      rw [bytes_cons] at inside
      rw [Boundary,cut,if_pos fits,Option.isSome_map]
      apply ih (by omega)
      rintro ⟨left,d,right,rfl,before,behind⟩
      refine clear ⟨c :: left,d,right,rfl,?_,?_⟩
      · rw [bytes_cons]
        omega
      · rw [bytes_cons]
        omega

-- Every offset inside a text is a boundary or straddled.
theorem boundary_iff : Boundary mid text ↔ mid ≤ bytes text ∧ ¬ Straddled mid text :=
  ⟨boundary_clear,fun ⟨inside,clear⟩ => clear_boundary inside clear⟩

-- The offset that a text too short for the wanted one is cut at instead.
theorem boundary_min : Boundary (min (bytes text) mid) text ↔ ¬ Straddled mid text := by
  rw [boundary_iff,and_iff_right (Nat.min_le_left _ _)]
  apply not_congr
  constructor
  · rintro ⟨left,c,right,rfl,before,behind⟩
    rw [bytes_append,bytes_cons] at before behind
    exact ⟨left,c,right,rfl,by omega,by omega⟩
  · rintro ⟨left,c,right,rfl,before,behind⟩
    refine ⟨left,c,right,rfl,?_,?_⟩ <;> rw [bytes_append,bytes_cons] <;> omega

end Quire.ByteOffsets
