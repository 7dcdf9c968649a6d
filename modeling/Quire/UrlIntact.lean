import Quire.UrlPath

namespace Quire.UrlIntact
open UrlPath
variable {text segment : Bytes} {front rest settled : List Bytes}

-- No digit of an escape is a slash, so a slash makes none of what was none.
theorem escapeAt_slash {rest : Bytes} (none : escapeAt (c :: rest) = none) (right : Bytes) : escapeAt (c :: (rest ++ 47 :: right)) = Option.none := by
  cases found : escapeAt (c :: (rest ++ 47 :: right)) with
  | none => rfl
  | some b =>
    obtain ⟨high,low,tail,shape,first,second⟩ := escapeAt_shape found
    obtain ⟨rfl,behind⟩ := List.cons_eq_cons.mp shape
    cases rest with
    | nil =>
      obtain ⟨rfl,_⟩ := List.cons_eq_cons.mp behind
      cases first
    | cons d rest =>
      obtain ⟨rfl,later⟩ := List.cons_eq_cons.mp behind
      cases rest with
      | nil =>
        obtain ⟨rfl,_⟩ := List.cons_eq_cons.mp later
        cases second
      | cons e rest =>
        obtain ⟨rfl,_⟩ := List.cons_eq_cons.mp later
        have held : escapeAt (percent :: d :: e :: rest) = some b := found
        rw [none] at held
        cases held

-- A slash that was sent stands between what is decoded on its sides.
theorem decode_slash (left right : Bytes) : decode (left ++ 47 :: right) = decode left ++ 47 :: decode right := by
  induction left using decode_induction with
  | nil =>
    have none : escapeAt (47 :: right) = none := by
      cases found : escapeAt (47 :: right) with
      | none => rfl
      | some b =>
        obtain ⟨_,_,_,shape,_⟩ := escapeAt_shape found
        cases shape
    exact decode_literal none
  | escaped bytes b found ih =>
    obtain ⟨a,c,rest,rfl,_⟩ := escapeAt_shape found
    have again : escapeAt (percent :: a :: c :: (rest ++ 47 :: right)) = some b := found
    rw [decode_escape found]
    exact (decode_escape again).trans (congrArg (b :: ·) ih)
  | literal c rest none ih =>
    rw [List.cons_append,decode_literal (escapeAt_slash none right),decode_literal none,ih]
    rfl

theorem decode_behind (first : Bytes) (pieces : List Bytes) :
    decode (first ++ base pieces) = decode first ++ base (pieces.map decode) := by
  induction pieces generalizing first with
  | nil => simp [base]
  | cons piece pieces ih =>
    have shape : ∀ (one : Bytes) (more : List Bytes), base (one :: more) = 47 :: (one ++ base more) := fun _ _ => rfl
    rw [shape,decode_slash,ih,List.map_cons,shape]

theorem joined (first : Bytes) (pieces : List Bytes) : [47].intercalate (first :: pieces) = first ++ base pieces := by
  induction pieces generalizing first with
  | nil => simp [base]
  | cons piece pieces ih =>
    rw [List.intercalate_cons_cons,ih]
    simp [base]

theorem base_cons (piece : Bytes) (pieces : List Bytes) : (base (piece :: pieces)).length = piece.length + 1 + (base pieces).length := by
  simp only [base,List.flatMap_cons,List.length_append,List.length_cons]

theorem base_append (left right : List Bytes) : (base (left ++ right)).length = (base left).length + (base right).length := by
  simp [base]

theorem base_dropLast (pieces : List Bytes) : (base pieces.dropLast).length ≤ (base pieces).length := by
  rcases List.eq_nil_or_concat pieces with rfl | ⟨front,last,rfl⟩
  · exact Nat.le_refl _
  · rw [List.concat_eq_append,List.dropLast_concat,base_append]
    exact Nat.le_add_right _ _

theorem splitOnP_length (text : Bytes) : (base (text.splitOnP slash)).length = text.length + 1 := by
  induction text with
  | nil => rfl
  | cons c rest ih =>
    rw [List.splitOnP_cons_eq_if_modifyHead]
    split
    · rw [base_cons,ih,List.length_nil,List.length_cons]
      omega
    · cases behind : rest.splitOnP slash with
      | nil => exact absurd behind (List.splitOnP_ne_nil slash rest)
      | cons first more =>
        rw [behind,base_cons] at ih
        rw [List.modifyHead_cons,base_cons,List.length_cons,List.length_cons]
        omega

theorem dots_length (piece : Bytes) : (doubleDot piece = true → 2 ≤ piece.length) ∧ (singleDot piece = true → 1 ≤ piece.length) := by
  have doubles : ∀ piece ∈ dot.flatMap fun one => dot.map (one ++ ·), 2 ≤ piece.length := by decide
  have singles : ∀ piece ∈ dot, 1 ≤ piece.length := by decide
  exact ⟨fun double => doubles piece (List.contains_iff_mem.mp double),fun single => singles piece (List.contains_iff_mem.mp single)⟩

-- Dot segments only make a path shorter.
theorem resolve_length (settled rest : List Bytes) :
    (base (resolve settled rest)).length ≤ (base settled).length + (base rest).length ∧
      ((base settled).length + (base rest).length ≤ (base (resolve settled rest)).length →
        ∀ piece ∈ rest, doubleDot piece = false ∧ singleDot piece = false) := by
  induction rest generalizing settled with
  | nil => exact ⟨Nat.le_refl _,fun _ piece member => absurd member List.not_mem_nil⟩
  | cons piece rest ih =>
    have ending : (base (if rest = [] then [[]] else [] : List Bytes)).length ≤ 1 := by split <;> decide
    have dropped := base_dropLast settled
    rw [resolve,base_cons]
    cases double : doubleDot piece with
    | true =>
      have size := (dots_length piece).1 double
      have behind := (ih (settled.dropLast ++ if rest = [] then [[]] else [])).1
      rw [base_append] at behind
      rw [if_pos rfl]
      exact ⟨by omega,fun long => by omega⟩
    | false =>
      cases single : singleDot piece with
      | true =>
        have size := (dots_length piece).2 single
        have behind := (ih (settled ++ if rest = [] then [[]] else [])).1
        rw [base_append] at behind
        rw [if_neg Bool.false_ne_true,if_pos rfl]
        exact ⟨by omega,fun long => by omega⟩
      | false =>
        have behind := ih (settled ++ [piece])
        rw [base_append,base_cons] at behind
        rw [if_neg Bool.false_ne_true,if_neg Bool.false_ne_true]
        have nothing : (base []).length = 0 := rfl
        refine ⟨by omega,?_⟩
        intro long other member
        rcases List.mem_cons.mp member with rfl | later
        · exact ⟨double,single⟩
        · exact behind.2 (by omega) other later

theorem decoded_length (pieces : List Bytes) : (base (pieces.map decode)).length ≤ (base pieces).length ∧
    ((base pieces).length ≤ (base (pieces.map decode)).length → ∀ piece ∈ pieces, escapes piece = false) := by
  induction pieces with
  | nil => exact ⟨Nat.le_refl _,fun _ piece member => absurd member List.not_mem_nil⟩
  | cons piece pieces ih =>
    have first := decode_length piece
    rw [List.map_cons,base_cons,base_cons]
    refine ⟨by omega,?_⟩
    intro long other member
    rcases List.mem_cons.mp member with rfl | later
    · apply Bool.eq_false_iff.mpr
      intro found
      have shorter := decode_shorter other found
      omega
    · exact ih.2 (by omega) other later

-- What each step on the way leaves of a text.
theorem passage (text : Bytes) : ∃ first more, (pathPart (clean text)).splitOnP slash = first :: more ∧
    (segments text).map decode = (resolve [] more).map decode ∧ first.length + (base more).length = (pathPart (clean text)).length ∧
    (pathPart (clean text)).Sublist (clean text) ∧ (clean text).Sublist text := by
  obtain ⟨first,more,cut⟩ := List.exists_cons_of_ne_nil (List.splitOnP_ne_nil slash (pathPart (clean text)))
  have total := splitOnP_length (pathPart (clean text))
  rw [cut,base_cons] at total
  refine ⟨first,more,cut,?_,by omega,(List.takeWhile_prefix _).sublist,clean_sublist text⟩
  rw [segments,cut,List.tail_cons,List.map_map]
  exact List.map_congr_left fun piece _ => decode_encode piece

theorem arrived_length (text : Bytes) : (base ((segments text).map decode)).length ≤ text.length := by
  obtain ⟨first,more,_,decoded,total,front,cleaned⟩ := passage text
  have one := front.length_le
  have two := cleaned.length_le
  have resolved := (resolve_length [] more).1
  have read := (decoded_length (resolve [] more)).1
  have nothing : (base []).length = 0 := rfl
  rw [decoded]
  omega

-- A text of which nothing is lost on the way was cut into segments that stay as they are.
theorem intact {text : Bytes} (long : text.length ≤ (base ((segments text).map decode)).length) :
    segments text = (text.splitOnP slash).tail.map encode ∧ (∀ piece ∈ (text.splitOnP slash).tail, Settled piece ∧ escapes piece = false) ∧
      ∀ b ∈ text.getLast?, c0Space b = false := by
  obtain ⟨first,more,cut,decoded,total,front,cleaned⟩ := passage text
  have one := front.length_le
  have two := cleaned.length_le
  have resolved := resolve_length [] more
  have read := decoded_length (resolve [] more)
  have nothing : (base []).length = 0 := rfl
  rw [decoded] at long
  rw [nothing,Nat.zero_add] at resolved
  have same : clean text = text := cleaned.eq_of_length_le (by omega)
  have path : pathPart text = text := by
    rw [same] at front total
    exact front.eq_of_length_le (by omega)
  rw [same,path] at cut
  have dots := resolved.2 (by omega)
  have kept : resolve [] more = more := resolve_plain [] dots
  rw [kept] at read long
  have plain := read.2 (by omega)
  obtain ⟨tabs,ending⟩ := clean_kept same
  have arrived : segments text = more.map encode := by rw [segments,same,path,cut,List.tail_cons,kept]
  rw [cut,List.tail_cons]
  refine ⟨arrived,?_,ending⟩
  intro piece member
  have listed : piece ∈ text.splitOnP slash := by rw [cut]; exact List.mem_cons_of_mem _ member
  obtain ⟨inside,clear⟩ := splitOnP_piece slash text piece listed
  have settled : ∀ b ∈ piece, slash b = false ∧ tabNewline b = false ∧ (b != 63 && b != 35) = true := fun b within =>
    ⟨clear b within,tabs b (inside.subset within),pathPart_kept path b (inside.subset within)⟩
  exact ⟨⟨settled,dots piece member⟩,plain piece member⟩

-- Lists of pieces without slashes are told apart by their text.
theorem base_injective {left right : List Bytes} (one : ∀ piece ∈ left, 47 ∉ piece) (two : ∀ piece ∈ right, 47 ∉ piece)
    (same : base left = base right) : left = right := by
  have split : ∀ pieces : List Bytes, (∀ piece ∈ pieces, 47 ∉ piece) → ∀ first : Bytes, 47 ∉ first →
      (first ++ base pieces).splitOn 47 = first :: pieces := by
    intro pieces
    induction pieces with
    | nil =>
      intro _ first free
      rw [base,List.flatMap_nil,List.append_nil]
      exact List.splitOn_eq_singleton free
    | cons piece pieces ih =>
      intro free first clear
      obtain ⟨here,later⟩ := List.forall_mem_cons.mp free
      have shape : base (piece :: pieces) = 47 :: (piece ++ base pieces) := rfl
      rw [shape,List.splitOn_append_cons_self_of_not_mem clear,ih later piece here]
  have cut := congrArg (List.splitOn 47) same
  have first := split left one [] List.not_mem_nil
  have second := split right two [] List.not_mem_nil
  rw [List.nil_append] at first second
  rw [first,second] at cut
  exact (List.cons_eq_cons.mp cut).2

end Quire.UrlIntact
