import Mathlib.Data.List.TakeDrop
import Mathlib.Data.List.TakeWhile
import Quire.TextReplace

namespace Quire.UrlPath
open TextReplace

-- The path of a WHATWG URL of a special scheme, on UTF-8 bytes: all it looks
-- for is ASCII.
abbrev Bytes := List UInt8

def percent : UInt8 := 37

def hexDigit (n : UInt8) : UInt8 := if n < 10 then 48 + n else 55 + n

def hexValue (b : UInt8) : Option UInt8 :=
  if 48 ≤ b ∧ b ≤ 57 then some (b - 48)
  else if 65 ≤ b ∧ b ≤ 70 then some (b - 55)
  else if 97 ≤ b ∧ b ≤ 102 then some (b - 87)
  else none

-- The path percent-encode set: controls, all but ASCII, and space " # < > ? ^ ` { }
def pathSet (b : UInt8) : Bool := b ≤ 31 || 126 < b || [32,34,35,60,62,63,94,96,123,125].contains b

def encodeByte (b : UInt8) : Bytes := if pathSet b then [percent,hexDigit (b / 16),hexDigit (b % 16)] else [b]

def encode (bytes : Bytes) : Bytes := bytes.flatMap encodeByte

-- The byte of the escape that a text begins with.
def escapeAt : Bytes → Option UInt8
  | c :: a :: b :: _ =>
    if c = percent then (hexValue a).bind fun high => (hexValue b).map fun low => 16 * high + low else none
  | _ => none

-- The counter is what is left to drop of the last escape.
def decodeFrom : Nat → Bytes → Bytes
  | _,[] => []
  | skip + 1,_ :: rest => decodeFrom skip rest
  | 0,c :: rest =>
    match escapeAt (c :: rest) with
    | some b => b :: decodeFrom 2 rest
    | none => c :: decodeFrom 0 rest

def decode (bytes : Bytes) : Bytes := decodeFrom 0 bytes

def escapes (bytes : Bytes) : Bool := (suffixes bytes).any fun rest => (escapeAt rest).isSome

def c0Space (b : UInt8) : Bool := b ≤ 32
def tabNewline (b : UInt8) : Bool := b == 9 || b == 10 || b == 13
def slash (b : UInt8) : Bool := b == 47 || b == 92

-- What the parser takes away before it starts; a URL begins with no space.
def clean (bytes : Bytes) : Bytes := ((bytes.reverse.dropWhile c0Space).reverse).filter fun b => !tabNewline b

-- Up to the query or the fragment.
def pathPart (bytes : Bytes) : Bytes := bytes.takeWhile fun b => b != 63 && b != 35

def dot : List Bytes := [[46],[37,50,101],[37,50,69]]

def singleDot (piece : Bytes) : Bool := dot.contains piece
def doubleDot (piece : Bytes) : Bool := (dot.flatMap fun one => dot.map (one ++ ·)).contains piece

-- Dot segments lead nowhere and up; at the end they leave an empty segment.
def resolve (settled : List Bytes) : List Bytes → List Bytes
  | [] => settled
  | piece :: rest =>
    let ending := if rest = [] then [[]] else []
    if doubleDot piece then resolve (settled.dropLast ++ ending) rest
    else if singleDot piece then resolve (settled ++ ending) rest
    else resolve (settled ++ [piece]) rest

-- The segments of the path that is sent, from the text after the authority.
def segments (text : Bytes) : List Bytes := (resolve [] ((pathPart (clean text)).splitOnP slash).tail).map encode

theorem decodeFrom_drop (skip : Nat) (bytes : Bytes) : decodeFrom skip bytes = decode (bytes.drop skip) := by
  induction bytes generalizing skip with
  | nil => cases skip <;> rfl
  | cons c rest ih =>
    cases skip with
    | zero => rfl
    | succ skip => exact ih skip

theorem decode_escape (found : escapeAt bytes = some b) : decode bytes = b :: decode (bytes.drop 3) := by
  cases bytes with
  | nil => cases found
  | cons c rest =>
    rw [decode,decodeFrom,found]
    dsimp only
    rw [decodeFrom_drop]
    rfl

theorem decode_literal (none : escapeAt (c :: rest) = none) : decode (c :: rest) = c :: decode rest := by
  rw [decode,decodeFrom,none]
  rfl

-- Through a text, over an escape as a whole.
theorem decode_induction {holds : Bytes → Prop} (nil : holds [])
    (escaped : ∀ bytes b, escapeAt bytes = some b → holds (bytes.drop 3) → holds bytes)
    (literal : ∀ c rest, escapeAt (c :: rest) = none → holds rest → holds (c :: rest)) (bytes : Bytes) : holds bytes := by
  apply scan_induction (fun bytes => (escapeAt bytes).isSome = true) (show 0 < 3 by decide) nil
  · intro bytes found behind
    obtain ⟨b,value⟩ := Option.isSome_iff_exists.mp found
    exact escaped bytes b value behind
  · intro c rest missed behind
    exact literal c rest (by simpa using missed) behind

theorem escapeAt_shape (found : escapeAt bytes = some b) :
    ∃ a c rest, bytes = percent :: a :: c :: rest ∧ (hexValue a).isSome = true ∧ (hexValue c).isSome = true := by
  unfold escapeAt at found
  split at found
  · rename_i c a d rest
    split at found
    · rename_i same
      obtain ⟨high,first,found⟩ := Option.bind_eq_some_iff.mp found
      obtain ⟨low,second,_⟩ := Option.map_eq_some_iff.mp found
      exact ⟨a,d,rest,by rw [same],by rw [first]; rfl,by rw [second]; rfl⟩
    · cases found
  · cases found

theorem decode_length (bytes : Bytes) : (decode bytes).length ≤ bytes.length := by
  induction bytes using decode_induction with
  | nil => exact Nat.le_refl _
  | escaped bytes b found ih =>
    obtain ⟨a,c,rest,rfl,_⟩ := escapeAt_shape found
    rw [decode_escape found]
    simp only [List.drop_succ_cons,List.drop_zero,List.length_cons] at ih ⊢
    omega
  | literal c rest none ih =>
    rw [decode_literal none]
    simpa using ih

theorem escapes_cons (c : UInt8) (rest : Bytes) : escapes (c :: rest) = ((escapeAt (c :: rest)).isSome || escapes rest) := by
  have tails : suffixes (c :: rest) = (c :: rest) :: suffixes rest := by
    simp only [suffixes,List.length_cons]
    rw [List.range_succ_eq_map,List.map_cons,List.map_map]
    rfl
  rw [escapes,tails,List.any_cons]
  rfl

-- Escapes shorten what is decoded, and without one nothing changes.
theorem decode_shorter (bytes : Bytes) (found : escapes bytes = true) : (decode bytes).length < bytes.length := by
  induction bytes using decode_induction with
  | nil => cases found
  | escaped bytes b escape _ =>
    obtain ⟨a,c,rest,rfl,_⟩ := escapeAt_shape escape
    have short := decode_length rest
    rw [decode_escape escape]
    simp only [List.drop_succ_cons,List.drop_zero,List.length_cons]
    omega
  | literal c rest none ih =>
    rw [escapes_cons,none] at found
    have behind := ih found
    rw [decode_literal none]
    simpa using behind

theorem decode_plain (bytes : Bytes) (none : escapes bytes = false) : decode bytes = bytes := by
  induction bytes with
  | nil => rfl
  | cons c rest ih =>
    rw [escapes_cons,Bool.or_eq_false_iff] at none
    rw [decode_literal (by simpa using none.1),ih none.2]

theorem decode_eq_self (bytes : Bytes) : decode bytes = bytes ↔ escapes bytes = false := by
  constructor
  · intro same
    apply Bool.eq_false_iff.mpr
    intro found
    have shorter := decode_shorter bytes found
    rw [same] at shorter
    exact Nat.lt_irrefl _ shorter
  · exact decode_plain bytes

theorem every_byte (holds : UInt8 → Bool) (all : (List.range 256).all (fun n => holds (UInt8.ofNat n)) = true) (b : UInt8) :
    holds b = true := by
  have each := List.all_eq_true.mp all b.toNat (List.mem_range.mpr b.toNat_lt)
  rwa [UInt8.ofNat_toNat] at each

-- A byte that is escaped is read back, and no byte of the set is a hex digit.
theorem escape_read (b : UInt8) : pathSet b = true → encodeByte b = [percent,hexDigit (b / 16),hexDigit (b % 16)] ∧
    (∀ rest, escapeAt (encodeByte b ++ rest) = some b) ∧ hexValue b = none := by
  have all := every_byte (fun b => !pathSet b || (hexValue (hexDigit (b / 16)) == some (b / 16) &&
    hexValue (hexDigit (b % 16)) == some (b % 16) && 16 * (b / 16) + b % 16 == b && hexValue b == none)) (by decide +kernel) b
  intro inSet
  rw [inSet] at all
  simp only [Bool.not_true,Bool.false_or,Bool.and_eq_true,beq_iff_eq] at all
  obtain ⟨⟨⟨high,low⟩,value⟩,other⟩ := all
  have escaped : encodeByte b = [percent,hexDigit (b / 16),hexDigit (b % 16)] := if_pos inSet
  refine ⟨escaped,?_,other⟩
  intro rest
  rw [escaped]
  simp [escapeAt,high,low,value]

theorem encodeByte_hex (digit : (hexValue b).isSome = true) : encodeByte b = [b] := by
  apply if_neg
  intro inSet
  rw [(escape_read b inSet).2.2] at digit
  cases digit

theorem encode_cons (b : UInt8) (rest : Bytes) : encode (b :: rest) = encodeByte b ++ encode rest := List.flatMap_cons

theorem encode_full {bytes : Bytes} (full : bytes ≠ []) : encode bytes ≠ [] := by
  obtain ⟨b,rest,rfl⟩ := List.exists_cons_of_ne_nil full
  rw [encode_cons,encodeByte]
  split <;> exact List.cons_ne_nil _ _

-- A digit behind which an encoded text goes on was there before.
theorem encode_digit (digit : (hexValue a).isSome = true) (encoded : encode bytes = a :: tail) :
    ∃ rest, bytes = a :: rest ∧ encode rest = tail := by
  cases bytes with
  | nil => cases encoded
  | cons c rest =>
    rw [encode_cons] at encoded
    cases inSet : pathSet c with
    | true =>
      rw [(escape_read c inSet).1] at encoded
      obtain ⟨rfl,_⟩ := List.cons_eq_cons.mp encoded
      cases digit
    | false =>
      have single : encodeByte c = [c] := if_neg (by rw [inSet]; exact Bool.false_ne_true)
      rw [single] at encoded
      obtain ⟨rfl,behind⟩ := List.cons_eq_cons.mp encoded
      exact ⟨rest,rfl,behind⟩

-- No escape comes about where there was none.
theorem escapeAt_encode {rest : Bytes} (none : escapeAt (c :: rest) = none) : escapeAt (c :: encode rest) = Option.none := by
  cases found : escapeAt (c :: encode rest) with
  | none => rfl
  | some b =>
    obtain ⟨a,d,tail,shape,first,second⟩ := escapeAt_shape found
    obtain ⟨rfl,behind⟩ := List.cons_eq_cons.mp shape
    obtain ⟨later,rfl,encoded⟩ := encode_digit first behind
    obtain ⟨last,rfl,_⟩ := encode_digit second encoded
    rw [behind] at found
    have again : escapeAt (percent :: a :: d :: last) = some b := found
    rw [none] at again
    cases again

-- Encoding is undone by decoding, and leaves the escapes that are there.
theorem decode_encode (bytes : Bytes) : decode (encode bytes) = decode bytes := by
  induction bytes using decode_induction with
  | nil => rfl
  | escaped bytes b found ih =>
    obtain ⟨a,c,rest,rfl,first,second⟩ := escapeAt_shape found
    have mark : encodeByte percent = [percent] := by decide
    have text : encode (percent :: a :: c :: rest) = percent :: a :: c :: encode rest := by
      rw [encode_cons,encode_cons,encode_cons,mark,encodeByte_hex first,encodeByte_hex second]
      rfl
    have again : escapeAt (percent :: a :: c :: encode rest) = some b := found
    rw [text,decode_escape again,decode_escape found]
    exact congrArg _ ih
  | literal c rest none ih =>
    rw [decode_literal none,encode_cons]
    cases inSet : pathSet c with
    | true =>
      obtain ⟨text,read,_⟩ := escape_read c inSet
      have behind : (encodeByte c ++ encode rest).drop 3 = encode rest := by rw [text]; rfl
      rw [decode_escape (read (encode rest)),behind,ih]
    | false =>
      have single : encodeByte c = [c] := if_neg (by rw [inSet]; exact Bool.false_ne_true)
      rw [single,List.singleton_append,decode_literal (escapeAt_encode none),ih]

-- What a path makes of a text after some whole segments: clean segments stay,
-- and the text is cut into pieces of its own.
def Settled (piece : Bytes) : Prop := (∀ b ∈ piece, slash b = false ∧ tabNewline b = false ∧ (b != 63 && b != 35) = true) ∧
  doubleDot piece = false ∧ singleDot piece = false

instance : DecidablePred Settled := fun piece =>
  decidable_of_iff ((piece.all fun b => !slash b && !tabNewline b && b != 63 && b != 35) = true ∧
    doubleDot piece = false ∧ singleDot piece = false) (by simp [Settled,and_assoc])

-- A text that stays as it is: one segment, not empty, with no dots, no
-- delimiters and no space at its end.
def Whole (bytes : Bytes) : Prop := bytes ≠ [] ∧ Settled bytes ∧ ∀ b ∈ bytes.getLast?, c0Space b = false

instance : DecidablePred Whole := fun bytes => inferInstanceAs
  (Decidable (bytes ≠ [] ∧ Settled bytes ∧ ∀ b ∈ bytes.getLast?, c0Space b = false))

-- The pieces of a text behind a slash.
def pieces (bytes : Bytes) : List Bytes := (pathPart (clean bytes)).splitOnP slash

def base (segments : List Bytes) : Bytes := segments.flatMap fun segment => 47 :: segment

theorem dropWhile_stop {p : UInt8 → Bool} (stop : p c = false) (left rest : Bytes) :
    (left ++ c :: rest).dropWhile p = left.dropWhile p ++ c :: rest := by
  induction left with
  | nil => rw [List.nil_append,List.dropWhile_cons,stop]; rfl
  | cons d left ih =>
    rw [List.cons_append,List.dropWhile_cons,List.dropWhile_cons,ih]
    split <;> rfl

section Front
variable {front : List Bytes}

theorem base_plain (plain : ∀ segment ∈ front, Settled segment) :
    ∀ b ∈ base front, tabNewline b = false ∧ (b != 63 && b != 35) = true := by
  intro b member
  obtain ⟨segment,listed,inside⟩ := List.mem_flatMap.mp member
  rcases List.mem_cons.mp inside with rfl | within
  · decide
  · exact ((plain segment listed).1 b within).2

theorem clean_base (plain : ∀ segment ∈ front, Settled segment) (text : Bytes) :
    clean (base front ++ 47 :: text) = base front ++ 47 :: clean text := by
  have kept : (base front).filter (fun b => !tabNewline b) = base front :=
    List.filter_eq_self.mpr fun b member => by rw [(base_plain plain b member).1]; rfl
  have reversed : (base front ++ 47 :: text).reverse = text.reverse ++ 47 :: (base front).reverse := by simp
  have stop : c0Space 47 = false := by decide
  have slashKept : (!tabNewline 47) = true := by decide
  rw [clean,reversed,dropWhile_stop stop,List.reverse_append,List.reverse_cons,List.reverse_reverse,List.append_assoc,
    List.filter_append,kept,List.singleton_append,List.filter_cons,if_pos slashKept]
  rfl

theorem pathPart_base (plain : ∀ segment ∈ front, Settled segment) (text : Bytes) :
    pathPart (base front ++ 47 :: text) = base front ++ 47 :: pathPart text := by
  have passed : ((47 : UInt8) != 63 && (47 : UInt8) != 35) = true := by decide
  rw [pathPart,List.takeWhile_append_of_pos fun b member => (base_plain plain b member).2,List.takeWhile_cons,if_pos passed]
  rfl

theorem split_base (plain : ∀ segment ∈ front, Settled segment) (first : Bytes) (clear : ∀ b ∈ first, slash b = false)
    (text : Bytes) : (first ++ (base front ++ 47 :: text)).splitOnP slash = first :: front ++ text.splitOnP slash := by
  induction front generalizing first with
  | nil => exact List.splitOnP_append_cons_of_forall_mem clear 47 rfl text
  | cons segment front ih =>
    obtain ⟨settled,later⟩ := List.forall_mem_cons.mp plain
    have shape : first ++ (base (segment :: front) ++ 47 :: text) = first ++ 47 :: (segment ++ (base front ++ 47 :: text)) := by
      simp [base]
    rw [shape,List.splitOnP_append_cons_of_forall_mem clear 47 rfl,ih later segment fun b member => (settled.1 b member).1]
    rfl

theorem resolve_settled (settled rest : List Bytes) (plain : ∀ piece ∈ rest, doubleDot piece = false ∧ singleDot piece = false)
    (more : List Bytes) : resolve settled (rest ++ more) = resolve (settled ++ rest) more := by
  induction rest generalizing settled with
  | nil => simp
  | cons piece rest ih =>
    obtain ⟨first,later⟩ := List.forall_mem_cons.mp plain
    rw [List.cons_append,resolve,first.1,first.2]
    simp only [Bool.false_eq_true,if_false]
    rw [ih _ later,List.append_assoc,List.singleton_append]

theorem resolve_plain (settled : List Bytes) {rest : List Bytes} (plain : ∀ piece ∈ rest, doubleDot piece = false ∧ singleDot piece = false) :
    resolve settled rest = settled ++ rest := by
  have whole := resolve_settled settled rest plain []
  rwa [List.append_nil] at whole

-- The text behind some whole segments is resolved from there.
theorem segments_base (plain : ∀ segment ∈ front, Settled segment) (text : Bytes) :
    segments (base front ++ 47 :: text) = (resolve front (pieces text)).map encode := by
  have split := split_base plain [] (fun b member => absurd member List.not_mem_nil) (pathPart (clean text))
  rw [List.nil_append] at split
  rw [segments,clean_base plain,pathPart_base plain,split,List.cons_append,List.tail_cons,
    resolve_settled [] front fun piece member => (plain piece member).2,List.nil_append]
  rfl

theorem clean_same {text : Bytes} (tabs : ∀ b ∈ text, tabNewline b = false) (ending : ∀ b ∈ text.getLast?, c0Space b = false) :
    clean text = text := by
  have trimmed : text.reverse.dropWhile c0Space = text.reverse := by
    cases reversed : text.reverse with
    | nil => rfl
    | cons b rest =>
      have last : text.getLast? = some b := by rw [← List.head?_reverse,reversed]; rfl
      rw [List.dropWhile_cons,ending b last]
      rfl
  rw [clean,trimmed,List.reverse_reverse]
  exact List.filter_eq_self.mpr fun b member => by rw [tabs b member]; rfl

theorem whole_clean {text : Bytes} (whole : Whole text) : clean text = text :=
  clean_same (fun b member => (whole.2.1.1 b member).2.1) whole.2.2

theorem whole_pieces {text : Bytes} (whole : Whole text) : pieces text = [text] := by
  have clear := whole.2.1.1
  have passed : text.takeWhile (fun b => b != 63 && b != 35) = text :=
    List.takeWhile_eq_self_iff.mpr fun b member => (clear b member).2.2
  rw [pieces,whole_clean whole,pathPart,passed]
  exact List.splitOnP_eq_singleton fun b member => (clear b member).1

theorem segments_whole (plain : ∀ segment ∈ front, Settled segment) {text : Bytes} (whole : Whole text) :
    segments (base front ++ 47 :: text) = (front ++ [text]).map encode := by
  rw [segments_base plain,whole_pieces whole,resolve,whole.2.1.2.1,whole.2.1.2.2]
  rfl

theorem prefix_split {whole left right : List Bytes} (start : whole <+: left ++ right) :
    ∃ one two, whole = one ++ two ∧ one <+: left ∧ two <+: right := by
  obtain ⟨rest,text⟩ := start
  rcases List.append_eq_append_iff.mp text with ⟨middle,rfl,_⟩ | ⟨middle,rfl,split⟩
  · exact ⟨whole,[],by simp,List.prefix_append _ _,List.nil_prefix⟩
  · exact ⟨left,middle,rfl,List.prefix_rfl,⟨rest,split.symm⟩⟩

-- What is left of the segments before, and the pieces that were added.
theorem resolve_shape (all rest settled : List Bytes) (within : ∀ piece ∈ rest, piece ∈ all) :
    ∃ one two, resolve settled rest = one ++ two ∧ one <+: settled ∧
      ∀ piece ∈ two, piece = [] ∨ (piece ∈ all ∧ doubleDot piece = false ∧ singleDot piece = false) := by
  induction rest generalizing settled with
  | nil => exact ⟨settled,[],by simp [resolve],List.prefix_rfl,fun piece member => absurd member List.not_mem_nil⟩
  | cons piece rest ih =>
    obtain ⟨first,later⟩ := List.forall_mem_cons.mp within
    -- the settled segments grow by the allowed ones only
    have grown : ∀ kept added, kept <+: settled →
        (∀ other ∈ added, other = [] ∨ (other ∈ all ∧ doubleDot other = false ∧ singleDot other = false)) →
        ∃ one two, resolve (kept ++ added) rest = one ++ two ∧ one <+: settled ∧
          ∀ other ∈ two, other = [] ∨ (other ∈ all ∧ doubleDot other = false ∧ singleDot other = false) := by
      intro kept added inside allowed
      obtain ⟨one,two,shape,start,pushed⟩ := ih (kept ++ added) later
      obtain ⟨left,right,rfl,leftStart,rightStart⟩ := prefix_split start
      refine ⟨left,right ++ two,by rw [shape,List.append_assoc],leftStart.trans inside,?_⟩
      intro other member
      rcases List.mem_append.mp member with inRight | inTwo
      · exact allowed other (rightStart.subset inRight)
      · exact pushed other inTwo
    have ending : ∀ other ∈ (if rest = [] then [[]] else [] : List Bytes),
        other = [] ∨ (other ∈ all ∧ doubleDot other = false ∧ singleDot other = false) := by
      intro other member
      split at member
      · exact .inl (List.mem_singleton.mp member)
      · cases member
    rw [resolve]
    cases double : doubleDot piece with
    | true => exact grown settled.dropLast _ (List.dropLast_prefix settled) ending
    | false =>
      cases single : singleDot piece with
      | true => exact grown settled _ List.prefix_rfl ending
      | false =>
        refine grown settled [piece] List.prefix_rfl ?_
        intro other member
        obtain rfl := List.mem_singleton.mp member
        exact .inr ⟨first,double,single⟩

theorem splitOnP_piece (p : UInt8 → Bool) (text : Bytes) : ∀ piece ∈ text.splitOnP p, piece.Sublist text ∧ ∀ b ∈ piece, p b = false := by
  induction text with
  | nil =>
    intro piece member
    rw [List.splitOnP_nil] at member
    obtain rfl := List.mem_singleton.mp member
    exact ⟨List.Sublist.refl _,fun b inside => absurd inside List.not_mem_nil⟩
  | cons c rest ih =>
    intro piece member
    rw [List.splitOnP_cons_eq_if_modifyHead] at member
    split at member
    · rcases List.mem_cons.mp member with rfl | later
      · exact ⟨List.nil_sublist _,fun b inside => absurd inside List.not_mem_nil⟩
      · exact ⟨(ih piece later).1.cons c,(ih piece later).2⟩
    · rename_i other
      cases behind : rest.splitOnP p with
      | nil => exact absurd behind (List.splitOnP_ne_nil p rest)
      | cons head tail =>
        rw [behind] at member ih
        obtain ⟨headFacts,tailFacts⟩ := List.forall_mem_cons.mp ih
        rcases List.mem_cons.mp member with rfl | later
        · refine ⟨headFacts.1.cons_cons c,?_⟩
          intro b inside
          rcases List.mem_cons.mp inside with rfl | deeper
          · exact Bool.eq_false_iff.mpr other
          · exact headFacts.2 b deeper
        · exact ⟨(tailFacts piece later).1.cons c,(tailFacts piece later).2⟩

theorem clean_sublist (text : Bytes) : (clean text).Sublist text := by
  refine List.filter_sublist.trans ?_
  have ending := (List.dropWhile_suffix c0Space (l := text.reverse)).sublist.reverse
  rwa [List.reverse_reverse] at ending

theorem clean_kept {text : Bytes} (same : clean text = text) :
    (∀ b ∈ text, tabNewline b = false) ∧ ∀ b ∈ text.getLast?, c0Space b = false := by
  constructor
  · intro b within
    rw [← same,clean] at within
    simpa using (List.mem_filter.mp within).2
  · have trimmed : (text.reverse.dropWhile c0Space).reverse = text := by
      have ending := (List.dropWhile_suffix c0Space (l := text.reverse)).sublist.reverse
      rw [List.reverse_reverse] at ending
      apply ending.eq_of_length_le
      have filtered := List.length_filter_le (fun b => !tabNewline b) (text.reverse.dropWhile c0Space).reverse
      change (clean text).length ≤ _ at filtered
      rwa [same] at filtered
    intro b last
    have stopped := List.head?_dropWhile_not c0Space text.reverse
    have first : (text.reverse.dropWhile c0Space).head? = Option.some b := by
      rw [← List.getLast?_reverse,trimmed]
      exact last
    rw [first] at stopped
    exact stopped

theorem pathPart_kept {text : Bytes} (same : pathPart text = text) : ∀ b ∈ text, (b != 63 && b != 35) = true :=
  List.takeWhile_eq_self_iff.mp same

-- A piece as long as the text is the text, which then stays as it is.
theorem piece_whole {text : Bytes} (member : text ∈ pieces text) (some : text ≠ [])
    (dots : doubleDot text = false ∧ singleDot text = false) : Whole text := by
  obtain ⟨inside,clear⟩ := splitOnP_piece slash _ text member
  have front : (pathPart (clean text)).Sublist (clean text) := (List.takeWhile_prefix _).sublist
  have same : clean text = text := (clean_sublist text).eq_of_length_le (inside.trans front).length_le
  rw [same] at inside front
  have path : pathPart text = text := front.eq_of_length_le inside.length_le
  obtain ⟨tabs,ending⟩ := clean_kept same
  exact ⟨some,⟨fun b within => ⟨clear b within,tabs b within,pathPart_kept path b within⟩,dots⟩,ending⟩

-- A segment that arrives behind whole ones is a piece of the text.
theorem segment_piece (plain : ∀ segment ∈ front, Settled segment) {text segment : Bytes} (some : segment ≠ [])
    (arrived : segments (base front ++ 47 :: text) = front.map encode ++ [segment]) :
    ∃ piece, segment = encode piece ∧ piece ∈ pieces text ∧ piece.Sublist text ∧
      doubleDot piece = false ∧ singleDot piece = false := by
  rw [segments_base plain] at arrived
  obtain ⟨one,two,shape,start,pushed⟩ := resolve_shape (pieces text) (pieces text) front fun _ member => member
  have size := congrArg List.length arrived
  rw [shape,List.length_map,List.length_append,List.length_append,List.length_map,List.length_singleton] at size
  have short := start.length_le
  rcases List.eq_nil_or_concat two with rfl | ⟨more,piece,rfl⟩
  · simp only [List.length_nil] at size
    omega
  · rw [shape,List.concat_eq_append,← List.append_assoc,List.map_append,List.map_singleton] at arrived
    obtain ⟨_,last⟩ := List.append_inj' arrived rfl
    obtain rfl := (List.cons_eq_cons.mp last).1
    rcases pushed piece (by simp) with rfl | ⟨member,dots⟩
    · exact absurd rfl some
    · have inside : piece.Sublist text :=
        ((splitOnP_piece slash _ piece member).1.trans (List.takeWhile_prefix _).sublist).trans (clean_sublist text)
      exact ⟨piece,rfl,member,inside,dots⟩

-- Nothing that arrives is longer than what was sent.
theorem segment_short (plain : ∀ segment ∈ front, Settled segment) {text segment : Bytes} (some : segment ≠ [])
    (arrived : segments (base front ++ 47 :: text) = front.map encode ++ [segment]) :
    (decode segment).length ≤ text.length := by
  obtain ⟨piece,rfl,_,inside,_⟩ := segment_piece plain some arrived
  rw [decode_encode]
  exact Nat.le_trans (decode_length piece) inside.length_le

-- A text that URL parsing and decoding both leave alone.
def Unchanged (text : Bytes) : Prop := Whole text ∧ escapes text = false

instance : DecidablePred Unchanged := fun _ => instDecidableAnd

theorem segments_unchanged (plain : ∀ segment ∈ front, Settled segment) {text : Bytes} (unchanged : Unchanged text) :
    encode text ≠ [] ∧ decode (encode text) = text ∧
      segments (base front ++ 47 :: text) = front.map encode ++ [encode text] := by
  obtain ⟨whole,none⟩ := unchanged
  have decoded : decode (encode text) = text := by rw [decode_encode,decode_plain text none]
  refine ⟨?_,decoded,?_⟩
  · intro empty
    rw [empty] at decoded
    exact whole.1 decoded.symm
  · rw [segments_whole plain whole,List.map_append,List.map_singleton]

-- A segment behind whole ones that decodes to the text is the text.
theorem unchanged_of_segments (plain : ∀ segment ∈ front, Settled segment) {text segment : Bytes} (some : segment ≠ [])
    (arrived : segments (base front ++ 47 :: text) = front.map encode ++ [segment]) (same : decode segment = text) :
    Unchanged text := by
  obtain ⟨piece,rfl,member,inside,dots⟩ := segment_piece plain some arrived
  rw [decode_encode] at same
  have whole : piece = text := inside.eq_of_length_le (by rw [← same]; exact decode_length piece)
  subst whole
  have full : piece ≠ [] := by
    rintro rfl
    exact some rfl
  exact ⟨piece_whole member full dots,(decode_eq_self piece).mp same⟩

end Front

end Quire.UrlPath
