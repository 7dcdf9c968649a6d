import Mathlib.Data.Nat.Digits.Lemmas
import Quire.JsonTokens

namespace Quire.JsonTree
open JsonText JsonTokens

-- Any JSON value. A number with a fraction or an exponent keeps its text.
inductive Tree where
  | null
  | bool (value : Bool)
  | integer (value : Int)
  | decimal (raw : List UInt8)
  | string (text : String)
  | array (items : List Tree)
  | object (members : List (String × Tree))

def openBracket : UInt8 := 91
def closeBracket : UInt8 := 93
def dot : UInt8 := 46
def slash : UInt8 := 47

def nullWord : List UInt8 := [110,117,108,108]
def trueWord : List UInt8 := [116,114,117,101]
def falseWord : List UInt8 := [102,97,108,115,101]

def commas : List (List UInt8) → List UInt8
  | [] => []
  | first :: rest => first ++ rest.flatMap (comma :: ·)

-- The compact form: no white space between the tokens.
mutual
def writeTree : Tree → List UInt8
  | .null => nullWord
  | .bool value => if value then trueWord else falseWord
  | .integer value => writeInteger value
  | .decimal raw => raw
  | .string text => writeString text
  | .array items => openBracket :: (commas (writeItems items) ++ [closeBracket])
  | .object members => openBrace :: (commas (writeMembers members) ++ [closeBrace])

def writeItems : List Tree → List (List UInt8)
  | [] => []
  | item :: rest => writeTree item :: writeItems rest

def writeMembers : List (String × Tree) → List (List UInt8)
  | [] => []
  | (key,value) :: rest => (writeString key ++ colon :: writeTree value) :: writeMembers rest
end

def hexValue (digit : UInt8) : Option Nat :=
  if zero ≤ digit ∧ digit ≤ 57 then some (digit - zero).toNat
  else if 97 ≤ digit ∧ digit ≤ 102 then some (digit - 87).toNat
  else if 65 ≤ digit ∧ digit ≤ 70 then some (digit - 55).toNat
  else none

def readCodeUnit : List UInt8 → Option (Nat × List UInt8)
  | first :: second :: third :: fourth :: rest => do
    let first ← hexValue first
    let second ← hexValue second
    let third ← hexValue third
    let fourth ← hexValue fourth
    return (4096 * first + 256 * second + 16 * third + fourth,rest)
  | _ => none

def isHigh (unit : Nat) : Bool := 0xd800 ≤ unit && unit ≤ 0xdbff
def isLow (unit : Nat) : Bool := 0xdc00 ≤ unit && unit ≤ 0xdfff

-- A high surrogate goes with the low one behind it, and none stands alone.
def readCodePoint (bytes : List UInt8) : Option (Char × List UInt8) :=
  (readCodeUnit bytes).bind fun unit =>
    if isLow unit.1 then none
    else if isHigh unit.1 then
      match unit.2 with
      | mark :: letter :: rest =>
        if mark = backslash ∧ letter = unicode then
          (readCodeUnit rest).bind fun low =>
            if isLow low.1 then some (Char.ofNat (0x10000 + 1024 * (unit.1 - 0xd800) + (low.1 - 0xdc00)),low.2) else none
        else none
      | _ => none
    else some (Char.ofNat unit.1,unit.2)

def readPiece : List UInt8 → Option (List UInt8 × List UInt8)
  | [] => none
  | first :: rest =>
    if first = backslash then
      match rest with
      | [] => none
      | letter :: rest =>
        if letter = unicode then (readCodePoint rest).map fun read => (String.utf8EncodeChar read.1,read.2)
        else if letter = slash then some ([slash],rest)
        else (unescape letter).map fun byte => ([byte],rest)
    else if first < 32 then none
    else some ([first],rest)

def readPieces : Nat → List UInt8 → Option (List UInt8 × List UInt8)
  | 0,_ => none
  | _+1,[] => none
  | fuel+1,first :: rest =>
    if first = quote then some ([],rest)
    else (readPiece (first :: rest)).bind fun read => (readPieces fuel read.2).map fun later => (read.1 ++ later.1,later.2)

-- What stands behind the opening quote. Every piece takes a byte at least.
def readQuoted (bytes : List UInt8) : Option (String × List UInt8) :=
  (readPieces (bytes.length + 1) bytes).bind fun read => (textOf read.1).map fun text => (text,read.2)

-- No digit may follow a zero at the front.
def readWhole (bytes : List UInt8) : Option (List UInt8 × List UInt8) :=
  let digits := bytes.takeWhile isDigit
  if digits = [] ∨ (digits.head? = some zero ∧ digits ≠ [zero]) then none else some (digits,bytes.dropWhile isDigit)

def readFraction : List UInt8 → Option (List UInt8 × List UInt8)
  | [] => some ([],[])
  | first :: rest =>
    if first = dot then
      let digits := rest.takeWhile isDigit
      if digits = [] then none else some (first :: digits,rest.dropWhile isDigit)
    else some ([],first :: rest)

def readExponent : List UInt8 → Option (List UInt8 × List UInt8)
  | [] => some ([],[])
  | first :: rest =>
    if first = 101 ∨ first = 69 then
      let sign := rest.takeWhile (fun byte => byte = 43 ∨ byte = minus) |>.take 1
      let digits := (rest.drop sign.length).takeWhile isDigit
      if digits = [] then none else some (first :: (sign ++ digits),(rest.drop sign.length).dropWhile isDigit)
    else some ([],first :: rest)

-- A negative zero is no integer.
def readNumber (bytes : List UInt8) : Option (Tree × List UInt8) :=
  let sign := bytes.take 1 |>.filter (· = minus)
  (readWhole (bytes.drop sign.length)).bind fun whole =>
    (readFraction whole.2).bind fun fraction =>
      (readExponent fraction.2).map fun exponent =>
        if fraction.1 ≠ [] ∨ exponent.1 ≠ [] ∨ (sign ≠ [] ∧ whole.1 = [zero]) then
          (.decimal (sign ++ (whole.1 ++ (fraction.1 ++ exponent.1))),exponent.2)
        else (.integer (if sign = [] then natOf whole.1 else -natOf whole.1),exponent.2)

def readWord (word : List UInt8) (value : Tree) (bytes : List UInt8) : Option (Tree × List UInt8) :=
  if bytes.take word.length = word then some (value,bytes.drop word.length) else none

section sequences
variable {α : Type} (close : UInt8) (item : List UInt8 → Option (α × List UInt8))

-- What stands after an item: the end, or a comma and an item.
def readMore : Nat → List UInt8 → Option (List α × List UInt8)
  | 0,_ => none
  | fuel+1,bytes =>
    match skip bytes with
    | [] => none
    | mark :: rest =>
      if mark = close then some ([],rest)
      else if mark = comma then
        (item rest).bind fun read => (readMore fuel read.2).map fun later => (read.1 :: later.1,later.2)
      else none

def readAll (bytes : List UInt8) : Option (List α × List UInt8) :=
  match skip bytes with
  | [] => none
  | mark :: rest =>
    if mark = close then some ([],rest)
    else (item (mark :: rest)).bind fun read =>
      (readMore close item (read.2.length + 1) read.2).map fun later => (read.1 :: later.1,later.2)

end sequences

def readEntry (value : List UInt8 → Option (Tree × List UInt8)) (bytes : List UInt8) :
    Option ((String × Tree) × List UInt8) :=
  match skip bytes with
  | [] => none
  | mark :: rest =>
    if mark = quote then
      (readQuoted rest).bind fun key =>
        match skip key.2 with
        | [] => none
        | mark :: rest => if mark = colon then (value rest).map fun read => ((key.1,read.1),read.2) else none
    else none

-- Each array and each object takes one from the depth, and something must be left.
def readTree : Nat → List UInt8 → Option (Tree × List UInt8)
  | 0,_ => none
  | depth+1,bytes =>
    match skip bytes with
    | [] => none
    | mark :: rest =>
      if mark = quote then (readQuoted rest).map fun text => (.string text.1,text.2)
      else if (mark = openBracket ∨ mark = openBrace) ∧ depth = 0 then none
      else if mark = openBracket then (readAll closeBracket (readTree depth) rest).map fun items => (.array items.1,items.2)
      else if mark = openBrace then
        (readAll closeBrace (readEntry (readTree depth)) rest).map fun members => (.object members.1,members.2)
      else if mark = 110 then readWord nullWord .null (mark :: rest)
      else if mark = 116 then readWord trueWord (.bool true) (mark :: rest)
      else if mark = 102 then readWord falseWord (.bool false) (mark :: rest)
      else readNumber (mark :: rest)

def depthLimit : Nat := 128

-- A whole text that is one value, and nothing but white space around it.
def parse (bytes : List UInt8) : Option Tree :=
  (readTree depthLimit bytes).bind fun tree => if skip tree.2 = [] then some tree.1 else none

-- A field that is there twice is an error, and so is a missing one that has no
-- default. A null stands for the default.
def member (members : List (String × Tree)) (name : String) (optional : Bool) : Option Tree :=
  match members.filter (fun entry => entry.1 = name) with
  | [entry] => some entry.2
  | [] => if optional then some .null else none
  | _ => none

-- What #[derive(Deserialize)] reads a struct from: an object that has the fields
-- among others and in any order, or an array of the fields in their order. A
-- field comes with whether it has a default.
def fieldsOf (names : List (String × Bool)) : Tree → Option (List Tree)
  | .object members => names.mapM fun name => member members name.1 name.2
  | .array items =>
    if items.length ≤ names.length ∧ (names.drop items.length).all Prod.snd = true then
      some (items ++ List.replicate (names.length - items.length) .null)
    else none
  | _ => none

-- What a reader of this depth takes: numbers are integers.
inductive Fits : Nat → Tree → Prop where
  | null : Fits (depth+1) .null
  | bool : Fits (depth+1) (.bool value)
  | integer : Fits (depth+1) (.integer value)
  | string : Fits (depth+1) (.string text)
  | array (inside : ∀ item ∈ items, Fits (depth+1) item) : Fits (depth+2) (.array items)
  | object (inside : ∀ member ∈ members, Fits (depth+1) member.2) : Fits (depth+2) (.object members)

def Continues (byte : UInt8) : Prop := isDigit byte = true ∨ byte = dot ∨ byte = 101 ∨ byte = 69

-- What follows does not go on with a number.
def Stops (rest : List UInt8) : Prop := ∀ first ∈ rest.head?, ¬ Continues first

theorem stops_nil : Stops [] := by simp [Stops]

theorem stops_mark (mark : ¬ Continues first) : Stops (first :: rest) := by simpa [Stops] using mark

theorem marks_stop : ¬ Continues comma ∧ ¬ Continues closeBracket ∧ ¬ Continues closeBrace := by
  refine ⟨?_,?_,?_⟩ <;> unfold Continues <;> decide

theorem writeItems_map (items : List Tree) : writeItems items = items.map writeTree := by
  induction items with
  | nil => rfl
  | cons item rest ih => rw [writeItems,ih,List.map_cons]

def writeEntry (member : String × Tree) : List UInt8 := writeString member.1 ++ colon :: writeTree member.2

theorem writeMembers_map (members : List (String × Tree)) : writeMembers members = members.map writeEntry := by
  induction members with
  | nil => rfl
  | cons member rest ih => rw [writeMembers,ih,List.map_cons,writeEntry]

theorem unescape_unicode : unescape unicode = none ∧ unescape slash = none := by decide

-- A control character is its own single byte.
theorem control_read {byte : UInt8} (control : byte < 32) (rest : List UInt8) :
    (readCodePoint (zero :: zero :: hexDigit (byte / 16) :: hexDigit (byte % 16) :: rest)).map
      (fun read => (String.utf8EncodeChar read.1,read.2)) = some ([byte],rest) := by
  have below : byte.toNat < 32 := control
  have digits : ∀ n < 32, hexValue (hexDigit (UInt8.ofNat n / 16)) = some (n / 16) ∧
      hexValue (hexDigit (UInt8.ofNat n % 16)) = some (n % 16) := by decide +kernel
  have code : ∀ n < 32, isLow n = false ∧ isHigh n = false ∧ String.utf8EncodeChar (Char.ofNat n) = [UInt8.ofNat n] := by
    decide +kernel
  obtain ⟨high,low⟩ := digits byte.toNat below
  rw [UInt8.ofNat_toNat] at high low
  obtain ⟨notLow,notHigh,encoded⟩ := code byte.toNat below
  rw [UInt8.ofNat_toNat] at encoded
  have none : hexValue zero = some 0 := by decide
  have unit : readCodeUnit (zero :: zero :: hexDigit (byte / 16) :: hexDigit (byte % 16) :: rest) = some (byte.toNat,rest) := by
    have value : 16 * (byte.toNat / 16) + byte.toNat % 16 = byte.toNat := Nat.div_add_mod _ _
    simp [readCodeUnit,none,high,low,value]
  rw [readCodePoint,unit]
  simp [notLow,notHigh,encoded]

theorem piece_read (byte : UInt8) (rest : List UInt8) : readPiece (escapeByte byte ++ rest) = some ([byte],rest) := by
  unfold escapeByte
  cases short : letters.lookup byte with
  | some letter =>
    obtain ⟨before,after,split,_⟩ := List.lookup_eq_some_iff.mp short
    obtain ⟨other,read⟩ := letters_read (byte,letter) (by rw [split]; simp)
    simp only at other read
    have plain : letter ≠ slash := by
      rintro rfl
      rw [unescape_unicode.2] at read
      cases read
    simp [readPiece,other,plain,read]
  | none =>
    by_cases control : byte < 32
    · have read := control_read control rest
      simpa [control,readPiece] using read
    · have plain : byte ≠ backslash := by
        rintro rfl
        cases short
      simp [control,readPiece,plain]

theorem pieces_read (bytes rest : List UInt8) (enough : bytes.length < fuel) :
    readPieces fuel (bytes.flatMap escapeByte ++ quote :: rest) = some (bytes,rest) := by
  induction bytes generalizing fuel with
  | nil =>
    obtain ⟨fuel,rfl⟩ := Nat.exists_eq_add_one.mpr enough
    simp [readPieces]
  | cons byte more ih =>
    obtain ⟨fuel,rfl⟩ := Nat.exists_eq_add_one.mpr (Nat.zero_lt_of_lt enough)
    have later := ih (Nat.lt_of_succ_lt_succ enough)
    have read := piece_read byte (more.flatMap escapeByte ++ quote :: rest)
    obtain ⟨first,tail,opens,other⟩ := escapeByte_head byte
    rw [opens,List.cons_append] at read
    rw [List.flatMap_cons,List.append_assoc,opens,List.cons_append,readPieces,if_neg other,read]
    simp [later]

theorem quoted_read (text : String) (rest : List UInt8) :
    readQuoted ((bytesOf text).flatMap escapeByte ++ quote :: rest) = some (text,rest) := by
  have enough : (bytesOf text).length < ((bytesOf text).flatMap escapeByte ++ quote :: rest).length + 1 := by
    have short := escaped_length (bytesOf text)
    rw [List.length_append]
    omega
  rw [readQuoted,pieces_read (bytesOf text) rest enough]
  simp [textOf_bytes]

theorem writeString_opens (text : String) (rest : List UInt8) :
    writeString text ++ rest = quote :: ((bytesOf text).flatMap escapeByte ++ quote :: rest) := by
  simp [writeString]

theorem stops_digits (stops : Stops rest) : rest.takeWhile isDigit = [] ∧ rest.dropWhile isDigit = rest := by
  cases rest with
  | nil => exact ⟨rfl,rfl⟩
  | cons first more =>
    have plain : ¬ isDigit first = true := fun digit => stops first rfl (.inl digit)
    exact ⟨List.takeWhile_cons_of_neg plain,List.dropWhile_cons_of_neg plain⟩

theorem stops_number (stops : Stops rest) : readFraction rest = some ([],rest) ∧ readExponent rest = some ([],rest) := by
  cases rest with
  | nil => exact ⟨rfl,rfl⟩
  | cons first more =>
    have plain := stops first rfl
    simp only [Continues,not_or] at plain
    obtain ⟨_,point,small,large⟩ := plain
    simp [readFraction,readExponent,point,small,large]

theorem writeNat_front (value : Nat) : writeNat value = [zero] ∨ (writeNat value).head? ≠ some zero := by
  have all : ∀ digit < 10, digit ≠ 0 → zero + UInt8.ofNat digit ≠ zero := by decide
  by_cases none : value = 0
  · exact .inl (if_pos none)
  · right
    have full : Nat.digits 10 value ≠ [] := Nat.digits_ne_nil_iff_ne_zero.mpr none
    have last := Nat.getLast_digit_ne_zero 10 none
    have small : (Nat.digits 10 value).getLast full < 10 := Nat.digits_lt_base (by decide) (List.getLast_mem full)
    rw [writeNat,if_neg none,List.head?_map,List.head?_reverse,List.getLast?_eq_some_getLast full,Option.map_some]
    intro front
    exact all _ small last (Option.some.inj front)

theorem whole_read (value : Nat) (stops : Stops rest) : readWhole (writeNat value ++ rest) = some (writeNat value,rest) := by
  obtain ⟨stop,after⟩ := stops_digits stops
  have digits : ∀ byte ∈ writeNat value, isDigit byte = true := fun byte member => (writeNat_digits value byte member).1
  have front : ¬ (writeNat value = [] ∨ ((writeNat value).head? = some zero ∧ writeNat value ≠ [zero])) := by
    rintro (empty | ⟨starts,longer⟩)
    · exact writeNat_full value empty
    · exact (writeNat_front value).elim longer fun other => other starts
  rw [readWhole,List.takeWhile_append_of_pos digits,List.dropWhile_append_of_pos digits,stop,after,List.append_nil]
  exact if_neg front

theorem number_read (value : Int) (stops : Stops rest) : readNumber (writeInteger value ++ rest) = some (.integer value,rest) := by
  obtain ⟨fraction,exponent⟩ := stops_number stops
  have whole := whole_read value.natAbs stops
  have read := natOf_write value.natAbs
  unfold writeInteger
  by_cases negative : value < 0
  · have positive : value.natAbs ≠ 0 := by omega
    have digits : writeNat value.natAbs ≠ [zero] := by
      intro single
      rw [single] at read
      exact positive read.symm
    have back : -(natOf (writeNat value.natAbs) : Int) = value := by
      rw [read]
      omega
    simp [negative,readNumber,whole,fraction,exponent,digits,back]
  · have back : (natOf (writeNat value.natAbs) : Int) = value := by
      rw [read]
      omega
    cases written : writeNat value.natAbs with
    | nil => exact absurd written (writeNat_full _)
    | cons first more =>
      have other : first ≠ minus := (writeNat_digits value.natAbs first (by rw [written]; exact List.mem_cons_self)).2.1
      rw [written] at whole back
      simp only [List.cons_append] at whole
      simp [negative,readNumber,other,whole,fraction,exponent,back]

theorem integer_opens (value : Int) : ∃ first more, writeInteger value = first :: more ∧ (isDigit first = true ∨ first = minus) := by
  unfold writeInteger
  split
  · exact ⟨minus,_,rfl,.inr rfl⟩
  · cases written : writeNat value.natAbs with
    | nil => exact absurd written (writeNat_full _)
    | cons first more =>
      exact ⟨first,more,rfl,.inl (writeNat_digits value.natAbs first (by rw [written]; exact List.mem_cons_self)).1⟩

-- The first byte of a value, which tells its kind.
structure Opening (first : UInt8) : Prop where
  solid : isSpace first = false
  bracket : first ≠ closeBracket
  brace : first ≠ closeBrace

theorem every_opening : ∀ first : UInt8, (isDigit first = true ∨ first = minus) →
    Opening first ∧ first ≠ quote ∧ first ≠ openBracket ∧ first ≠ openBrace ∧ first ≠ 110 ∧ first ≠ 116 ∧ first ≠ 102 := by
  have all : (List.range 256).all (fun n => let first := UInt8.ofNat n
      !(isDigit first || first = minus) || (!isSpace first && first ≠ closeBracket && first ≠ closeBrace && first ≠ quote &&
        first ≠ openBracket && first ≠ openBrace && first ≠ 110 && first ≠ 116 && first ≠ 102)) = true := by decide +kernel
  intro first numeral
  have one := List.all_eq_true.mp all first.toNat (List.mem_range.mpr first.toNat_lt)
  simp only [UInt8.ofNat_toNat,Bool.or_eq_true,Bool.not_eq_true',Bool.and_eq_true,decide_eq_true_eq,Bool.or_eq_false_iff,
    decide_eq_false_iff_not] at one
  rcases one with none | ⟨⟨⟨⟨⟨⟨⟨⟨solid,bracket⟩,brace⟩,quoted⟩,array⟩,object⟩,null⟩,yes⟩,no⟩
  · exact absurd numeral (by simpa using none)
  · exact ⟨⟨solid,bracket,brace⟩,quoted,array,object,null,yes,no⟩

section sequences
variable {α : Type} {close : UInt8} {item : List UInt8 → Option (α × List UInt8)} {text : α → List UInt8} {items : List α}

-- The mark at the end of an array or of an object.
structure Closing (close : UInt8) : Prop where
  solid : isSpace close = false
  apart : close ≠ comma
  ends : ¬ Continues close

def Reads (item : List UInt8 → Option (α × List UInt8)) (text : α → List UInt8) (x : α) : Prop :=
  ∀ rest, Stops rest → item (text x ++ rest) = some (x,rest)

theorem commas_stop (text : α → List UInt8) (closing : Closing close) (items : List α) (after : List UInt8) :
    Stops (items.flatMap (fun x => comma :: text x) ++ close :: after) := by
  cases items with
  | nil => exact stops_mark closing.ends
  | cons x rest => exact stops_mark marks_stop.1

theorem more_read (closing : Closing close) (each : ∀ x ∈ items, Reads item text x) (enough : items.length < fuel)
    (after : List UInt8) :
    readMore close item fuel (items.flatMap (fun x => comma :: text x) ++ close :: after) = some (items,after) := by
  have solid : isSpace comma = false := rfl
  induction items generalizing fuel with
  | nil =>
    obtain ⟨fuel,rfl⟩ := Nat.exists_eq_add_one.mpr enough
    simp [readMore,closing.solid]
  | cons x rest ih =>
    obtain ⟨fuel,rfl⟩ := Nat.exists_eq_add_one.mpr (Nat.zero_lt_of_lt enough)
    obtain ⟨first,behind⟩ := List.forall_mem_cons.mp each
    have later := ih behind (Nat.lt_of_succ_lt_succ enough)
    have read := first _ (commas_stop text closing rest after)
    simp [readMore,solid,Ne.symm closing.apart,read,later]

theorem commas_length (text : α → List UInt8) (items : List α) :
    items.length ≤ (items.flatMap fun x => comma :: text x).length := by
  induction items with
  | nil => exact Nat.le_refl _
  | cons x rest ih =>
    simp only [List.flatMap_cons,List.length_append,List.length_cons]
    omega

theorem all_read (closing : Closing close) (each : ∀ x ∈ items, Reads item text x)
    (opens : ∀ x ∈ items, ∃ first more, text x = first :: more ∧ isSpace first = false ∧ first ≠ close) (after : List UInt8) :
    readAll close item (commas (items.map text) ++ close :: after) = some (items,after) := by
  cases items with
  | nil => simp [readAll,commas,closing.solid]
  | cons x rest =>
    obtain ⟨first,behind⟩ := List.forall_mem_cons.mp each
    obtain ⟨mark,more,starts,solid,other⟩ := opens x List.mem_cons_self
    let tail := rest.flatMap (fun x => comma :: text x) ++ close :: after
    have enough : rest.length < tail.length + 1 := by
      have short := commas_length text rest
      simp only [tail,List.length_append]
      omega
    have later : readMore close item (tail.length + 1) tail = some (rest,after) := more_read closing behind enough after
    have read := first tail (commas_stop text closing rest after)
    have whole : commas ((x :: rest).map text) ++ close :: after = text x ++ tail := by
      simp [commas,tail,List.flatMap_map]
    rw [starts,List.cons_append] at read
    rw [whole,starts,List.cons_append,readAll,skip_solid solid]
    simp [other,read,later]

end sequences

theorem write_opens (fits : Fits depth tree) : ∃ first more, writeTree tree = first :: more ∧ Opening first := by
  cases fits with
  | null => exact ⟨_,_,rfl,by constructor <;> decide⟩
  | @bool _ value => cases value <;> exact ⟨_,_,rfl,by constructor <;> decide⟩
  | @integer _ value =>
    obtain ⟨first,more,opens,numeral⟩ := integer_opens value
    exact ⟨first,more,opens,(every_opening first numeral).1⟩
  | string => exact ⟨_,_,rfl,by constructor <;> decide⟩
  | array => exact ⟨_,_,rfl,by constructor <;> decide⟩
  | object => exact ⟨_,_,rfl,by constructor <;> decide⟩

theorem entry_read {value : List UInt8 → Option (Tree × List UInt8)} {member : String × Tree} (each : Reads value writeTree member.2) :
    Reads (readEntry value) writeEntry member := by
  intro rest stops
  have solid : isSpace quote = false ∧ isSpace colon = false := by decide
  have key := quoted_read member.1 (colon :: (writeTree member.2 ++ rest))
  have opens : writeEntry member ++ rest = quote :: ((bytesOf member.1).flatMap escapeByte ++ quote :: colon :: (writeTree member.2 ++ rest)) := by
    simp [writeEntry,writeString]
  rw [readEntry,opens,skip_solid solid.1]
  simp [key,solid,each rest stops]

theorem null_read : Reads (readTree (depth+1)) writeTree .null := by
  intro rest _
  have solid : isSpace 110 = false := rfl
  rw [writeTree,nullWord,List.cons_append,readTree,skip_solid solid]
  rfl

theorem bool_read (value : Bool) : Reads (readTree (depth+1)) writeTree (.bool value) := by
  intro rest _
  have solid : isSpace 116 = false ∧ isSpace 102 = false := by decide
  cases value
  · change readTree (depth+1) (102 :: ([97,108,115,101] ++ rest)) = _
    rw [readTree,skip_solid solid.2]
    rfl
  · change readTree (depth+1) (116 :: ([114,117,101] ++ rest)) = _
    rw [readTree,skip_solid solid.1]
    rfl

-- A value reads back from its compact text, wherever that stands.
theorem readTree_write (fits : Fits depth tree) : Reads (readTree depth) writeTree tree := by
  have solid : isSpace quote = false ∧ isSpace openBracket = false ∧ isSpace openBrace = false := by decide
  have apart : openBracket ≠ quote ∧ openBrace ≠ quote ∧ openBrace ≠ openBracket := by decide
  induction fits with
  | null => exact null_read
  | @bool _ value => exact bool_read value
  | @integer _ value =>
    intro rest stops
    have number := number_read value stops
    obtain ⟨first,more,opens,numeral⟩ := integer_opens value
    obtain ⟨opening,quoted,array,object,null,yes,no⟩ := every_opening first numeral
    rw [opens,List.cons_append] at number
    rw [writeTree,opens,List.cons_append,readTree,skip_solid opening.solid]
    simp [quoted,array,object,null,yes,no,number]
  | @string _ text =>
    intro rest _
    rw [writeTree,writeString_opens,readTree,skip_solid solid.1]
    simp [quoted_read]
  | @array items depth inside ih =>
    intro rest _
    have closing : Closing closeBracket := ⟨rfl,by decide,marks_stop.2.1⟩
    have opens : ∀ item ∈ items, ∃ first more, writeTree item = first :: more ∧ isSpace first = false ∧ first ≠ closeBracket := by
      intro item member
      obtain ⟨first,more,starts,opening⟩ := write_opens (inside item member)
      exact ⟨first,more,starts,opening.solid,opening.bracket⟩
    have all := all_read closing ih opens rest
    rw [writeTree,writeItems_map,List.cons_append,List.append_assoc,List.singleton_append,readTree,skip_solid solid.2.1]
    simp [apart,all]
  | @object members depth inside ih =>
    intro rest _
    have closing : Closing closeBrace := ⟨rfl,by decide,marks_stop.2.2⟩
    have opens : ∀ member ∈ members, ∃ first more, writeEntry member = first :: more ∧ isSpace first = false ∧ first ≠ closeBrace :=
      fun member _ => ⟨quote,_,by rw [writeEntry,writeString_opens],rfl,by decide⟩
    have all := all_read closing (fun member listed => entry_read (ih member listed)) opens rest
    rw [writeTree,writeMembers_map,List.cons_append,List.append_assoc,List.singleton_append,readTree,skip_solid solid.2.2]
    simp [apart,all]

theorem parse_write (fits : Fits depthLimit tree) (blank : skip after = []) (stops : Stops after) :
    parse (writeTree tree ++ after) = some tree := by
  rw [parse,readTree_write fits after stops]
  exact if_pos blank

-- No value is written with a line feed in it.
theorem write_line (fits : Fits depth tree) : lineFeed ∉ writeTree tree := by
  have strings : ∀ text, lineFeed ∉ writeString text := (tokens_lawful fun _ => True).stringLine
  have separated : ∀ texts : List (List UInt8), (∀ text ∈ texts, lineFeed ∉ text) → lineFeed ∉ commas texts := by
    have apart : lineFeed ≠ comma := by decide
    intro texts free
    cases texts with
    | nil => exact List.not_mem_nil
    | cons first rest =>
      obtain ⟨here,behind⟩ := List.forall_mem_cons.mp free
      simpa [commas,here,apart] using behind
  induction fits with
  | null => decide
  | @bool _ value => cases value <;> decide
  | integer => exact (tokens_lawful fun _ => True).integerLine _
  | string => exact strings _
  | @array items _ inside ih =>
    have apart : lineFeed ≠ openBracket ∧ lineFeed ≠ closeBracket := by decide
    have free : ∀ text ∈ writeItems items, lineFeed ∉ text := by simpa [writeItems_map] using ih
    simp [writeTree,apart,separated _ free]
  | @object members _ inside ih =>
    have apart : lineFeed ≠ openBrace ∧ lineFeed ≠ closeBrace ∧ lineFeed ≠ colon := by decide
    have free : ∀ text ∈ writeMembers members, lineFeed ∉ text := by
      intro text listed
      rw [writeMembers_map] at listed
      obtain ⟨member,inList,rfl⟩ := List.mem_map.mp listed
      simp [writeEntry,strings,apart,ih member inList]
    simp [writeTree,apart,separated _ free]

-- The bytes are UTF-8.
def Textual (bytes : List UInt8) : Prop := ∃ text, bytesOf text = bytes

theorem textual_append (left : Textual one) (right : Textual two) : Textual (one ++ two) := by
  obtain ⟨first,rfl⟩ := left
  obtain ⟨second,rfl⟩ := right
  exact ⟨first ++ second,bytes_append first second⟩

theorem bytesOf_ofList (chars : List Char) : bytesOf (String.ofList chars) = chars.flatMap String.utf8EncodeChar := by
  rw [bytesOf,String.toByteArray_ofList,List.utf8Encode,List.data_toByteArray]

theorem textual_ascii (small : bytes.all (· < 128)) : Textual bytes := by
  have ascii : ∀ byte ∈ bytes, byte < 128 := by simpa using small
  clear small
  have single : ∀ byte : UInt8, byte < 128 → String.utf8EncodeChar (Char.ofNat byte.toNat) = [byte] := by
    have all : ∀ n < 128, String.utf8EncodeChar (Char.ofNat n) = [UInt8.ofNat n] := by decide +kernel
    intro byte small
    simpa using all byte.toNat small
  refine ⟨String.ofList (bytes.map fun byte => Char.ofNat byte.toNat),?_⟩
  rw [bytesOf_ofList,List.flatMap_map]
  induction bytes with
  | nil => rfl
  | cons byte rest ih =>
    obtain ⟨first,behind⟩ := List.forall_mem_cons.mp ascii
    rw [List.flatMap_cons,single byte first,ih behind]
    rfl

-- A character is one byte of ASCII, or only bytes beyond.
theorem char_bytes (c : Char) : (∃ byte, byte < 128 ∧ String.utf8EncodeChar c = [byte]) ∨
    ∀ byte ∈ String.utf8EncodeChar c, 128 ≤ byte := by
  have beyond : ∀ n : Nat, 128 ≤ n % 256 → (128 : UInt8) ≤ UInt8.ofNat n := by
    intro n large
    rw [UInt8.le_iff_toNat_le,UInt8.toNat_ofNat']
    exact large
  by_cases small : c.val.toNat ≤ 0x7f
  · refine .inl ⟨UInt8.ofNat c.val.toNat,?_,if_pos small⟩
    rw [UInt8.lt_iff_toNat_lt,UInt8.toNat_ofNat']
    exact Nat.lt_of_le_of_lt (Nat.mod_le _ _) (Nat.lt_succ_of_le small)
  · right
    intro byte member
    simp only [String.utf8EncodeChar,small,if_false] at member
    split at member
    · simp only [List.mem_cons,List.not_mem_nil,or_false] at member
      rcases member with rfl | rfl <;> exact beyond _ (by omega)
    · split at member
      · simp only [List.mem_cons,List.not_mem_nil,or_false] at member
        rcases member with rfl | rfl | rfl <;> exact beyond _ (by omega)
      · simp only [List.mem_cons,List.not_mem_nil,or_false] at member
        rcases member with rfl | rfl | rfl | rfl <;> exact beyond _ (by omega)

theorem escape_ascii : ∀ byte : UInt8, (byte < 128 → ∀ out ∈ escapeByte byte, out < 128) ∧
    (128 ≤ byte → escapeByte byte = [byte]) := by
  have all : (List.range 256).all (fun n => let byte := UInt8.ofNat n
      if n < 128 then (escapeByte byte).all (· < 128) else escapeByte byte = [byte]) = true := by decide +kernel
  intro byte
  have one := List.all_eq_true.mp all byte.toNat (List.mem_range.mpr byte.toNat_lt)
  simp only [UInt8.ofNat_toNat] at one
  constructor
  · intro small
    rw [UInt8.lt_iff_toNat_lt] at small
    rw [if_pos (by exact small)] at one
    simpa using one
  · intro large
    rw [UInt8.le_iff_toNat_le] at large
    rw [if_neg (by exact Nat.not_lt.mpr large)] at one
    simpa using one

theorem escaped_textual (text : String) : Textual ((bytesOf text).flatMap escapeByte) := by
  have bytes := bytesOf_ofList text.toList
  rw [String.ofList_toList] at bytes
  rw [bytes,List.flatMap_assoc]
  induction text.toList with
  | nil => exact ⟨"",rfl⟩
  | cons c rest ih =>
    rw [List.flatMap_cons]
    refine textual_append ?_ ih
    rcases char_bytes c with ⟨byte,small,single⟩ | large
    · rw [single,List.flatMap_cons,List.flatMap_nil,List.append_nil]
      exact textual_ascii (by simpa using (escape_ascii byte).1 small)
    · have same : (String.utf8EncodeChar c).flatMap escapeByte = String.utf8EncodeChar c := by
        rw [List.flatMap_congr fun byte member => (escape_ascii byte).2 (large byte member)]
        exact List.flatMap_singleton' _
      rw [same]
      exact ⟨String.ofList [c],by rw [bytesOf_ofList]; simp⟩

theorem string_textual (text : String) : Textual (writeString text) := by
  have mark : Textual [quote] := textual_ascii (by decide)
  change Textual ([quote] ++ ((bytesOf text).flatMap escapeByte ++ [quote]))
  exact textual_append mark (textual_append (escaped_textual text) mark)

theorem integer_textual (value : Int) : Textual (writeInteger value) := by
  have digit : ∀ byte : UInt8, isDigit byte = true → byte < 128 := by
    intro byte digit
    simp only [isDigit,Bool.and_eq_true,decide_eq_true_eq,UInt8.le_iff_toNat_le] at digit
    rw [UInt8.lt_iff_toNat_lt]
    exact Nat.lt_of_le_of_lt digit.2 (by decide)
  have small : ∀ byte ∈ writeNat value.natAbs, byte < 128 := fun byte member => digit byte (writeNat_digits _ byte member).1
  refine textual_ascii (List.all_eq_true.mpr fun byte member => decide_eq_true ?_)
  revert byte
  unfold writeInteger
  split
  · exact List.forall_mem_cons.mpr ⟨by decide,small⟩
  · exact small

theorem commas_textual {texts : List (List UInt8)} (each : ∀ text ∈ texts, Textual text) : Textual (commas texts) := by
  have mark : Textual [comma] := textual_ascii (by decide)
  cases texts with
  | nil => exact ⟨"",rfl⟩
  | cons first rest =>
    obtain ⟨here,behind⟩ := List.forall_mem_cons.mp each
    refine textual_append here ?_
    clear each here
    induction rest with
    | nil => exact ⟨"",rfl⟩
    | cons text rest ih =>
      obtain ⟨next,more⟩ := List.forall_mem_cons.mp behind
      change Textual (([comma] ++ text) ++ rest.flatMap (comma :: ·))
      exact textual_append (textual_append mark next) (ih more)

theorem write_textual (fits : Fits depth tree) : Textual (writeTree tree) := by
  have around : ∀ {first last : UInt8} {inner : List UInt8}, first < 128 → last < 128 → Textual inner →
      Textual (first :: (inner ++ [last])) := by
    intro first last inner small below inside
    have single : ∀ {byte : UInt8}, byte < 128 → Textual [byte] := fun small => textual_ascii (by simpa using small)
    change Textual ([first] ++ (inner ++ [last]))
    exact textual_append (single small) (textual_append inside (single below))
  induction fits with
  | null => exact textual_ascii (by decide)
  | @bool _ value => cases value <;> exact textual_ascii (by decide)
  | integer => exact integer_textual _
  | string => exact string_textual _
  | @array items _ inside ih =>
    rw [writeTree,writeItems_map]
    exact around (by decide) (by decide) (commas_textual (by simpa using ih))
  | @object members _ inside ih =>
    rw [writeTree,writeMembers_map]
    refine around (by decide) (by decide) (commas_textual fun text listed => ?_)
    obtain ⟨member,inList,rfl⟩ := List.mem_map.mp listed
    have mark : Textual [colon] := textual_ascii (by decide)
    change Textual (writeString member.1 ++ ([colon] ++ writeTree member.2))
    exact textual_append (string_textual member.1) (textual_append mark (ih member inList))

theorem mapM_read {α β : Type} {decode : β → Option α} {encode : α → β} (values : List α)
    (each : ∀ value ∈ values, decode (encode value) = some value) : (values.map encode).mapM decode = some values := by
  induction values with
  | nil => rfl
  | cons value rest ih =>
    obtain ⟨first,behind⟩ := List.forall_mem_cons.mp each
    rw [List.map_cons,List.mapM_cons,first,ih behind]
    rfl

end Quire.JsonTree
