import Mathlib.Data.Nat.Digits.Defs
import Mathlib.Tactic.IntervalCases
import Quire.JsonText

namespace Quire.JsonTokens
open JsonText

-- The escapes of one letter, each with the byte it stands for.
def letters : List (UInt8 × UInt8) := [(34,34),(92,92),(8,98),(12,102),(10,110),(13,114),(9,116)]

def backslash : UInt8 := 92
def unicode : UInt8 := 117
def zero : UInt8 := 48

def hexDigit (value : UInt8) : UInt8 := if value < 10 then zero + value else 87 + value

def unhex (digit : UInt8) : Option UInt8 :=
  if zero ≤ digit ∧ digit ≤ 57 then some (digit - zero) else if 97 ≤ digit ∧ digit ≤ 102 then some (digit - 87) else none

-- Only quotes, backslashes and control characters are escaped: the bytes of
-- other characters stand as they are.
def escapeByte (byte : UInt8) : List UInt8 :=
  match letters.lookup byte with
  | some letter => [backslash,letter]
  | none => if byte < 32 then [backslash,unicode,zero,zero,hexDigit (byte / 16),hexDigit (byte % 16)] else [byte]

def unescape (letter : UInt8) : Option UInt8 := (letters.map Prod.swap).lookup letter

def readUnicode : List UInt8 → Option (UInt8 × List UInt8)
  | first :: second :: high :: low :: rest =>
    if first = zero ∧ second = zero then
      (unhex high).bind fun high => (unhex low).map fun low => (16 * high + low,rest)
    else none
  | _ => none

def readByte : List UInt8 → Option (UInt8 × List UInt8)
  | [] => none
  | first :: rest =>
    if first = backslash then
      match rest with
      | [] => none
      | letter :: rest => if letter = unicode then readUnicode rest else (unescape letter).map fun byte => (byte,rest)
    else if first < 32 then none
    else some (first,rest)

-- What stands between the quotes.
def readBytes : Nat → List UInt8 → Option (List UInt8 × List UInt8)
  | 0,_ => none
  | _+1,[] => none
  | fuel+1,first :: rest =>
    if first = quote then some ([],rest)
    else (readByte (first :: rest)).bind fun read => (readBytes fuel read.2).map fun later => (read.1 :: later.1,later.2)

def bytesOf (text : String) : List UInt8 := text.toByteArray.data.toList

def textOf (bytes : List UInt8) : Option String := String.fromUTF8? ⟨bytes.toArray⟩

def writeString (text : String) : List UInt8 := quote :: ((bytesOf text).flatMap escapeByte ++ [quote])

theorem textOf_bytes (text : String) : textOf (bytesOf text) = some text := by
  have same : (⟨(bytesOf text).toArray⟩ : ByteArray) = text.toByteArray := by simp [bytesOf]
  rw [textOf,same,String.fromUTF8?,dif_pos text.isValidUTF8]
  rfl

theorem bytes_append (one two : String) : bytesOf (one ++ two) = bytesOf one ++ bytesOf two := by simp [bytesOf]

theorem bytes_empty : bytesOf "" = [] := rfl

theorem bytes_full {text : String} (full : text ≠ "") : bytesOf text ≠ [] := by
  intro empty
  have read := congrArg textOf empty
  rw [← bytes_empty,textOf_bytes,textOf_bytes] at read
  exact full (Option.some.inj read)

theorem bytes_of_text {bytes : List UInt8} {text : String} (read : textOf bytes = some text) : bytes = bytesOf text := by
  unfold textOf String.fromUTF8? at read
  split at read
  · cases read
    simp [bytesOf,String.fromUTF8]
  · cases read

theorem letters_read : ∀ entry ∈ letters, entry.2 ≠ unicode ∧ unescape entry.2 = some entry.1 := by
  have each : letters.all (fun entry => entry.2 ≠ unicode && unescape entry.2 = some entry.1) = true := by decide +kernel
  simpa using each

theorem hex_read {byte : UInt8} (control : byte < 32) :
    (unhex (hexDigit (byte / 16))).bind (fun high => (unhex (hexDigit (byte % 16))).map fun low => 16 * high + low) = some byte := by
  have below : byte.toNat < 32 := control
  have all : ∀ n < 32, (unhex (hexDigit (UInt8.ofNat n / 16))).bind
      (fun high => (unhex (hexDigit (UInt8.ofNat n % 16))).map fun low => 16 * high + low) = some (UInt8.ofNat n) := by decide +kernel
  simpa using all byte.toNat below

theorem escapeByte_read (byte : UInt8) (rest : List UInt8) : readByte (escapeByte byte ++ rest) = some (byte,rest) := by
  unfold escapeByte
  cases short : letters.lookup byte with
  | some letter =>
    obtain ⟨before,after,split,_⟩ := List.lookup_eq_some_iff.mp short
    obtain ⟨other,read⟩ := letters_read (byte,letter) (by rw [split]; simp)
    simp only at other read
    simp [readByte,other,read]
  | none =>
    by_cases control : byte < 32
    · have read := hex_read control
      obtain ⟨high,first,read⟩ := Option.bind_eq_some_iff.mp read
      obtain ⟨low,second,same⟩ := Option.map_eq_some_iff.mp read
      simp [control,readByte,readUnicode,first,second,same]
    · have plain : byte ≠ backslash := by
        intro same
        subst same
        cases short
      simp [control,readByte,plain]

theorem escapeByte_head (byte : UInt8) : ∃ first rest, escapeByte byte = first :: rest ∧ first ≠ quote := by
  unfold escapeByte
  have marked : backslash ≠ quote := by decide
  cases short : letters.lookup byte with
  | some letter => exact ⟨_,_,rfl,marked⟩
  | none =>
    by_cases control : byte < 32
    · exact ⟨_,_,if_pos control,marked⟩
    · refine ⟨byte,[],if_neg control,?_⟩
      intro same
      subst same
      cases short

theorem escaped_read (bytes rest : List UInt8) (enough : bytes.length < fuel) :
    readBytes fuel (bytes.flatMap escapeByte ++ quote :: rest) = some (bytes,rest) := by
  induction bytes generalizing fuel with
  | nil =>
    obtain ⟨fuel,rfl⟩ := Nat.exists_eq_add_one.mpr enough
    simp [readBytes]
  | cons byte more ih =>
    obtain ⟨fuel,rfl⟩ := Nat.exists_eq_add_one.mpr (Nat.zero_lt_of_lt enough)
    have later := ih (Nat.lt_of_succ_lt_succ enough)
    have read := escapeByte_read byte (more.flatMap escapeByte ++ quote :: rest)
    obtain ⟨first,tail,opens,other⟩ := escapeByte_head byte
    rw [opens,List.cons_append] at read
    rw [List.flatMap_cons,List.append_assoc,opens,List.cons_append,readBytes,if_neg other,read]
    simp [later]

theorem escapeByte_line (byte : UInt8) : lineFeed ∉ escapeByte byte := by
  have all : ∀ n < 256, lineFeed ∉ escapeByte (UInt8.ofNat n) := by decide +kernel
  simpa using all byte.toNat byte.toNat_lt

def minus : UInt8 := 45

def isDigit (byte : UInt8) : Bool := zero ≤ byte && byte ≤ 57

def writeNat (value : Nat) : List UInt8 :=
  if value = 0 then [zero] else (Nat.digits 10 value).reverse.map fun digit => zero + UInt8.ofNat digit

def writeInteger (value : Int) : List UInt8 :=
  if value < 0 then minus :: writeNat value.natAbs else writeNat value.natAbs

def natOf (digits : List UInt8) : Nat := Nat.ofDigits 10 (digits.reverse.map fun byte => (byte - zero).toNat)

-- A fraction or an exponent makes the number no integer.
def goesOn (after : List UInt8) : Bool :=
  match after with
  | [] => false
  | first :: _ => first = 46 || first = 101 || first = 69

def readNat (bytes : List UInt8) : Option (Nat × List UInt8) :=
  let digits := bytes.takeWhile isDigit
  let after := bytes.dropWhile isDigit
  if digits = [] || goesOn after then none else some (natOf digits,after)

def readInteger : List UInt8 → Option (Int × List UInt8)
  | [] => none
  | first :: rest =>
    if first = minus then (readNat rest).map fun read => (-(read.1 : Int),read.2)
    else (readNat (first :: rest)).map fun read => ((read.1 : Int),read.2)

theorem writeNat_digits (value : Nat) : ∀ byte ∈ writeNat value, isDigit byte = true ∧ byte ≠ minus ∧ byte ≠ lineFeed := by
  have all : ∀ digit < 10, isDigit (zero + UInt8.ofNat digit) = true ∧ zero + UInt8.ofNat digit ≠ minus ∧
      zero + UInt8.ofNat digit ≠ lineFeed := by decide
  unfold writeNat
  intro byte member
  split at member
  · rw [List.mem_singleton.mp member]
    decide
  · obtain ⟨digit,listed,rfl⟩ := List.mem_map.mp member
    exact all digit (Nat.digits_lt_base (by decide) (List.mem_reverse.mp listed))

theorem writeNat_full (value : Nat) : writeNat value ≠ [] := by
  unfold writeNat
  split
  · exact List.cons_ne_nil _ _
  · rename_i positive
    simpa [Nat.digits_eq_nil_iff_eq_zero] using positive

theorem natOf_write (value : Nat) : natOf (writeNat value) = value := by
  have all : ∀ digit < 10, (zero + UInt8.ofNat digit - zero).toNat = digit := by decide
  unfold writeNat natOf
  split
  · rename_i none
    rw [none]
    decide
  · have same : ((Nat.digits 10 value).map fun digit => (zero + UInt8.ofNat digit - zero).toNat) = Nat.digits 10 value := by
      refine (List.map_congr_left fun digit listed => ?_).trans (List.map_id _)
      exact all digit (Nat.digits_lt_base (by decide) listed)
    rw [← List.map_reverse,List.reverse_reverse,List.map_map]
    exact (congrArg (Nat.ofDigits 10) same).trans (Nat.ofDigits_digits 10 value)

theorem ends_stop (ends : Ends rest) : rest.takeWhile isDigit = [] ∧ rest.dropWhile isDigit = rest ∧ goesOn rest = false := by
  cases ends with
  | comma => exact ⟨rfl,rfl,rfl⟩
  | brace => exact ⟨rfl,rfl,rfl⟩

theorem readNat_write (value : Nat) (ends : Ends rest) : readNat (writeNat value ++ rest) = some (value,rest) := by
  obtain ⟨stop,after,goes⟩ := ends_stop ends
  have digits : ∀ byte ∈ writeNat value, isDigit byte = true := fun byte member => (writeNat_digits value byte member).1
  rw [readNat,List.takeWhile_append_of_pos digits,List.dropWhile_append_of_pos digits,stop,after,List.append_nil]
  simp [writeNat_full,goes,natOf_write]

theorem readInteger_write (value : Int) (ends : Ends rest) : readInteger (writeInteger value ++ rest) = some (value,rest) := by
  have read := readNat_write value.natAbs ends
  unfold writeInteger
  by_cases negative : value < 0
  · have back : -(value.natAbs : Int) = value := by omega
    rw [if_pos negative,List.cons_append,readInteger,if_pos rfl,read,Option.map_some,back]
  · have back : (value.natAbs : Int) = value := by omega
    rw [if_neg negative]
    cases written : writeNat value.natAbs with
    | nil => exact absurd written (writeNat_full _)
    | cons first more =>
      have other : first ≠ minus := (writeNat_digits value.natAbs first (by rw [written]; exact List.mem_cons_self)).2.1
      rw [written,List.cons_append] at read
      rw [List.cons_append,readInteger,if_neg other,read,Option.map_some,back]

def readValue (bytes : List UInt8) : Option (Json × List UInt8) :=
  match skip bytes with
  | [] => none
  | first :: rest =>
    if first = quote then
      (readBytes (rest.length + 1) rest).bind fun read => (textOf read.1).map fun text => (.string text,read.2)
    else (readInteger (first :: rest)).map fun read => (.integer read.1,read.2)

-- Strings and integers as JSON has them. Values of other kinds are not read.
def tokens : Tokens := ⟨writeString,writeInteger,readValue⟩

theorem escaped_length (bytes : List UInt8) : bytes.length ≤ (bytes.flatMap escapeByte).length := by
  induction bytes with
  | nil => exact Nat.le_refl _
  | cons byte rest ih =>
    obtain ⟨first,tail,opens,_⟩ := escapeByte_head byte
    simp only [List.flatMap_cons,List.length_append,List.length_cons,opens]
    omega

theorem writeString_read (text : String) (rest : List UInt8) : readValue (writeString text ++ rest) = some (.string text,rest) := by
  have solid : isSpace quote = false := rfl
  have enough : (bytesOf text).length < ((bytesOf text).flatMap escapeByte ++ quote :: rest).length + 1 := by
    have short := escaped_length (bytesOf text)
    rw [List.length_append]
    omega
  have read := escaped_read (bytesOf text) rest enough
  have split : writeString text ++ rest = quote :: ((bytesOf text).flatMap escapeByte ++ quote :: rest) := by
    simp [writeString]
  rw [readValue,split,skip_solid solid]
  simp only [if_pos,read]
  simp [textOf_bytes]

theorem writeInteger_head (value : Int) : ∃ first rest, writeInteger value = first :: rest ∧ isSpace first = false ∧ first ≠ quote := by
  have all : ∀ n < 256, isDigit (UInt8.ofNat n) = true → isSpace (UInt8.ofNat n) = false ∧ UInt8.ofNat n ≠ quote := by decide +kernel
  have digit : ∀ byte, isDigit byte = true → isSpace byte = false ∧ byte ≠ quote := by
    intro byte digit
    simpa using all byte.toNat byte.toNat_lt (by simpa using digit)
  unfold writeInteger
  split
  · exact ⟨minus,_,rfl,by decide⟩
  · cases written : writeNat value.natAbs with
    | nil => exact absurd written (writeNat_full _)
    | cons first rest => exact ⟨first,rest,rfl,digit first (writeNat_digits value.natAbs first (by rw [written]; exact List.mem_cons_self)).1⟩

theorem tokens_lawful (fits : Int → Prop) : tokens.Lawful fits where
  string := writeString_read
  integer := by
    intro value rest _ ends
    have read := readInteger_write value ends
    obtain ⟨first,more,opens,solid,other⟩ := writeInteger_head value
    change readValue (writeInteger value ++ rest) = _
    rw [opens,List.cons_append] at read ⊢
    rw [readValue,skip_solid solid]
    simp only [if_neg other,read]
    rfl
  quoted := fun text => ⟨_,rfl⟩
  stringLine := by
    intro text
    have apart : lineFeed ≠ quote := by decide
    simp [tokens,writeString,apart,escapeByte_line]
  integerLine := by
    intro value inside
    have apart : lineFeed ≠ minus := by decide
    have plain : lineFeed ∉ writeNat value.natAbs := fun member => (writeNat_digits value.natAbs _ member).2.2 rfl
    change lineFeed ∈ writeInteger value at inside
    unfold writeInteger at inside
    split at inside
    · exact (List.mem_cons.mp inside).elim apart plain
    · exact plain inside

end Quire.JsonTokens
