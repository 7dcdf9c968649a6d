import Mathlib.Data.List.Basic

namespace Quire.JsonText

-- A value that stands in an object: a string, an integer, or anything else.
inductive Json where
  | string (text : String)
  | integer (value : Int)
  | other (raw : List UInt8)
  deriving DecidableEq, Repr

abbrev Member := String × Json

-- The tokens of an implementation. `readValue` passes over white space, reads
-- the value at the front and leaves what follows it.
structure Tokens where
  writeString : String → List UInt8
  writeInteger : Int → List UInt8
  readValue : List UInt8 → Option (Json × List UInt8)

def openBrace : UInt8 := 123
def closeBrace : UInt8 := 125
def quote : UInt8 := 34
def colon : UInt8 := 58
def comma : UInt8 := 44
def lineFeed : UInt8 := 10

def isSpace (byte : UInt8) : Bool := byte = 32 || byte = 9 || byte = lineFeed || byte = 13

-- What may follow a member of an object in compact form.
inductive Ends : List UInt8 → Prop where
  | comma : Ends (comma :: rest)
  | brace : Ends (closeBrace :: rest)

-- A string reads back from its token wherever that stands, an integer where its
-- token ends, and no token holds a line feed.
structure Tokens.Lawful (tokens : Tokens) (fits : Int → Prop) : Prop where
  string : ∀ text rest, tokens.readValue (tokens.writeString text ++ rest) = some (.string text,rest)
  integer : ∀ value rest, fits value → Ends rest → tokens.readValue (tokens.writeInteger value ++ rest) = some (.integer value,rest)
  quoted : ∀ text, ∃ inner, tokens.writeString text = quote :: inner
  stringLine : ∀ text, lineFeed ∉ tokens.writeString text
  integerLine : ∀ value, lineFeed ∉ tokens.writeInteger value

def skip (bytes : List UInt8) : List UInt8 := bytes.dropWhile isSpace

section objects
variable (tokens : Tokens)

def writeValue : Json → List UInt8
  | .string text => tokens.writeString text
  | .integer value => tokens.writeInteger value
  | .other raw => raw

def writeMember (member : Member) : List UInt8 := tokens.writeString member.1 ++ colon :: writeValue tokens member.2

-- The compact form: a comma before every member but the first, and no space.
def writeObject : List Member → List UInt8
  | [] => [openBrace,closeBrace]
  | first :: rest =>
    openBrace :: (writeMember tokens first ++ (rest.flatMap fun member => comma :: writeMember tokens member) ++ [closeBrace])

def readMember (bytes : List UInt8) : Option (Member × List UInt8) :=
  match tokens.readValue bytes with
  | some (.string key,after) =>
    match skip after with
    | [] => none
    | mark :: rest =>
      if mark = colon then (tokens.readValue rest).map fun read => ((key,read.1),read.2)
      else none
  | _ => none

-- What stands after a member: the end of the object, or a comma and a member.
def readRest : Nat → List UInt8 → Option (List Member × List UInt8)
  | 0,_ => none
  | fuel+1,bytes =>
    match skip bytes with
    | [] => none
    | mark :: rest =>
      if mark = closeBrace then some ([],rest)
      else if mark = comma then
        (readMember tokens rest).bind fun read =>
          (readRest fuel read.2).map fun later => (read.1 :: later.1,later.2)
      else none

def readMembers (bytes : List UInt8) : Option (List Member × List UInt8) :=
  match skip bytes with
  | [] => none
  | mark :: rest =>
    if mark = closeBrace then some ([],rest)
    else (readMember tokens (mark :: rest)).bind fun read =>
      (readRest tokens (read.2.length + 1) read.2).map fun later => (read.1 :: later.1,later.2)

-- A whole text that is one object, and nothing but white space around it.
def readObject (bytes : List UInt8) : Option (List Member) :=
  match skip bytes with
  | [] => none
  | mark :: rest =>
    if mark = openBrace then
      match readMembers tokens rest with
      | some (members,after) => if skip after = [] then some members else none
      | none => none
    else none

end objects

def Writable (fits : Int → Prop) : Json → Prop
  | .string _ => True
  | .integer value => fits value
  | .other _ => False

variable {tokens : Tokens} {fits : Int → Prop}

@[simp] theorem skip_solid (solid : isSpace first = false) : skip (first :: rest) = first :: rest :=
  List.dropWhile_cons_of_neg (by simp [solid])

theorem writeValue_read (lawful : tokens.Lawful fits) (writable : Writable fits value) (ends : Ends rest) :
    tokens.readValue (writeValue tokens value ++ rest) = some (value,rest) := by
  cases value with
  | string text => exact lawful.string text rest
  | integer number => exact lawful.integer number rest writable ends
  | other raw => cases writable

theorem writeMember_read (lawful : tokens.Lawful fits) {member : Member} (writable : Writable fits member.2) (ends : Ends rest) :
    readMember tokens (writeMember tokens member ++ rest) = some (member,rest) := by
  have key := lawful.string member.1 (colon :: (writeValue tokens member.2 ++ rest))
  have split : writeMember tokens member ++ rest = tokens.writeString member.1 ++ colon :: (writeValue tokens member.2 ++ rest) := by
    simp [writeMember]
  have solid : isSpace colon = false := rfl
  rw [readMember,split,key]
  simp [solid,writeValue_read lawful writable ends]

theorem ends_members (tokens : Tokens) (members : List Member) (after : List UInt8) :
    Ends ((members.flatMap fun member => comma :: writeMember tokens member) ++ closeBrace :: after) := by
  cases members with
  | nil => exact .brace
  | cons member rest => exact .comma

theorem writeRest_read (lawful : tokens.Lawful fits) {members : List Member} (writable : ∀ member ∈ members, Writable fits member.2)
    (enough : members.length < fuel) (after : List UInt8) :
    readRest tokens fuel ((members.flatMap fun member => comma :: writeMember tokens member) ++ closeBrace :: after) =
      some (members,after) := by
  have solid : isSpace comma = false ∧ isSpace closeBrace = false ∧ comma ≠ closeBrace := by decide
  induction members generalizing fuel with
  | nil =>
    obtain ⟨fuel,rfl⟩ := Nat.exists_eq_add_one.mpr enough
    simp [readRest,solid]
  | cons member rest ih =>
    obtain ⟨fuel,rfl⟩ := Nat.exists_eq_add_one.mpr (Nat.zero_lt_of_lt enough)
    have later := ih (fun other listed => writable other (List.mem_cons_of_mem _ listed)) (Nat.lt_of_succ_lt_succ enough)
    have first := writeMember_read lawful (writable member List.mem_cons_self) (ends_members tokens rest after)
    simp [readRest,solid,first,later]

theorem members_length (tokens : Tokens) (members : List Member) :
    members.length ≤ (members.flatMap fun member => comma :: writeMember tokens member).length := by
  induction members with
  | nil => exact Nat.le_refl _
  | cons member rest ih =>
    simp only [List.flatMap_cons,List.length_append,List.length_cons]
    omega

-- An object reads back from its compact text.
theorem writeObject_read (lawful : tokens.Lawful fits) {members : List Member} (writable : ∀ member ∈ members, Writable fits member.2) :
    readObject tokens (writeObject tokens members) = some members := by
  have solid : isSpace openBrace = false ∧ isSpace closeBrace = false ∧ isSpace quote = false := by decide
  cases members with
  | nil => simp [readObject,readMembers,writeObject,solid,skip]
  | cons first rest =>
    have behind := fun member listed => writable member (List.mem_cons_of_mem first listed)
    obtain ⟨inner,quoted⟩ := lawful.quoted first.1
    have different : quote ≠ closeBrace := by decide
    let tail := (rest.flatMap fun member => comma :: writeMember tokens member) ++ [closeBrace]
    have enough : rest.length < tail.length + 1 := by
      have short := members_length tokens rest
      simp only [tail,List.length_append]
      omega
    obtain ⟨others,opens⟩ : ∃ others, writeMember tokens first ++ tail = quote :: others :=
      ⟨inner ++ colon :: writeValue tokens first.2 ++ tail,by simp [writeMember,quoted]⟩
    have head : readMember tokens (writeMember tokens first ++ tail) = some (first,tail) :=
      writeMember_read lawful (writable first List.mem_cons_self) (ends_members tokens rest [])
    have later : readRest tokens (tail.length + 1) tail = some (rest,[]) := writeRest_read lawful behind enough []
    have members : readMembers tokens (writeMember tokens first ++ tail) = some (first :: rest,[]) := by
      rw [opens] at head ⊢
      simp [readMembers,solid,different,head,later]
    have text : writeObject tokens (first :: rest) = openBrace :: (writeMember tokens first ++ tail) := by
      simp [writeObject,tail]
    rw [text,readObject,skip_solid solid.1]
    simp [members,skip]

theorem writeMember_line (lawful : tokens.Lawful fits) {member : Member} (writable : Writable fits member.2) :
    lineFeed ∉ writeMember tokens member := by
  have apart : lineFeed ≠ colon := by decide
  have value : lineFeed ∉ writeValue tokens member.2 := by
    cases stored : member.2 with
    | string text => exact lawful.stringLine text
    | integer number => exact lawful.integerLine number
    | other raw => rw [stored] at writable; cases writable
  simp [writeMember,lawful.stringLine,apart,value]

theorem writeObject_line (lawful : tokens.Lawful fits) {members : List Member} (writable : ∀ member ∈ members, Writable fits member.2) :
    lineFeed ∉ writeObject tokens members := by
  have apart : lineFeed ≠ openBrace ∧ lineFeed ≠ closeBrace ∧ lineFeed ≠ comma := by decide
  cases members with
  | nil => simp [writeObject,apart]
  | cons first rest =>
    have each := fun member listed => writeMember_line lawful (writable member listed)
    have behind : ∀ member ∈ rest, lineFeed ∉ writeMember tokens member := fun member listed => each member (List.mem_cons_of_mem _ listed)
    simp only [writeObject,List.mem_cons,List.mem_append,List.mem_flatMap,List.not_mem_nil,or_false,not_or,not_exists,not_and]
    exact ⟨apart.1,⟨each first List.mem_cons_self,fun member listed => ⟨apart.2.2,behind member listed⟩⟩,apart.2.1⟩

end Quire.JsonText
