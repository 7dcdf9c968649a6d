import Quire.TextReplace

namespace Quire.Text
open TextReplace

-- str::replace with a non-empty pattern
def replace (s value replacement : String) : String :=
  String.ofList (replaceAll value.toList replacement.toList s.toList)

-- str::contains
def contains (s needle : String) : Bool := (suffixes s.toList).any needle.toList.isPrefixOf

-- char::is_whitespace, the Unicode property White_Space.
def isWhitespace (c : Char) : Bool :=
  let n := c.toNat
  (9 ≤ n && n ≤ 13) || n == 32 || n == 0x85 || n == 0xA0 || n == 0x1680 || (0x2000 ≤ n && n ≤ 0x200A) ||
    n == 0x2028 || n == 0x2029 || n == 0x202F || n == 0x205F || n == 0x3000

def trimChars (s : List Char) : List Char :=
  ((s.dropWhile isWhitespace).reverse.dropWhile isWhitespace).reverse

-- str::trim
def trim (s : String) : String := String.ofList (trimChars s.toList)

-- What str::lines takes off a line that a newline ended.
def stripReturn (reversed : List Char) : List Char :=
  match reversed with
  | '\r' :: rest => rest.reverse
  | _ => reversed.reverse

def linesFrom (reversed : List Char) : List Char → List (List Char)
  | [] => if reversed.isEmpty then [] else [reversed.reverse]
  | c :: rest => if c = '\n' then stripReturn reversed :: linesFrom [] rest else linesFrom (c :: reversed) rest

-- str::lines
def lines (s : String) : List String := (linesFrom [] s.toList).map String.ofList

def wordsFrom (reversed : List Char) : List Char → List (List Char)
  | [] => if reversed.isEmpty then [] else [reversed.reverse]
  | c :: rest =>
    if isWhitespace c then
      if reversed.isEmpty then wordsFrom [] rest else reversed.reverse :: wordsFrom [] rest
    else wordsFrom (c :: reversed) rest

-- str::split_whitespace
def splitWhitespace (s : String) : List String := (wordsFrom [] s.toList).map String.ofList

def splitnChars (separator : Char) : Nat → List Char → List (List Char)
  | 0,_ => []
  | 1,s => [s]
  | n + 2,s =>
    match s.span (fun c => c != separator) with
    | (piece,[]) => [piece]
    | (piece,_ :: rest) => piece :: splitnChars separator (n + 1) rest

-- str::splitn with a character
def splitn (s : String) (n : Nat) (separator : Char) : List String :=
  (splitnChars separator n s.toList).map String.ofList

-- str::split with a character
def split (s : String) (separator : Char) : List String := (s.toList.splitOn separator).map String.ofList

-- str::split_once with a character
def splitOnce (s : String) (separator : Char) : Option (String × String) :=
  match s.toList.span (fun c => c != separator) with
  | (_,[]) => none
  | (front,_ :: rest) => some (String.ofList front,String.ofList rest)

-- str::strip_prefix
def stripPrefix (s start : String) : Option String :=
  if start.toList.isPrefixOf s.toList then some (String.ofList (s.toList.drop start.length)) else none

-- str::trim_start_matches with a character
def trimStartMatches (s : String) (leading : Char) : String := String.ofList (s.toList.dropWhile (· = leading))

def endsWith (s ending : String) : Bool := ending.toList.isSuffixOf s.toList

def trimEndMatchesChars (ending : List Char) : Nat → List Char → List Char
  | 0,reversed => reversed
  | fuel + 1,reversed =>
    if ending.isPrefixOf reversed then trimEndMatchesChars ending fuel (reversed.drop ending.length) else reversed

-- str::trim_end_matches with a non-empty string; every round takes a character.
def trimEndMatches (s ending : String) : String :=
  String.ofList (trimEndMatchesChars ending.toList.reverse s.length s.toList.reverse).reverse

def digits (s : List Char) : Option Nat :=
  if s ≠ [] ∧ s.all Char.isDigit then some (s.foldl (fun n c => 10 * n + (c.toNat - 48)) 0) else none

def u64Max : Nat := 18446744073709551615
def i64Min : Int := -9223372036854775808
def i64Max : Int := 9223372036854775807

-- str::parse::<u64>
def parseU64 (s : String) : Option Nat :=
  (match s.toList with
    | '+' :: rest => digits rest
    | all => digits all).filter (· ≤ u64Max)

-- str::parse::<i64>
def parseI64 (s : String) : Option Int :=
  (match s.toList with
    | '-' :: rest => (digits rest).map fun n => -(n : Int)
    | '+' :: rest => (digits rest).map fun n => (n : Int)
    | all => (digits all).map fun n => (n : Int)).filter fun n => decide (i64Min ≤ n ∧ n ≤ i64Max)

def join (separator : String) : List String → String
  | [] => ""
  | [last] => last
  | first :: rest => first ++ separator ++ join separator rest

theorem linesFrom_within (chars reversed : List Char) :
    ∀ line ∈ linesFrom reversed chars, line <:+: reversed.reverse ++ chars := by
  induction chars generalizing reversed with
  | nil =>
    intro line member
    unfold linesFrom at member
    split at member
    · cases member
    · obtain rfl := List.mem_singleton.mp member
      exact (List.prefix_append _ _).isInfix
  | cons c rest ih =>
    intro line member
    unfold linesFrom at member
    split at member
    · rcases List.mem_cons.mp member with rfl | later
      · have front : stripReturn reversed <+: reversed.reverse := by
          unfold stripReturn
          split
          · rw [List.reverse_cons]
            exact List.prefix_append _ _
          · exact List.prefix_refl _
        exact front.isInfix.trans (List.prefix_append _ _).isInfix
      · have inner : line <:+: rest := ih [] line later
        exact inner.trans (List.suffix_append_of_suffix (List.suffix_cons c rest)).isInfix
    · have inner := ih (c :: reversed) line member
      rwa [List.reverse_cons,List.append_assoc,List.singleton_append] at inner

-- Lines that a newline has ended do not depend on what follows it.
theorem linesFrom_append (reversed left right : List Char) :
    linesFrom reversed (left ++ '\n' :: right) = linesFrom reversed (left ++ ['\n']) ++ linesFrom [] right := by
  induction left generalizing reversed with
  | nil => simp [linesFrom]
  | cons c rest ih =>
    simp only [List.cons_append,linesFrom]
    split
    · rw [ih,List.cons_append]
    · exact ih _

theorem lines_append (left right : String) : lines (left ++ "\n" ++ right) = lines (left ++ "\n") ++ lines right := by
  have split := linesFrom_append [] left.toList right.toList
  simp only [lines,String.toList_append,← List.map_append,List.append_assoc]
  exact congrArg _ split

theorem linesFrom_single (reversed : List Char) (free : '\n' ∉ left) :
    linesFrom reversed (left ++ ['\n']) = [stripReturn (left.reverse ++ reversed)] := by
  induction left generalizing reversed with
  | nil => simp [linesFrom]
  | cons c rest ih =>
    rw [List.mem_cons,not_or] at free
    obtain ⟨other,later⟩ := free
    rw [List.cons_append,linesFrom,if_neg (Ne.symm other),ih _ later,List.reverse_cons,List.append_assoc,List.singleton_append]

theorem lines_single (free : '\n' ∉ String.toList line) :
    lines (line ++ "\n") = [String.ofList (stripReturn line.toList.reverse)] := by
  have single := linesFrom_single [] free
  rw [List.append_nil] at single
  simp only [lines,String.toList_append]
  exact congrArg _ single

theorem lines_within (s : String) : ∀ line ∈ lines s, line.toList <:+: s.toList := by
  intro line member
  obtain ⟨chars,inside,rfl⟩ := List.mem_map.mp member
  rw [String.toList_ofList]
  exact linesFrom_within s.toList [] chars inside

end Quire.Text
