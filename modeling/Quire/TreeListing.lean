import Quire.CommitPage
import Quire.GitQuoting

namespace Quire.TreeListing
open Text TextLines JsonTokens UrlPath GitQuoting GitViews LogFields CommitPage

-- Any bytes that are valid UTF-8 but a slash and NUL.
structure FileName where
  text : String
  full : text ≠ ""
  free : 47 ∉ bytesOf text ∧ 0 ∉ bytesOf text

structure ListedEntry where
  mode : String
  objType : String
  object : String
  name : FileName
  words : NoBlank mode ∧ NoBlank objType ∧ NoBlank object

def ListedEntry.line (self : ListedEntry) : String :=
  self.mode ++ " " ++ self.objType ++ " " ++ self.object ++ "\t" ++ quoteName self.name.text

-- What `git ls-tree` prints.
def lsTree (listing : List ListedEntry) : String := terminated (listing.map ListedEntry.line)

-- The entries as `read_tree_data` collects them, before it sorts them.
def rows (lsOut : String) : List (TreeEntryKind × String) := (lines lsOut).filterMap treeLine

theorem char_byte {c : Char} {s : String} (ascii : c.toNat < 128) (member : c ∈ s.toList) : UInt8.ofNat c.toNat ∈ bytesOf s := by
  obtain ⟨left,right,split⟩ := List.append_of_mem member
  have text : s = String.ofList left ++ (String.singleton c ++ String.ofList right) := String.toList_inj.mp (by simp [split])
  have byte := ascii_byte c.toNat ascii
  rw [Char.ofNat_toNat] at byte
  rw [text,bytes_append,bytes_append,byte]
  simp

-- A name is quoted, or nothing in it is unusual.
theorem quoteName_cases (name : String) : (∃ b ∈ bytesOf name, unusual b = true) ∨ ∀ b ∈ bytesOf name, unusual b = false := by
  by_cases odd : ∃ b ∈ bytesOf name, unusual b = true
  · exact .inl odd
  · exact .inr fun b listed => Bool.eq_false_iff.mpr fun found => odd ⟨b,listed,found⟩

-- Controls are printed as their escapes.
theorem quoteName_control {c : Char} (low : c.toNat < 32) (name : String) : c ∉ (quoteName name).toList := by
  have controls : ∀ n < 32, ¬ 32 ≤ UInt8.ofNat n ∧ unusual (UInt8.ofNat n) = true := by decide
  obtain ⟨small,strange⟩ := controls c.toNat low
  intro member
  have byte := char_byte (by omega) member
  rcases quoteName_cases name with odd | usual
  · rw [quoteName_bytes odd] at byte
    exact small (quotedBytes_printed _ _ byte).1
  · rw [quoteName_usual usual] at byte
    rw [usual _ byte] at strange
    cases strange

theorem quoteName_full (name : FileName) : (quoteName name.text).toList ≠ [] := by
  intro empty
  have none : quoteName name.text = "" := String.toList_eq_nil_iff.mp empty
  rcases quoteName_cases name.text with odd | usual
  · have bytes := quoteName_bytes odd
    rw [none,bytes_empty] at bytes
    cases bytes
  · rw [quoteName_usual usual] at none
    exact name.full none

-- A quoted name ends in its quote.
theorem quoteName_quoted {name : String} (odd : ∃ b ∈ bytesOf name, unusual b = true) :
    ∀ c ∈ (quoteName name).toList.getLast?, isWhitespace c = false := by
  intro c last
  rw [quoteName,if_pos (List.any_eq_true.mpr odd),String.toList_ofList,quotedBytes,List.map_append,List.map_singleton,
    List.getLast?_concat] at last
  cases last
  decide

theorem quoteName_solid {name : String} (usual : ∀ b ∈ bytesOf name, unusual b = false)
    (ending : ∀ b ∈ (bytesOf name).getLast?, c0Space b = false) : ∀ c ∈ (quoteName name).toList.getLast?, isWhitespace c = false := by
  intro c last
  rw [quoteName_usual usual,ascii_chars fun b member => (usual_ascii (usual b member)).2,List.getLast?_map] at last
  obtain ⟨b,final,rfl⟩ := Option.map_eq_some_iff.mp last
  have solid := every_byte (fun b => unusual b || c0Space b || !isWhitespace (Char.ofNat b.toNat)) (by decide +kernel) b
  rw [usual b (List.mem_of_getLast? final),ending b final] at solid
  simpa using solid

section Lines
variable (self : ListedEntry)

def fields : List Char := (self.mode ++ " " ++ self.objType ++ " " ++ self.object).toList

theorem line_chars : self.line.toList = fields self ++ '\t' :: (quoteName self.name.text).toList := by
  simp [ListedEntry.line,fields]

theorem line_last : self.line.toList.getLast? = (quoteName self.name.text).toList.getLast? := by
  have front : self.line.toList = (fields self ++ ['\t']) ++ (quoteName self.name.text).toList := by simp [line_chars]
  rw [front,List.getLast?_append_of_ne_nil _ (quoteName_full self.name)]

theorem fields_plain : '\t' ∉ fields self ∧ '\n' ∉ fields self := by
  obtain ⟨⟨_,mode⟩,⟨_,objType⟩,_,object⟩ := self.words
  have free : ∀ c, isWhitespace c = true → c ≠ ' ' → c ∉ fields self := by
    intro c blank other member
    simp only [fields,String.toList_append,List.mem_append] at member
    rcases member with (((inside | space) | inside) | space) | inside
    · rw [mode c inside] at blank; cases blank
    · exact other (List.mem_singleton.mp space)
    · rw [objType c inside] at blank; cases blank
    · exact other (List.mem_singleton.mp space)
    · rw [object c inside] at blank; cases blank
  exact ⟨free '\t' (by decide) (by decide),free '\n' (by decide) (by decide)⟩

theorem line_read : ∃ kind, treeLine self.line = some (kind,quoteName self.name.text) := by
  have shape : self.line.toList = (String.ofList (fields self)).toList ++ '\t' :: (quoteName self.name.text).toList := by
    rw [line_chars,String.toList_ofList]
  have cut := splitOnce_field shape (by rw [String.toList_ofList]; exact (fields_plain self).1)
  rw [String.ofList_toList] at cut
  rw [treeLine,cut,Option.map_some]
  dsimp only
  split
  · exact ⟨_,rfl⟩
  · split <;> exact ⟨_,rfl⟩

theorem line_single : '\n' ∉ self.line.toList ∧ chomp self.line.toList = self.line.toList := by
  constructor
  · simp [line_chars,(fields_plain self).2,quoteName_control (c := '\n') (by decide) self.name.text]
  · rw [chomp_eq,line_last]
    intro last
    exact quoteName_control (c := '\r') (by decide) self.name.text (List.mem_of_getLast? last)

theorem line_start : ∀ c ∈ self.line.toList.head?, isWhitespace c = false := by
  intro c first
  obtain ⟨⟨some,mode⟩,_⟩ := self.words
  have full : self.mode.toList ≠ [] := fun empty => some (String.toList_eq_nil_iff.mp empty)
  have shape : self.line.toList = self.mode.toList ++
      (' ' :: (self.objType.toList ++ ' ' :: (self.object.toList ++ '\t' :: (quoteName self.name.text).toList))) := by
    simp [line_chars,fields]
  rw [shape,List.head?_append_of_ne_nil _ full] at first
  exact mode c (List.mem_of_mem_head? first)

end Lines

def texts (listing : List ListedEntry) : List (List Char) := listing.map fun entry => entry.line.toList

theorem line_full (entry : ListedEntry) : entry.line.toList ≠ [] := by
  rw [line_chars]
  exact List.append_ne_nil_of_right_ne_nil _ (List.cons_ne_nil _ _)

theorem lines_solid (before : List ListedEntry) (entry : ListedEntry)
    (solid : ∀ c ∈ (quoteName entry.name.text).toList.getLast?, isWhitespace c = false) :
    Solid ((texts before).flatMap (· ++ ['\n']) ++ entry.line.toList) := by
  constructor
  · cases before with
    | nil =>
      rw [texts,List.map_nil,List.flatMap_nil,List.nil_append]
      exact line_start entry
    | cons first before =>
      intro c head
      rw [texts,List.map_cons,List.flatMap_cons,List.append_assoc,List.append_assoc,List.head?_append_of_ne_nil _ (line_full first)] at head
      exact line_start first c head
  · rw [List.getLast?_append_of_ne_nil _ (line_full entry),line_last]
    exact solid

theorem lines_listed (before after : List ListedEntry) (entry : ListedEntry)
    (solid : ∀ c ∈ (quoteName entry.name.text).toList.getLast?, isWhitespace c = false) :
    ∃ others, lines (trim (lsTree (before ++ entry :: after))) = before.map ListedEntry.line ++ entry.line :: others := by
  have text : (lsTree (before ++ entry :: after)).toList =
      (texts before).flatMap (· ++ ['\n']) ++ entry.line.toList ++ '\n' :: (texts after).flatMap (· ++ ['\n']) := by
    simp [lsTree,terminated,texts,List.flatMap_map]
  have full : (texts before).flatMap (· ++ ['\n']) ++ entry.line.toList ≠ [] :=
    List.append_ne_nil_of_right_ne_nil _ (line_full entry)
  obtain ⟨kept,start,trimmed⟩ := trimChars_front (lines_solid before entry solid) full ('\n' :: (texts after).flatMap (· ++ ['\n']))
  have single : ∀ chars ∈ texts before, '\n' ∉ chars := by
    intro chars member
    obtain ⟨other,_,rfl⟩ := List.mem_map.mp member
    exact (line_single other).1
  have chomped : (texts before).map chomp = texts before := by
    rw [texts,List.map_map]
    exact List.map_congr_left fun other _ => (line_single other).2
  -- behind the entry's line there is nothing or a newline
  have last : ∃ others, linesFrom [] (entry.line.toList ++ kept) = entry.line.toList :: others := by
    cases kept with
    | nil =>
      have alone : linesFrom [] entry.line.toList = [[].reverse ++ entry.line.toList] :=
        linesFrom_free (line_single entry).1 (by simpa using line_full entry)
      exact ⟨[],by rw [List.append_nil]; exact alone⟩
    | cons c kept =>
      obtain ⟨rfl,_⟩ := List.cons_prefix_cons.mp start
      exact ⟨_,by rw [linesFrom_line (line_single entry).1,(line_single entry).2]⟩
  obtain ⟨others,behind⟩ := last
  refine ⟨others.map String.ofList,?_⟩
  rw [lines,trim,String.toList_ofList,text,trimmed,List.append_assoc,linesFrom_framed _ single,chomped,behind,List.map_append,
    List.map_cons,String.ofList_toList,texts,List.map_map]
  simp [Function.comp_def]

theorem rows_front (before : List ListedEntry) : ((before.map ListedEntry.line).filterMap treeLine).length = before.length := by
  induction before with
  | nil => rfl
  | cons entry before ih =>
    obtain ⟨kind,read⟩ := line_read entry
    rw [List.map_cons,List.filterMap_cons_some read,List.length_cons,ih,List.length_cons]

-- The row of an entry whose name ends in no blank: only the end of the output is trimmed.
theorem rows_listed (before after : List ListedEntry) (entry : ListedEntry)
    (solid : ∀ c ∈ (quoteName entry.name.text).toList.getLast?, isWhitespace c = false) :
    ∃ kind, (rows (trim (lsTree (before ++ entry :: after))))[before.length]? = some (kind,quoteName entry.name.text) := by
  obtain ⟨others,shape⟩ := lines_listed before after entry solid
  obtain ⟨kind,read⟩ := line_read entry
  refine ⟨kind,?_⟩
  rw [rows,shape,List.filterMap_append,List.filterMap_cons_some read,List.getElem?_append_right (Nat.le_of_eq (rows_front before)),
    rows_front,Nat.sub_self]
  rfl

end Quire.TreeListing
