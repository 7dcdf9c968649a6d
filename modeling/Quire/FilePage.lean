import Quire.CharReferences
import Quire.LogFields
import Quire.RepoPaths

namespace Quire.FilePage
open Text TextLines TextReplace CharReferences Traced GitViews GitArguments LogFields

-- The characters html_escape replaces, and what a browser reads back.
def htmlReferences : List (Char × List Char) :=
  [('&',"&amp;".toList),('<',"&lt;".toList),('>',"&gt;".toList),('"',"&quot;".toList)]

theorem html_lawful : Lawful htmlReferences '&' where
  marked := by
    intro entry member
    simp only [htmlReferences,List.mem_cons,List.not_mem_nil,or_false] at member
    rcases member with rfl | rfl | rfl | rfl <;> exact ⟨_,rfl⟩
  escaped := ⟨('&',"&amp;".toList),by simp [htmlReferences],rfl⟩
  apart := by decide

theorem htmlEscape_chars (s : String) : (htmlEscape s).toList = escape htmlReferences s.toList := by
  have amp : "&".toList = ['&'] := rfl
  have less : "<".toList = ['<'] := rfl
  have greater : ">".toList = ['>'] := rfl
  have quote : "\"".toList = ['"'] := rfl
  simp only [htmlEscape,replace,String.toList_ofList,amp,less,greater,quote,replaceAll_single,List.flatMap_assoc]
  rw [escape]
  congr 1
  funext c
  by_cases isAmp : c = '&'
  · subst isAmp
    decide
  · by_cases isLess : c = '<'
    · subst isLess
      decide
    · by_cases isGreater : c = '>'
      · subst isGreater
        decide
      · by_cases isQuote : c = '"'
        · subst isQuote
          decide
        · have plain : htmlReferences.lookup c = none := by
            apply List.lookup_eq_none_iff.mpr
            simp [htmlReferences,isAmp,isLess,isGreater,isQuote]
          rw [reference,plain,if_neg isAmp,List.flatMap_singleton,if_neg isLess,List.flatMap_singleton,if_neg isGreater,
            List.flatMap_singleton,if_neg isQuote]
          rfl

theorem escape_newline : escape htmlReferences ['\n'] = ['\n'] := by decide

theorem code_chars (lines : List String) :
    (lines.map fun line => htmlEscape line ++ "\n").flatMap String.toList =
      escape htmlReferences (lines.flatMap fun line => line.toList ++ ['\n']) := by
  induction lines with
  | nil => rfl
  | cons line lines ih =>
    rw [List.map_cons,List.flatMap_cons,ih,List.flatMap_cons,escape_append,escape_append,escape_newline,String.toList_append,
      htmlEscape_chars]
    rfl

theorem htmlEscape_free (s : String) : '<' ∉ (htmlEscape s).toList ∧ '>' ∉ (htmlEscape s).toList ∧ '"' ∉ (htmlEscape s).toList := by
  have free := fun entry member spelled => escape_free html_lawful entry member spelled s.toList
  rw [htmlEscape_chars]
  refine ⟨?_,?_,?_⟩
  · exact free ('<',"&lt;".toList) (by decide) (by decide)
  · exact free ('>',"&gt;".toList) (by decide) (by decide)
  · exact free ('"',"&quot;".toList) (by decide) (by decide)

theorem htmlEscape_read (s : String) : decode htmlReferences (htmlEscape s).toList = s.toList := by
  rw [htmlEscape_chars,decode_escape html_lawful]

theorem htmlEscape_join (texts : List String) : join "\n" (texts.map htmlEscape) = htmlEscape (join "\n" texts) := by
  have plain : reference htmlReferences '\n' = ['\n'] := by decide
  have newline : "\n".toList = ['\n'] := rfl
  apply String.toList_inj.mp
  rw [htmlEscape_chars,RepoPaths.join_toList,RepoPaths.join_toList,newline,escape_intercalate plain,List.map_map,List.map_map]
  simp only [Function.comp_def,htmlEscape_chars]

theorem htmlEscape_terminated (texts : List String) :
    String.join (texts.map fun text => htmlEscape text ++ "\n") = htmlEscape (String.join (texts.map (· ++ "\n"))) := by
  apply String.toList_inj.mp
  rw [htmlEscape_chars,String.toList_join,String.toList_join,code_chars,List.flatMap_map]
  simp only [String.toList_append]
  rfl

-- Nothing in the result opens a tag or ends an attribute, and it is read back as it was.
theorem htmlEscape_inert (s : String) :
    ('<' ∉ (htmlEscape s).toList ∧ '>' ∉ (htmlEscape s).toList ∧ '"' ∉ (htmlEscape s).toList) ∧
    (∀ left right, (htmlEscape s).toList = left ++ '&' :: right → ∃ entry ∈ htmlReferences, entry.2 <+: '&' :: right) ∧
    decode htmlReferences (htmlEscape s).toList = s.toList ∧ (∀ other, htmlEscape other = htmlEscape s → other = s) ∧
    join "\n" ((split s '\n').map htmlEscape) = htmlEscape s ∧
    (∀ texts, join "\n" (texts.map htmlEscape) = htmlEscape (join "\n" texts)) ∧
    String.join ((lines s).map fun line => htmlEscape line ++ "\n") = htmlEscape (String.join ((lines s).map (· ++ "\n"))) := by
  refine ⟨htmlEscape_free s,?_,htmlEscape_read s,?_,?_,htmlEscape_join,htmlEscape_terminated (lines s)⟩
  · intro left right marked
    rw [htmlEscape_chars] at marked
    exact escape_marks html_lawful (by decide) s.toList left right marked
  · intro other same
    have chars := congrArg String.toList same
    rw [htmlEscape_chars,htmlEscape_chars] at chars
    exact String.toList_inj.mp (escape_injective html_lawful chars)
  · rw [htmlEscape_join,RepoPaths.join_pieces rfl]

-- What the template of the file page shows of the blob: the line numbers of the
-- gutter, the contents of the code element and the line ending of the sidebar.
structure FileView where
  lineNums : List Nat
  code : String
  lineEnding : String
  deriving DecidableEq, Repr

-- The file branch of `tree_or_file_at_path`.
def fileView (data : FileData) : FileView := ⟨List.range' 1 data.lineCount,String.ofList (data.lines.flatMap String.toList),data.lineEnding⟩

-- The code as a reader sees it, by its lines.
def FileView.shown (self : FileView) : List (List Char) := ((decode htmlReferences self.code.toList).splitOn '\n').dropLast

structure Shows (view : FileView) (blob : String) : Prop where
  lines : view.shown.map String.ofList = lines blob
  numbers : view.lineNums = List.range' 1 (Text.lines blob).length
  ending : view.lineEnding = "crlf" ↔ ['\r','\n'] <:+: blob.toList

-- No blank at the start, and at the end none but one newline or, where the file
-- has another of them, one carriage return and newline.
def Framed (blob : List Char) : Prop :=
  ∃ core tail, blob = core ++ tail ∧ core ≠ [] ∧ Solid core ∧
    (tail = [] ∨ tail = ['\n'] ∨ (tail = ['\r','\n'] ∧ ['\r','\n'] <:+: core))

-- What a browser reads in the code element.
theorem shown_code (git : Git) (path blob log raw : String) :
    decode htmlReferences (fileView (fileOf git path blob log raw)).code.toList =
      (linesFrom [] blob.toList).flatMap (· ++ ['\n']) := by
  have code : (fileView (fileOf git path blob log raw)).code.toList =
      escape htmlReferences ((linesFrom [] blob.toList).flatMap (· ++ ['\n'])) := by
    change (String.ofList (((lines blob).map fun line => htmlEscape line ++ "\n").flatMap String.toList)).toList = _
    rw [String.toList_ofList,code_chars,lines,List.flatMap_map]
    simp only [String.toList_ofList]
  rw [code,decode_escape html_lawful]

-- A browser that reads the page shows the lines it was made from.
theorem shown_lines (git : Git) (path blob log raw : String) :
    (fileView (fileOf git path blob log raw)).shown.map String.ofList = lines blob := by
  have free : ∀ text ∈ linesFrom [] blob.toList, '\n' ∉ text := linesFrom_clear List.not_mem_nil
  rw [FileView.shown,shown_code,splitOn_terminated _ free,List.dropLast_concat]
  rfl

section Framing
variable {blob : String}

theorem crlf_newline {core : List Char} (plain : core.getLast? ≠ some '\r') :
    ['\r','\n'] <:+: core ++ ['\n'] ↔ ['\r','\n'] <:+: core := by
  constructor
  · intro found
    rcases List.infix_concat_iff.mp found with ending | inside
    · obtain ⟨front,split⟩ := ending
      have same : front ++ ['\r'] = core := by
        have ended : front ++ ['\r'] ++ ['\n'] = core ++ ['\n'] := by rw [← split,List.append_assoc]; rfl
        exact List.append_cancel_right ended
      exact absurd (by rw [← same]; simp) plain
    · exact inside
  · intro inside
    exact inside.trans (List.prefix_append _ _).isInfix

theorem lines_inj {one two : String} : lines one = lines two ↔ linesFrom [] one.toList = linesFrom [] two.toList :=
  List.map_inj_right fun _ _ same => String.ofList_injective same

theorem solid_end {core : List Char} (solid : Solid core) : core.getLast? ≠ some '\r' := fun last =>
  absurd (solid.2 '\r' last) (by decide)

theorem framed_trim {core tail : List Char} (split : blob.toList = core ++ tail) (solid : Solid core)
    (ending : tail = [] ∨ tail = ['\n'] ∨ (tail = ['\r','\n'] ∧ ['\r','\n'] <:+: core)) : (trim blob).toList = core := by
  have blank : Blank tail := by
    rcases ending with rfl | rfl | ⟨rfl,_⟩
    · exact blank_nil
    · exact blank_newline
    · decide
  have around := trimChars_around blank_nil solid blank
  rw [trim,String.toList_ofList,split]
  exact around

-- The first line tells whether blanks have gone before it.
theorem nothing_before {left core tail : List Char} (blank : Blank left) (solid : Solid core) (some : core ≠ [])
    (same : linesFrom [] core = linesFrom [] (left ++ (core ++ tail))) : left = [] := by
  cases left with
  | nil => rfl
  | cons w left =>
    cases core with
    | nil => exact absurd rfl some
    | cons c rest =>
      have plain : isWhitespace c = false := solid.1 c rfl
      have newline : c ≠ '\n' := by
        rintro rfl
        cases plain
      have returned : c ≠ '\r' := by
        rintro rfl
        cases plain
      have start : [c].getLast? = Option.some c := rfl
      obtain ⟨line,more,read,first⟩ := first_line returned start rest
      have opened : linesFrom [] (c :: rest) = line :: more := by rw [linesFrom,if_neg newline,read]
      rw [opened] at same
      obtain ⟨behind,text⟩ := first_prefix same.symm
      cases line with
      | nil => cases first
      | cons d line =>
        cases first
        have heads := congrArg List.head? text
        have equal : c = w := Option.some.inj heads
        have white := blank w List.mem_cons_self
        rw [← equal,plain] at white
        cases white

theorem framed_of_lines (full : trim blob ≠ "") (same : lines (trim blob) = lines blob)
    (crlf : ['\r','\n'] <:+: (trim blob).toList ↔ ['\r','\n'] <:+: blob.toList) : Framed blob.toList := by
  obtain ⟨left,tail,split,before,solid,_⟩ := trimChars_split blob.toList
  have core : (trim blob).toList = trimChars blob.toList := String.toList_ofList
  have some : trimChars blob.toList ≠ [] := fun none => full (String.toList_eq_nil_iff.mp (core.trans none))
  rw [lines_inj,core] at same
  rw [core] at crlf
  generalize trimChars blob.toList = inner at *
  rw [split] at same crlf
  obtain rfl := nothing_before before solid some same
  rw [List.nil_append] at split same crlf
  refine ⟨inner,tail,split,some,solid,?_⟩
  rcases (linesFrom_tail solid some).mp same.symm with rfl | rfl | rfl
  · exact .inl rfl
  · exact .inr (.inl rfl)
  · exact .inr (.inr ⟨rfl,crlf.mpr (List.suffix_append _ _).isInfix⟩)

theorem lines_of_framed (framed : Framed blob.toList) : trim blob ≠ "" ∧ lines (trim blob) = lines blob ∧
    (['\r','\n'] <:+: (trim blob).toList ↔ ['\r','\n'] <:+: blob.toList) := by
  obtain ⟨core,tail,split,some,solid,ending⟩ := framed
  have trimmed := framed_trim split solid ending
  refine ⟨?_,?_,?_⟩
  · intro empty
    rw [empty] at trimmed
    exact some trimmed.symm
  · rw [lines_inj,trimmed,split]
    symm
    apply (linesFrom_tail solid some).mpr
    rcases ending with none | newline | ⟨crlf,_⟩
    · exact .inl none
    · exact .inr (.inl newline)
    · exact .inr (.inr crlf)
  · rw [trimmed,split]
    rcases ending with rfl | rfl | ⟨rfl,inside⟩
    · rw [List.append_nil]
    · exact (crlf_newline (solid_end solid)).symm
    · exact iff_of_true inside (List.suffix_append _ _).isInfix

-- What trimming leaves has the lines of the blob, and its kind of line ending,
-- where the blob is framed.
theorem framed_iff : (trim blob ≠ "" ∧ lines (trim blob) = lines blob ∧
      (['\r','\n'] <:+: (trim blob).toList ↔ ['\r','\n'] <:+: blob.toList)) ↔ Framed blob.toList := by
  constructor
  · rintro ⟨full,same,crlf⟩
    exact framed_of_lines full same crlf
  · exact lines_of_framed

end Framing

-- Where no tree is listed the answer is that of the file.
theorem file_answer (git : Git) (repo path : String) (notTree : answer git ["ls-tree",(lsTarget path).text] = none) :
    (treeOrFileAtPath git repo path).value = (readFileData git path).value.map TreePage.file := by
  have none := (readTreeData_none git path).mpr notTree
  rw [treeOrFileAtPath,bind_value,none]
  rfl

theorem shows_iff (git : Git) (path blob log : String) :
    Shows (fileView (fileOf git path (trim blob) log (trim blob))) blob ↔
      lines (trim blob) = lines blob ∧ (['\r','\n'] <:+: (trim blob).toList ↔ ['\r','\n'] <:+: blob.toList) := by
  have ending : (fileView (fileOf git path (trim blob) log (trim blob))).lineEnding = "crlf" ↔
      ['\r','\n'] <:+: (trim blob).toList := by
    have crlf : contains (trim blob) "\r\n" = true ↔ ['\r','\n'] <:+: (trim blob).toList := RepoPaths.contains_iff
    rw [← crlf]
    simp only [fileView,fileOf]
    split
    · rename_i found
      simp [found]
    · rename_i missed
      simp [missed]
  have shown := shown_lines git path (trim blob) log (trim blob)
  constructor
  · intro shows
    exact ⟨shown.symm.trans shows.lines,ending.symm.trans shows.ending⟩
  · rintro ⟨same,crlf⟩
    have numbers : (fileView (fileOf git path (trim blob) log (trim blob))).lineNums = List.range' 1 (lines blob).length := by
      simp only [fileView,fileOf,same]
    exact ⟨shown.trans same,numbers,ending.trans crlf⟩

def sampleGit (blob : String) : Git := fun args =>
  if args = ["show","HEAD:f"] ∨ args = ["cat-file","-p","HEAD:f"] then some blob
  else if args = ["log","-1","--format=%H|%s|%an|%cr","HEAD","--","f"] then some "1f2e|fix|Ann Lee|3 days ago\n"
  else none

end Quire.FilePage
