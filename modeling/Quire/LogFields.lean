import Quire.GitArguments
import Quire.TextLines

namespace Quire.LogFields
open Text TextLines Traced GitViews GitArguments

-- What git prints of a commit for %H, %s, %an and %cr. The subject and the
-- author are any single lines; hashes and relative ages have no bar in them.
structure Printed where
  sha : String
  subject : String
  author : String
  age : String
  hash : sha ≠ "" ∧ ∀ c ∈ sha.toList, c ≠ '|' ∧ isWhitespace c = false
  single : '\n' ∉ subject.toList ∧ '\n' ∉ author.toList
  relative : age ≠ "" ∧ Solid age.toList ∧ '|' ∉ age.toList ∧ '\n' ∉ age.toList

-- The lines git prints for the formats of the three parsers.
def Printed.recentLine (self : Printed) : String := self.sha ++ "|" ++ self.subject ++ "|" ++ self.age
def Printed.entryLine (self : Printed) : String := self.subject ++ "|" ++ self.age
def Printed.fileLine (self : Printed) : String := self.sha ++ "|" ++ self.subject ++ "|" ++ self.author ++ "|" ++ self.age

def terminated (texts : List String) : String := String.ofList (texts.flatMap fun text => text.toList ++ ['\n'])

def trimStart (s : String) : String := String.ofList (s.toList.dropWhile isWhitespace)

def Bare (field : String) : Prop := '|' ∉ field.toList

instance : DecidablePred Bare := fun field => inferInstanceAs (Decidable ('|' ∉ field.toList))

-- The entries of a tree as `readTreeData` goes through them.
def listing (lsOut : String) : List (TreeEntryKind × String) := ((lines lsOut).filterMap treeLine).insertionSort entryOrder

def entryPath (path name : String) : String := if path = "" then name else path ++ "/" ++ name

variable {git : Git}

-- The piece before the first bar is the field if the field has none.
theorem field_read (n : Nat) (field rest : List Char) :
    ∃ front behind, splitnChars '|' (n + 2) (field ++ '|' :: rest) = front :: splitnChars '|' (n + 1) behind ∧
      '|' ∉ front ∧ ('|' ∉ field → front = field ∧ behind = rest) := by
  by_cases inside : '|' ∈ field
  · have some : '|' ∈ field ++ '|' :: rest := by simp
    obtain ⟨front,behind,_,free,split⟩ := splitnChars_first some n
    exact ⟨front,behind,split,free,fun none => absurd inside none⟩
  · exact ⟨field,rest,splitnChars_field inside n rest,inside,fun _ => ⟨rfl,rfl⟩⟩

theorem hash_bare (commit : Printed) : '|' ∉ commit.sha.toList := fun inside => (commit.hash.2 '|' inside).1 rfl

theorem ofList_eq {chars : List Char} {s : String} : String.ofList chars = s ↔ chars = s.toList := by
  rw [← String.toList_inj,String.toList_ofList]

theorem recentLine_chars (commit : Printed) :
    commit.recentLine.toList = commit.sha.toList ++ '|' :: (commit.subject.toList ++ '|' :: commit.age.toList) := by
  simp [Printed.recentLine]

theorem fileLine_chars (commit : Printed) :
    commit.fileLine.toList =
      commit.sha.toList ++ '|' :: (commit.subject.toList ++ '|' :: (commit.author.toList ++ '|' :: commit.age.toList)) := by
  simp [Printed.fileLine]

def rowFields (row : ChangeRow) : String × String × String := (row.id.sha,row.description,row.age)

theorem changeRow_fields (repo : String) (commit : Printed) :
    rowFields (changeRow git repo commit.recentLine).value = (commit.sha,commit.subject,commit.age) ↔
      Bare commit.subject := by
  obtain ⟨front,behind,split,free,whole⟩ := field_read 0 commit.subject.toList commit.age.toList
  have parts : splitn commit.recentLine 3 '|' = [commit.sha,String.ofList front,String.ofList behind] := by
    rw [splitn,recentLine_chars,splitnChars_field (hash_bare commit),split]
    simp [splitnChars]
  have row : rowFields (changeRow git repo commit.recentLine).value = (commit.sha,String.ofList front,String.ofList behind) := by
    simp [rowFields,changeRow,parts]
  rw [row,Prod.mk.injEq,Prod.mk.injEq,ofList_eq,ofList_eq]
  constructor
  · rintro ⟨_,same,_⟩
    rw [Bare,← same]
    exact free
  · intro bare
    exact ⟨rfl,whole bare⟩

-- The bar keeps the blanks after it; those before the subject go.
theorem entryLine_trimmed (commit : Printed) :
    (trim commit.entryLine).toList = commit.subject.toList.dropWhile isWhitespace ++ '|' :: commit.age.toList := by
  obtain ⟨full,⟨_,ending⟩,_⟩ := commit.relative
  have text : commit.entryLine.toList = commit.subject.toList ++ '|' :: commit.age.toList := by simp [Printed.entryLine]
  have last : ∀ c ∈ (commit.subject.toList.dropWhile isWhitespace ++ '|' :: commit.age.toList).reverse.head?,
      isWhitespace c = false := by
    have nonempty : commit.age.toList ≠ [] := fun empty => full (String.toList_eq_nil_iff.mp empty)
    rw [List.head?_reverse,List.getLast?_append_of_ne_nil _ (List.cons_ne_nil _ _),List.getLast?_cons_of_ne_nil nonempty]
    exact ending
  rw [trim,String.toList_ofList,text,trimChars,dropWhile_stop (by decide),dropWhile_solid last,List.reverse_reverse]

theorem trimStart_bare (s : String) : Bare (trimStart s) ↔ Bare s := by
  have opened := List.takeWhile_append_dropWhile (p := isWhitespace) (l := s.toList)
  have blanks : '|' ∉ s.toList.takeWhile isWhitespace := fun inside => absurd (List.mem_takeWhile_imp inside) (by decide)
  have split : '|' ∈ s.toList ↔ '|' ∈ s.toList.dropWhile isWhitespace := by
    constructor
    · intro inside
      rw [← opened] at inside
      exact (List.mem_append.mp inside).resolve_left blanks
    · intro inside
      exact (List.dropWhile_suffix isWhitespace).subset inside
  rw [Bare,Bare,trimStart,String.toList_ofList,split]

theorem lastCommit_fields (commit : Printed) :
    lastCommit (trim commit.entryLine) = some (trimStart commit.subject,commit.age) ↔ Bare commit.subject := by
  obtain ⟨front,behind,split,free,whole⟩ := field_read 0 (commit.subject.toList.dropWhile isWhitespace) commit.age.toList
  have parts : splitn (trim commit.entryLine) 2 '|' = [String.ofList front,String.ofList behind] := by
    rw [splitn,entryLine_trimmed,split]
    rfl
  rw [lastCommit,parts,← trimStart_bare]
  simp only [Option.some.injEq,Prod.mk.injEq,ofList_eq]
  constructor
  · rintro ⟨same,_⟩
    rw [Bare,← same]
    exact free
  · intro bare
    rw [Bare,trimStart,String.toList_ofList] at bare
    rw [trimStart,String.toList_ofList]
    exact whole bare

def fileFields (data : FileData) : String × String × String × String :=
  (data.lastChange.sha,data.lastChangeMsg,data.lastChangeAuthor,data.lastChangeAge)

theorem fileLine_fields (commit : Printed) :
    (splitn commit.fileLine 4 '|').headD "" = commit.sha ∧
      (((splitn commit.fileLine 4 '|').getD 1 "",(splitn commit.fileLine 4 '|').getD 2 "",(splitn commit.fileLine 4 '|').getD 3 "") =
        (commit.subject,commit.author,commit.age) ↔ Bare commit.subject ∧ Bare commit.author) := by
  obtain ⟨front,behind,split,free,whole⟩ :=
    field_read 1 commit.subject.toList (commit.author.toList ++ '|' :: commit.age.toList)
  have parts : splitn commit.fileLine 4 '|' =
      commit.sha :: String.ofList front :: (splitnChars '|' 2 behind).map String.ofList := by
    rw [splitn,fileLine_chars,splitnChars_field (hash_bare commit),split]
    simp
  obtain ⟨second,last,again,free',whole'⟩ := field_read 0 commit.author.toList commit.age.toList
  rw [parts,Prod.mk.injEq,Prod.mk.injEq]
  refine ⟨rfl,?_,?_⟩
  · rintro ⟨subject,author,_⟩
    have same : front = commit.subject.toList := ofList_eq.mp subject
    rw [same] at free
    obtain ⟨_,rfl⟩ := whole free
    rw [again] at author
    have same' : second = commit.author.toList := ofList_eq.mp author
    rw [same'] at free'
    exact ⟨free,free'⟩
  · rintro ⟨bareSubject,bareAuthor⟩
    obtain ⟨rfl,rfl⟩ := whole bareSubject
    obtain ⟨rfl,rfl⟩ := whole' bareAuthor
    rw [again]
    simp [splitnChars]

theorem line_solid (commit : Printed) {front : List Char} (start : ∀ c ∈ front.head?, isWhitespace c = false) (some : front ≠ []) :
    Solid (front ++ commit.age.toList) := by
  obtain ⟨full,⟨_,ending⟩,_⟩ := commit.relative
  have nonempty : commit.age.toList ≠ [] := fun empty => full (String.toList_eq_nil_iff.mp empty)
  constructor
  · rw [List.head?_append_of_ne_nil _ some]
    exact start
  · rw [List.getLast?_append_of_ne_nil _ nonempty]
    exact ending

theorem hash_start (commit : Printed) (rest : List Char) :
    ∀ c ∈ (commit.sha.toList ++ rest).head?, isWhitespace c = false := by
  obtain ⟨full,solid⟩ := commit.hash
  have nonempty : commit.sha.toList ≠ [] := fun empty => full (String.toList_eq_nil_iff.mp empty)
  rw [List.head?_append_of_ne_nil _ nonempty]
  intro c first
  exact (solid c (List.mem_of_mem_head? first)).2

theorem hash_single (commit : Printed) : '\n' ∉ commit.sha.toList := fun inside =>
  absurd (commit.hash.2 '\n' inside).2 (by decide)

theorem recentLine_text (commit : Printed) :
    commit.recentLine.toList ≠ [] ∧ Solid commit.recentLine.toList ∧ '\n' ∉ commit.recentLine.toList := by
  have text : commit.recentLine.toList = (commit.sha.toList ++ '|' :: (commit.subject.toList ++ ['|'])) ++ commit.age.toList := by
    rw [recentLine_chars]
    simp
  refine ⟨?_,?_,?_⟩
  · simp [recentLine_chars]
  · rw [text]
    exact line_solid commit (hash_start commit _) (by simp)
  · simp [recentLine_chars,hash_single commit,commit.single.1,commit.relative.2.2.2]

theorem fileLine_text (commit : Printed) : commit.fileLine ≠ "" ∧ Solid commit.fileLine.toList := by
  have text : commit.fileLine.toList =
      (commit.sha.toList ++ '|' :: (commit.subject.toList ++ '|' :: (commit.author.toList ++ ['|']))) ++ commit.age.toList := by
    rw [fileLine_chars]
    simp
  constructor
  · intro empty
    have none := congrArg String.toList empty
    simp [fileLine_chars] at none
  · rw [text]
    exact line_solid commit (hash_start commit _) (by simp)

theorem answer_text (printed : git args = some output) : (answer git args).getD "" = trim output := by
  rw [answer,printed,Option.bind_some]
  split
  · rename_i empty
    rw [empty]
    rfl
  · rfl

theorem answer_full (printed : git args = some output) (full : trim output ≠ "") : answer git args = some (trim output) := by
  rw [answer,printed,Option.bind_some,if_neg full]

theorem trim_newline (s : String) : trim (s ++ "\n") = trim s := by
  rw [trim,String.toList_append]
  exact congrArg String.ofList (trimChars_tail blank_newline s.toList)

theorem trim_solid (solid : Solid (String.toList s)) : trim s = s :=
  ofList_eq.mpr (trimChars_solid solid)

theorem recent_lines (commits : List Printed) (printed : git args = some (terminated (commits.map Printed.recentLine))) :
    lines ((answer git args).getD "") = commits.map Printed.recentLine := by
  have texts : ∀ text ∈ commits.map fun commit => commit.recentLine.toList, text ≠ [] ∧ Solid text ∧ '\n' ∉ text := by
    intro text member
    obtain ⟨commit,_,rfl⟩ := List.mem_map.mp member
    exact recentLine_text commit
  have read := linesFrom_trimmed _ texts
  rw [List.flatMap_map] at read
  rw [answer_text printed,lines,trim,terminated,String.toList_ofList,String.toList_ofList,List.flatMap_map,read,List.map_map]
  exact List.map_congr_left fun commit _ => String.ofList_toList

theorem recent_recovered (path : Option String) (repo : String) (commits : List Printed)
    (printed : git ((recentChangesArgs path).map Arg.text) = some (terminated (commits.map Printed.recentLine))) :
    ((RepoView.recentChangesFor git path repo).value.map rowFields =
        commits.map fun commit => (commit.sha,commit.subject,commit.age)) ↔
      ∀ commit ∈ commits, Bare commit.subject := by
  rw [RepoView.recentChangesFor,bind_value,run_value,each_value,recent_lines commits printed,List.map_map,List.map_map,
    List.map_inj_left]
  exact forall₂_congr fun commit _ => changeRow_fields repo commit

theorem entry_recovered (path : String) (entry : TreeEntryKind × String) (commit : Printed)
    (printed : git ["log","-1","--format=%s|%cr","HEAD","--",entryPath path entry.2] = some (commit.entryLine ++ "\n")) :
    (treeEntry git path entry).value = ⟨entry.1,entry.2,trimStart commit.subject,commit.age⟩ ↔ Bare commit.subject := by
  have full : trim (commit.entryLine ++ "\n") ≠ "" := by
    rw [trim_newline]
    intro empty
    have none := congrArg String.toList empty
    simp [entryLine_trimmed] at none
  have answered := answer_full printed full
  rw [trim_newline] at answered
  have value : (treeEntry git path entry).value =
      ⟨entry.1,entry.2,((lastCommit (trim commit.entryLine)).getD ("","")).1,((lastCommit (trim commit.entryLine)).getD ("","")).2⟩ := by
    simp only [treeEntry,bind_value,run_value,pure_value,List.map_cons,List.map_nil,Arg.text]
    change (⟨entry.1,entry.2,(((answer git ["log","-1","--format=%s|%cr","HEAD","--",entryPath path entry.2]).bind lastCommit).getD ("","")).1,
      (((answer git ["log","-1","--format=%s|%cr","HEAD","--",entryPath path entry.2]).bind lastCommit).getD ("","")).2⟩ : TreeEntry) = _
    rw [answered,Option.bind_some]
  rw [value,← lastCommit_fields]
  cases read : lastCommit (trim commit.entryLine) with
  | none => simp [Ne.symm commit.relative.1]
  | some fields => simp [Prod.ext_iff]

theorem tree_recovered (path lsOut : String) (last : String → Printed)
    (listed : answer git ["ls-tree",(lsTarget path).text] = some lsOut)
    (printed : ∀ entry ∈ listing lsOut, git ["log","-1","--format=%s|%cr","HEAD","--",entryPath path entry.2] =
      some ((last (entryPath path entry.2)).entryLine ++ "\n")) :
    ∃ data, (readTreeData git path).value = some data ∧
      (data.entries = (if path = "" then [] else [⟨.up,"..","",""⟩]) ++ (listing lsOut).map (fun entry =>
          ⟨entry.1,entry.2,trimStart (last (entryPath path entry.2)).subject,(last (entryPath path entry.2)).age⟩) ↔
        ∀ entry ∈ listing lsOut, Bare (last (entryPath path entry.2)).subject) := by
  have value : (readTreeData git path).value = some ⟨(headOf git).value.1,(headOf git).value.2,
      (if path = "" then [] else [⟨.up,"..","",""⟩]) ++ (listing lsOut).map fun entry => (treeEntry git path entry).value⟩ := by
    rw [readTreeData,bind_value,orReturn_value,run_value,List.map_cons,List.map_cons,List.map_nil]
    change (answer git ["ls-tree",(lsTarget path).text]).bind _ = _
    rw [listed,Option.bind_some,bind_value,each_value]
    rfl
  refine ⟨_,value,?_⟩
  rw [List.append_right_inj,List.map_inj_left]
  exact forall₂_congr fun entry member => entry_recovered path entry _ (printed entry member)

-- What the file page reads of the answers to its three decisive commands.
def fileOf (git : Git) (path blob log raw : String) : FileData where
  bookmark := (headOf git).value.1
  head := (headOf git).value.2
  lastChange := ⟨(splitn log 4 '|').headD "",(RepoView.changeId git ((splitn log 4 '|').headD "")).value⟩
  lastChangeMsg := (splitn log 4 '|').getD 1 ""
  lastChangeAuthor := (splitn log 4 '|').getD 2 ""
  lastChangeAge := (splitn log 4 '|').getD 3 ""
  lineCount := (lines blob).length
  fileBytes := (parseU64 ((answer git ["cat-file","-s","HEAD:" ++ path]).getD "")).getD 0
  mode := (answer git ["ls-tree","--format=%(objectmode)","HEAD",path]).getD "100644"
  encoding := if raw.toList.all fun c => c.toNat < 128 then "ascii" else "utf-8"
  lineEnding := if contains raw "\r\n" then "crlf" else "lf"
  lines := (lines blob).map fun line => htmlEscape line ++ "\n"

theorem readFileData_value (git : Git) (path : String) :
    (readFileData git path).value = (answer git ["show","HEAD:" ++ path]).bind fun blob =>
      (answer git ["log","-1","--format=%H|%s|%an|%cr","HEAD","--",path]).bind fun log =>
        (answer git ["cat-file","-p","HEAD:" ++ path]).map (fileOf git path blob log) := by
  simp only [readFileData,bind_value,orReturn_value,run_value,pure_value,List.map_cons,List.map_nil,Arg.text]
  congr 1
  funext blob
  congr 1
  funext log
  cases answer git ["cat-file","-p","HEAD:" ++ path] <;> rfl

theorem file_recovered (path : String) (commit : Printed)
    (printed : git ["log","-1","--format=%H|%s|%an|%cr","HEAD","--",path] = some (commit.fileLine ++ "\n")) :
    (∃ data, (readFileData git path).value = some data ∧
        fileFields data = (commit.sha,commit.subject,commit.author,commit.age)) ↔
      Bare commit.subject ∧ Bare commit.author ∧ (answer git ["show","HEAD:" ++ path]).isSome = true ∧
        (answer git ["cat-file","-p","HEAD:" ++ path]).isSome = true := by
  obtain ⟨full,solid⟩ := fileLine_text commit
  have trimmed : trim (commit.fileLine ++ "\n") = commit.fileLine := by rw [trim_newline,trim_solid solid]
  have answered := answer_full printed (by rw [trimmed]; exact full)
  rw [trimmed] at answered
  obtain ⟨sha,fields⟩ := fileLine_fields commit
  have same : ∀ blob raw, fileFields (fileOf git path blob commit.fileLine raw) =
      (commit.sha,commit.subject,commit.author,commit.age) ↔ Bare commit.subject ∧ Bare commit.author := by
    intro blob raw
    simp only [Prod.mk.injEq] at fields
    simp only [fileFields,fileOf,Prod.mk.injEq,sha,true_and]
    exact fields
  rw [readFileData_value,answered]
  cases answer git ["show","HEAD:" ++ path] with
  | none => simp
  | some blob =>
    cases answer git ["cat-file","-p","HEAD:" ++ path] with
    | none => simp
    | some raw => simpa using same blob raw

def samplePrinted (subject : String) (free : '\n' ∉ subject.toList) : Printed :=
  ⟨"1f2e",subject,"Ann Lee","3 days ago",⟨by decide,by simp [isWhitespace]⟩,⟨free,by decide⟩,by decide⟩

-- A repository that prints one commit for its log, and a file.
def sampleGit (subject : String) (free : '\n' ∉ subject.toList) : Git := fun args =>
  if args = (recentChangesArgs none).map Arg.text then some (terminated [(samplePrinted subject free).recentLine])
  else if args = ["log","-1","--format=%H|%s|%an|%cr","HEAD","--","f"] then some ((samplePrinted subject free).fileLine ++ "\n")
  else if args = ["show","HEAD:f"] ∨ args = ["cat-file","-p","HEAD:f"] then some "x\n"
  else none

end Quire.LogFields
