import Mathlib.Data.List.Sort
import Quire.Text
import Quire.Traced

namespace Quire.GitViews
open Text Traced

-- One argument of a git command line, by where its text is from: the program
-- itself, the request or an earlier output of git, or a format! around either.
inductive Arg where
  | fixed (text : String)
  | dynamic (text : String)
  | embedded (before text : String)
  deriving DecidableEq, Repr

def Arg.text : Arg → String
  | .fixed text | .dynamic text => text
  | .embedded before text => before ++ text

abbrev Argv := List Arg

-- `git` in one repository: the standard output of a command that exits 0 with
-- valid UTF-8. The repository is its current directory, never an argument.
abbrev Git := List String → Option String

abbrev View (α : Type) := Traced Argv α

def RepoView.run (git : Git) (args : Argv) : View (Option String) :=
  issue args <| (git (args.map Arg.text)).bind fun output =>
    let s := trim output
    if s = "" then none else some s

structure CommitId where
  sha : String
  changeId : Option String
  deriving DecidableEq, Repr

structure ChangeRow where
  commitUrl : String
  id : CommitId
  description : String
  age : String
  deriving DecidableEq, Repr

-- The headers end at the first empty line.
def changeIdOf : List String → Option String
  | [] => none
  | line :: rest =>
    if line = "" then none
    else match stripPrefix line "change-id " with
      | some id => some (trim id)
      | none => changeIdOf rest

def RepoView.changeId (git : Git) (sha : String) : View (Option String) :=
  (RepoView.run git [.fixed "cat-file",.fixed "-p",.dynamic sha]).orReturn fun raw =>
    pure (changeIdOf (lines raw))

def changeRow (git : Git) (repo line : String) : View ChangeRow := do
  let parts := splitn line 3 '|'
  let sha := parts.headD ""
  let changeId ← RepoView.changeId git sha
  return ⟨"/" ++ repo ++ "/commits/" ++ sha,⟨sha,changeId⟩,parts.getD 1 "",parts.getD 2 ""⟩

def recentChangesArgs (path : Option String) : Argv :=
  [.fixed "log",.fixed "-12",.fixed "--format=%H|%s|%cr"] ++
    match path with
    | some p => if p = "" then [] else [.fixed "--",.dynamic p]
    | none => []

def RepoView.recentChangesFor (git : Git) (path : Option String) (repo : String) : View (List ChangeRow) := do
  let out ← RepoView.run git (recentChangesArgs path)
  each (lines (out.getD "")) (changeRow git repo)

structure CommitParent where
  commitUrl : String
  id : CommitId
  deriving DecidableEq, Repr

structure CommitInfo where
  sha : String
  author : String
  email : String
  timestampMs : Int
  subject : String
  body : String
  parents : List CommitParent
  diff : String
  changeId : String
  deriving DecidableEq, Repr

def commitFormat : String := "--format=%H%n%P%n%s%n%b%n%an%n%ae%n%at"

def commitParent (git : Git) (repo p : String) : View CommitParent := do
  let changeId ← RepoView.changeId git p
  return ⟨"/" ++ repo ++ "/commits/" ++ p,⟨p,changeId⟩⟩

-- The body is what lies between the subject and the last three lines. The
-- product wraps, as i64 multiplication does in a release build.
def commitFields (git : Git) (repo fullSha info : String) : View (Option CommitInfo) :=
  match lines info with
  | [] => pure none
  | sha :: rest =>
    let parentsStr := rest.headD ""
    let subject := rest.getD 1 ""
    let remaining := rest.drop 2
    let n := remaining.length
    if n < 3 then pure none
    else match parseI64 (remaining.getD (n - 1) "") with
      | none => pure none
      | some secs => do
        let diff ← RepoView.run git
          [.fixed "log",.fixed "-1",.fixed "--patch",.fixed "--format=",.dynamic fullSha]
        let changeId ← RepoView.changeId git fullSha
        let parents ← each (splitWhitespace parentsStr) (commitParent git repo)
        return some {
          sha := sha
          author := remaining.getD (n - 3) ""
          email := remaining.getD (n - 2) ""
          timestampMs := (secs * 1000).bmod (u64Max + 1)
          subject := subject
          body := join "\n" (remaining.take (n - 3))
          parents := parents
          diff := diff.getD ""
          changeId := changeId.getD "" }

-- The blocking part of `commit_view`; `repo` is the name shown in links.
def commitView (git : Git) (repo sha : String) : View (Option CommitInfo) := do
  let resolved ← RepoView.run git [.fixed "rev-parse",.dynamic sha]
  let fullSha := resolved.getD sha
  (RepoView.run git [.fixed "log",.fixed "-1",.fixed commitFormat,.dynamic fullSha]).orReturn
    (commitFields git repo fullSha)

inductive TreeEntryKind where
  | up
  | dir
  | file
  | submodule
  deriving DecidableEq, Repr

structure TreeEntry where
  kind : TreeEntryKind
  name : String
  lastMsg : String
  age : String
  deriving DecidableEq, Repr

structure TreeData where
  bookmark : String
  head : CommitId
  entries : List TreeEntry
  deriving DecidableEq, Repr

def treeLine (line : String) : Option (TreeEntryKind × String) :=
  (splitOnce line '\t').map fun (fields,name) =>
    let parts := splitWhitespace fields
    let mode := parts.headD ""
    let objType := parts.getD 1 ""
    if mode = "160000" ∨ objType = "commit" then (.submodule,name)
    else if objType = "tree" then (.dir,name)
    else (.file,name)

def folder (kind : TreeEntryKind) : Bool := kind == .dir || kind == .submodule

-- Directories and submodules first, then by the bytes of the name.
def entryOrder (a b : TreeEntryKind × String) : Prop :=
  (folder a.1 = true ∧ folder b.1 = false) ∨
    (folder a.1 = folder b.1 ∧ List.lex (b.2.toList.map Char.toNat) (a.2.toList.map Char.toNat) Nat.blt = false)

instance : DecidableRel entryOrder := fun a b => inferInstanceAs (Decidable
  ((folder a.1 = true ∧ folder b.1 = false) ∨
    (folder a.1 = folder b.1 ∧ List.lex (b.2.toList.map Char.toNat) (a.2.toList.map Char.toNat) Nat.blt = false)))

def lastCommit (info : String) : Option (String × String) :=
  match splitn info 2 '|' with
  | [message,age] => some (message,age)
  | _ => none

def treeEntry (git : Git) (path : String) (entry : TreeEntryKind × String) : View TreeEntry := do
  let entryPath := if path = "" then entry.2 else path ++ "/" ++ entry.2
  let commitInfo ← RepoView.run git
    [.fixed "log",.fixed "-1",.fixed "--format=%s|%cr",.fixed "HEAD",.fixed "--",.dynamic entryPath]
  let (lastMsg,age) := (commitInfo.bind lastCommit).getD ("","")
  return ⟨entry.1,entry.2,lastMsg,age⟩

-- What both the tree and the file page show of HEAD.
def headOf (git : Git) : View (String × CommitId) := do
  let bookmark ← RepoView.run git [.fixed "symbolic-ref",.fixed "--short",.fixed "HEAD"]
  let headSha ← RepoView.run git [.fixed "rev-parse",.fixed "HEAD"]
  let changeId ← RepoView.changeId git (headSha.getD "")
  return (bookmark.getD "main",⟨headSha.getD "",changeId⟩)

def lsTarget (path : String) : Arg := if path = "" then .fixed "HEAD" else .embedded "HEAD:" path

def readTreeData (git : Git) (path : String) : View (Option TreeData) := do
  let (bookmark,head) ← headOf git
  (RepoView.run git [.fixed "ls-tree",lsTarget path]).orReturn fun lsOut => do
    let raw := ((lines lsOut).filterMap treeLine).insertionSort entryOrder
    let listed ← each raw (treeEntry git path)
    let up := if path = "" then [] else [⟨.up,"..","",""⟩]
    return some ⟨bookmark,head,up ++ listed⟩

structure FileData where
  bookmark : String
  head : CommitId
  lastChange : CommitId
  lastChangeMsg : String
  lastChangeAuthor : String
  lastChangeAge : String
  lineCount : Nat
  fileBytes : Nat
  mode : String
  encoding : String
  lineEnding : String
  lines : List String
  deriving DecidableEq, Repr

def htmlEscape (s : String) : String :=
  replace (replace (replace (replace s "&" "&amp;") "<" "&lt;") ">" "&gt;") "\"" "&quot;"

def readFileData (git : Git) (path : String) : View (Option FileData) := do
  let (bookmark,head) ← headOf git
  (RepoView.run git [.fixed "show",.embedded "HEAD:" path]).orReturn fun blob => do
    let mode ← RepoView.run git
      [.fixed "ls-tree",.fixed "--format=%(objectmode)",.fixed "HEAD",.dynamic path]
    (RepoView.run git
      [.fixed "log",.fixed "-1",.fixed "--format=%H|%s|%an|%cr",.fixed "HEAD",.fixed "--",.dynamic path]).orReturn
      fun log => do
        let logParts := splitn log 4 '|'
        let lastSha := logParts.headD ""
        let changeId ← RepoView.changeId git lastSha
        let fileSize ← RepoView.run git [.fixed "cat-file",.fixed "-s",.embedded "HEAD:" path]
        (RepoView.run git [.fixed "cat-file",.fixed "-p",.embedded "HEAD:" path]).orReturn fun raw =>
          pure <| some {
            bookmark := bookmark
            head := head
            lastChange := ⟨lastSha,changeId⟩
            lastChangeMsg := logParts.getD 1 ""
            lastChangeAuthor := logParts.getD 2 ""
            lastChangeAge := logParts.getD 3 ""
            lineCount := (lines blob).length
            fileBytes := (parseU64 (fileSize.getD "")).getD 0
            mode := mode.getD "100644"
            encoding := if raw.toList.all fun c => c.toNat < 128 then "ascii" else "utf-8"
            lineEnding := if contains raw "\r\n" then "crlf" else "lf"
            lines := (lines blob).map fun line => htmlEscape line ++ "\n" }

inductive TreePage where
  | tree (data : TreeData) (recentChanges : List ChangeRow)
  | file (data : FileData)
  deriving DecidableEq, Repr

-- A path that ls-tree cannot list is tried as a file.
def treeOrFileAtPath (git : Git) (repo path : String) : View (Option TreePage) := do
  match ← readTreeData git path with
  | some treeData =>
    let recentChanges ← RepoView.recentChangesFor git (some path) repo
    return some (.tree treeData recentChanges)
  | none =>
    let file ← readFileData git path
    return file.map .file

end Quire.GitViews
