import Mathlib.Data.List.Infix
import Quire.RepoPaths
import Quire.StepSystem

namespace Quire.RepoTree
open Text RepoNames RepoPaths StepSystem

-- The directories of the machine, each by its path.
abbrev Dirs := List PathBuf

def isDir (dirs : Dirs) (path : PathBuf) : Bool := dirs.contains path

def Under (dir path : PathBuf) : Prop := path.absolute = dir.absolute ∧ dir.parts <+: path.parts

instance : DecidableRel Under := fun dir path =>
  inferInstanceAs (Decidable (path.absolute = dir.absolute ∧ dir.parts <+: path.parts))

def createDirAll (dirs : Dirs) (path : PathBuf) : Dirs := path.parts.inits.map (PathBuf.mk path.absolute) ++ dirs

inductive CommandError where
  | name (error : RepoNameError)
  | quire (error : QuireError)
  | exists (name : String)
  | io
  | initFailed
  deriving DecidableEq, Repr

-- The exit status of git init, when it could be started, and the directories it
-- left behind, whether or not it succeeded.
structure InitAnswer where
  parentMade : Bool
  status : Option Bool
  added : List PathBuf
  deriving DecidableEq, Repr

-- What a failed remove_dir_all left, and whether remove_dir of an empty parent
-- succeeded.
structure RemoveAnswer where
  left : Option (List PathBuf)
  parentRemoved : Bool
  deriving DecidableEq, Repr

def normalized (raw : String) : String := if endsWith raw ".git" then raw else raw ++ ".git"

def new (quire : Quire) (dirs : Dirs) (raw : String) (answer : InitAnswer) : Dirs × Except CommandError String :=
  match RepoName.fromStr (normalized raw) with
  | .error error => (dirs,.error (.name error))
  | .ok name =>
    let repo := Repo.new quire.reposDir name
    if repo.exists (isDir dirs) then (dirs,.error (.exists name.text))
    else if answer.parentMade = false then (dirs,.error .io)
    else
      let made := match repo.path.parent with
        | some parent => createDirAll dirs parent
        | none => dirs
      match answer.status with
      | none => (made,.error .io)
      | some false => (answer.added ++ made,.error .initFailed)
      | some true => (answer.added ++ made,.ok name.text)

def removeDirAll (dirs : Dirs) (path : PathBuf) (answer : RemoveAnswer) : Dirs :=
  dirs.filter fun dir => ¬ Under path dir ∨ dir ∈ answer.left.getD []

-- remove_dir takes empty directories only.
def removeDir (dirs : Dirs) (path : PathBuf) (answer : RemoveAnswer) : Dirs :=
  if answer.parentRemoved ∧ ∀ dir ∈ dirs, Under path dir → dir = path then dirs.filter (· ≠ path) else dirs

def rm (quire : Quire) (dirs : Dirs) (name : RepoName) (answer : RemoveAnswer) : Dirs × Except CommandError Unit :=
  match quire.repo (isDir dirs) name.text with
  | .error error => (dirs,.error (.quire error))
  | .ok repo =>
    let cleared := removeDirAll dirs repo.path answer
    if answer.left.isSome then (cleared,.error .io)
    else match repo.path.parent with
      | some parent => if parent ≠ quire.reposDir then (removeDir cleared parent answer,.ok ()) else (cleared,.ok ())
      | none => (cleared,.ok ())

inductive Command where
  | new (raw : String) (answer : InitAnswer)
  | rm (name : RepoName) (answer : RemoveAnswer)

def perform (quire : Quire) (dirs : Dirs) : Command → Dirs
  | .new raw answer => (new quire dirs raw answer).1
  | .rm name answer => (rm quire dirs name answer).1

-- A name that ends like a repository.
def Suffixed (segment : String) : Prop := endsWith segment ".git" = true

instance : DecidablePred Suffixed := fun segment => inferInstanceAs (Decidable (endsWith segment ".git" = true))

-- git init makes the directory it is given, or its working directory where the
-- name is read as an option, with the directories of its layout and template in
-- it; none of those ends in .git.
def InitDocumented (quire : Quire) (name : RepoName) (added : List PathBuf) : Prop :=
  ∀ path ∈ added, ∃ root ∈ [quire.reposDir.join name.text,quire.reposDir], ∃ layout,
    path = ⟨root.absolute,root.parts ++ layout⟩ ∧ ∀ segment ∈ layout, ¬ Suffixed segment

def Documented (quire : Quire) : Command → Prop
  | .new raw answer => ∀ name, RepoName.fromStr (normalized raw) = .ok name → InitDocumented quire name answer.added
  | .rm .. => True

def Step (quire : Quire) (before : Dirs) (command : Command) (after : Dirs) : Prop :=
  Documented quire command ∧ perform quire before command = after

-- No group of a new repository ends in .git.
def PlainGroup : Command → Prop
  | .new raw _ => ∀ group seg, split (normalized raw) '/' = [group,seg] → ¬ Suffixed group
  | .rm .. => True

def Present (quire : Quire) (dirs : Dirs) (name : RepoName) : Prop :=
  (Repo.new quire.reposDir name).exists (isDir dirs) = true

instance (quire : Quire) (dirs : Dirs) : DecidablePred (Present quire dirs) := fun name =>
  inferInstanceAs (Decidable ((Repo.new quire.reposDir name).exists (isDir dirs) = true))

def Apart (quire : Quire) (dirs : Dirs) : Prop :=
  ∀ one two, Present quire dirs one → Present quire dirs two → one.text ≠ two.text →
    ¬ Under (Repo.new quire.reposDir one).path (Repo.new quire.reposDir two).path

def SparesOthers (quire : Quire) (dirs : Dirs) : Prop :=
  ∀ name answer after other, Step quire dirs (.rm name answer) after → Present quire dirs other →
    other.text ≠ name.text → Present quire after other

-- An empty repos directory: nothing is further down.
def Empty (quire : Quire) (dirs : Dirs) : Prop := ∀ dir ∈ dirs, Under quire.reposDir dir → dir = quire.reposDir

-- Below the repos directory no path has two names that end in .git.
def OneSuffix (quire : Quire) (dirs : Dirs) : Prop :=
  ∀ dir ∈ dirs, ∀ below, dir = ⟨quire.reposDir.absolute,quire.reposDir.parts ++ below⟩ →
    below.countP (fun segment => endsWith segment ".git") ≤ 1

section Names
variable {quire : Quire} {dirs : Dirs} {name : RepoName}

-- The suffix of a name is that of its last segment.
theorem last_suffixed (name : RepoName) {front : List String} {seg : String} (pieces : split name.text '/' = front ++ [seg]) :
    Suffixed seg := by
  have suffixed := endsWith_iff.mp name.suffixed
  have text := join_split name.text
  rw [pieces] at text
  cases front with
  | nil =>
    have same : seg = name.text := text
    rw [same]
    exact name.suffixed
  | cons group rest =>
    have short := name.grouped
    rw [pieces] at short
    cases rest with
    | cons => simp at short
    | nil =>
      have pair : name.text.toList = group.toList ++ '/' :: seg.toList := by rw [← text]; simp [join]
      rw [pair] at suffixed
      apply endsWith_iff.mpr
      rcases List.suffix_or_suffix_of_suffix suffixed (List.suffix_append group.toList _) with inside | around
      · rcases List.suffix_cons_iff.mp inside with whole | behind
        · have slash : '/' ∈ ".git".toList := by rw [whole]; exact List.mem_cons_self
          exact absurd slash (by decide)
        · exact behind
      · have slash := around.subset (List.mem_cons_self (a := '/'))
        exact absurd slash (by decide)

theorem name_suffixes (name : RepoName) (plain : ∀ group seg, split name.text '/' = [group,seg] → ¬ Suffixed group) :
    (split name.text '/').countP (fun segment => endsWith segment ".git") ≤ 1 := by
  have grouped := name.grouped
  match pieces : split name.text '/' with
  | [] => exact Nat.zero_le _
  | [_] => exact List.countP_le_length
  | [group,seg] =>
    have unsuffixed := Bool.eq_false_iff.mpr (plain group seg pieces)
    have single : [seg].countP (fun segment => endsWith segment ".git") ≤ 1 := List.countP_le_length
    rw [List.countP_cons_of_neg (by simp [unsuffixed])]
    exact single
  | _ :: _ :: _ :: _ =>
    rw [pieces] at grouped
    simp at grouped

theorem repo_parts (quire : Quire) (name : RepoName) :
    (Repo.new quire.reposDir name).path = ⟨quire.reposDir.absolute,quire.reposDir.parts ++ split name.text '/'⟩ := by
  rw [repo_path,join_name]

theorem under_parts (quire : Quire) (one two : RepoName) :
    Under (Repo.new quire.reposDir one).path (Repo.new quire.reposDir two).path ↔
      split one.text '/' <+: split two.text '/' := by
  rw [repo_parts,repo_parts]
  simp [Under,List.prefix_append_right_inj]

theorem apart_of_oneSuffix (single : OneSuffix quire dirs) : Apart quire dirs := by
  intro one two _ present other under
  obtain ⟨rest,longer⟩ := (under_parts quire one two).mp under
  have counted := single _ (by simpa [Present,Repo.exists,isDir] using present) _ (repo_parts quire two)
  rcases List.eq_nil_or_concat rest with rfl | ⟨middle,seg,rfl⟩
  · rw [List.append_nil] at longer
    exact other (by rw [← join_split one.text,longer,join_split])
  · rcases List.eq_nil_or_concat (split one.text '/') with empty | ⟨front,group,pieces⟩
    · exact split_nonempty _ _ empty
    · rw [List.concat_eq_append] at longer pieces
      have first : endsWith group ".git" = true := last_suffixed one pieces
      have second : endsWith seg ".git" = true := by
        have ending : split two.text '/' = (split one.text '/' ++ middle) ++ [seg] := by rw [← longer,List.append_assoc]
        exact last_suffixed two ending
      rw [← longer,pieces] at counted
      simp only [List.countP_append,List.countP_singleton,first,second,if_true] at counted
      omega

theorem oneSuffix_subset (single : OneSuffix quire dirs) (fewer : ∀ dir ∈ after, dir ∈ dirs) : OneSuffix quire after :=
  fun dir member => single dir (fewer dir member)

theorem oneSuffix_append (left : OneSuffix quire one) (right : OneSuffix quire two) : OneSuffix quire (one ++ two) := by
  intro dir member
  rcases List.mem_append.mp member with inLeft | inRight
  · exact left dir inLeft
  · exact right dir inRight

theorem createDirAll_oneSuffix (single : OneSuffix quire dirs)
    (plain : (split name.text '/').countP (fun segment => endsWith segment ".git") ≤ 1)
    (parent : (Repo.new quire.reposDir name).path.parent = some path) : OneSuffix quire (createDirAll dirs path) := by
  refine oneSuffix_append ?_ single
  intro dir member below parts
  rw [repo_parts,PathBuf.parent] at parent
  split at parent
  · cases parent
  · cases parent
    obtain ⟨front,listed,rfl⟩ := List.mem_map.mp member
    have ancestor := (List.mem_inits _ _).mp listed
    cases parts
    have whole := ancestor.trans (List.dropLast_prefix _)
    have inName := (List.prefix_append_right_inj quire.reposDir.parts).mp whole
    exact Nat.le_trans (List.Sublist.countP_le inName.sublist) plain

theorem added_oneSuffix (documented : InitDocumented quire name added)
    (plain : (split name.text '/').countP (fun segment => endsWith segment ".git") ≤ 1) : OneSuffix quire added := by
  intro dir member below parts
  obtain ⟨root,roots,layout,rfl,free⟩ := documented dir member
  have none : layout.countP (fun segment => endsWith segment ".git") = 0 := List.countP_eq_zero.mpr free
  have counted : ∀ front : List String, root.parts = quire.reposDir.parts ++ front →
      front.countP (fun segment => endsWith segment ".git") ≤ 1 →
      below.countP (fun segment => endsWith segment ".git") ≤ 1 := by
    intro front split few
    have same := congrArg PathBuf.parts parts
    rw [split,List.append_assoc] at same
    rw [← List.append_cancel_left same,List.countP_append,none]
    exact few
  simp only [List.mem_cons,List.not_mem_nil,or_false] at roots
  rcases roots with rfl | rfl
  · exact counted (split name.text '/') (by rw [join_name]) plain
  · exact counted [] (by simp) (by simp)

theorem new_oneSuffix (single : OneSuffix quire dirs) (documented : Documented quire (.new raw answer))
    (plain : PlainGroup (.new raw answer)) : OneSuffix quire (new quire dirs raw answer).1 := by
  unfold new
  split
  · exact single
  · rename_i name accepted
    have text := fromStr_accepts accepted
    have few := name_suffixes name (by rw [text]; exact plain)
    have added := added_oneSuffix (documented name accepted) few
    have made : OneSuffix quire (match (Repo.new quire.reposDir name).path.parent with
        | some parent => createDirAll dirs parent
        | none => dirs) := by
      split
      · rename_i parent
        exact createDirAll_oneSuffix single few parent
      · exact single
    dsimp only
    split
    · exact single
    · split
      · exact single
      · split
        · exact made
        · exact oneSuffix_append added made
        · exact oneSuffix_append added made

theorem removeDirAll_mem {path : PathBuf} {answer : RemoveAnswer} : ∀ dir ∈ removeDirAll dirs path answer, dir ∈ dirs :=
  fun _ member => (List.mem_filter.mp member).1

theorem removeDir_mem {path : PathBuf} {answer : RemoveAnswer} : ∀ dir ∈ removeDir dirs path answer, dir ∈ dirs := by
  intro dir member
  unfold removeDir at member
  split at member
  · exact (List.mem_filter.mp member).1
  · exact member

theorem rm_mem {answer : RemoveAnswer} : ∀ dir ∈ (rm quire dirs name answer).1, dir ∈ dirs := by
  intro dir member
  unfold rm at member
  split at member
  · exact member
  · dsimp only at member
    split at member
    · exact removeDirAll_mem dir member
    · split at member
      · split at member
        · exact removeDirAll_mem dir (removeDir_mem dir member)
        · exact removeDirAll_mem dir member
      · exact removeDirAll_mem dir member

theorem step_oneSuffix (single : OneSuffix quire dirs) (plain : PlainGroup command) (step : Step quire dirs command after) :
    OneSuffix quire after := by
  obtain ⟨documented,rfl⟩ := step
  cases command with
  | new raw answer => exact new_oneSuffix single documented plain
  | rm name answer => exact oneSuffix_subset single rm_mem

theorem removeDirAll_keeps {path other : PathBuf} {answer : RemoveAnswer} (member : other ∈ dirs) (apart : ¬ Under path other) :
    other ∈ removeDirAll dirs path answer :=
  List.mem_filter.mpr ⟨member,by simp [apart]⟩

theorem removeDir_keeps {path other : PathBuf} {answer : RemoveAnswer} (member : other ∈ dirs) (apart : other ≠ path) :
    other ∈ removeDir dirs path answer := by
  unfold removeDir
  split
  · exact List.mem_filter.mpr ⟨member,by simp [apart]⟩
  · exact member

theorem parent_under {path parent : PathBuf} (above : path.parent = some parent) : Under parent path := by
  unfold PathBuf.parent at above
  split at above
  · cases above
  · cases above
    exact ⟨rfl,List.dropLast_prefix _⟩

theorem spares_of_apart (apart : Apart quire dirs) : SparesOthers quire dirs := by
  rintro name answer after other ⟨_,rfl⟩ present different
  have member : (Repo.new quire.reposDir other).path ∈ dirs := by simpa [Present,Repo.exists,isDir] using present
  suffices kept : (Repo.new quire.reposDir other).path ∈ (rm quire dirs name answer).1 by
    simpa [Present,Repo.exists,isDir,perform] using kept
  unfold rm
  split
  · exact member
  · rename_i repo found
    obtain ⟨same,accepted,path,directory⟩ := repo_found found
    have text : same = name := by
      have again := fromStr_text name
      rw [accepted] at again
      exact Except.ok.inj again
    rw [text,← repo_path] at path
    rw [path] at directory
    have outside := apart name other directory present (Ne.symm different)
    have around := apart other name present directory different
    rw [path]
    have cleared : (Repo.new quire.reposDir other).path ∈ removeDirAll dirs (Repo.new quire.reposDir name).path answer :=
      removeDirAll_keeps member outside
    dsimp only
    split
    · exact cleared
    · split
      · rename_i parent above
        split
        · refine removeDir_keeps cleared ?_
          rintro rfl
          exact around (parent_under above)
        · exact cleared
      · exact cleared

-- Runs that name no group like a repository keep the repositories apart.
theorem repos_apart (quire : Quire) {before after : Dirs} {commands : List Command} (empty : Empty quire before)
    (run : Runs (Guarded (fun _ command => PlainGroup command) (Step quire)) before commands after) :
    Apart quire after ∧ SparesOthers quire after := by
  have start : OneSuffix quire before := by
    rintro dir member below rfl
    have none := congrArg PathBuf.parts (empty _ member ⟨rfl,List.prefix_append _ _⟩)
    have nothing : below = [] := List.append_right_eq_self.mp none
    rw [nothing]
    exact Nat.zero_le 1
  have single := run.invariant (OneSuffix quire) (fun _ _ _ holds step => step_oneSuffix holds step.1 step.2) start
  have apart := apart_of_oneSuffix single
  exact ⟨apart,spares_of_apart apart⟩

end Names

def sampleQuire : Quire := ⟨⟨true,["var","quire"]⟩⟩
def sampleRepos : PathBuf := ⟨true,["var","quire","repos"]⟩
def sampleOuter : RepoName := ⟨"a.git",by decide,by decide,by decide,by decide⟩
def sampleInner : RepoName := ⟨"a.git/b.git",by decide,by decide,by decide,by decide⟩
def sampleOther : RepoName := ⟨"a/b.git",by decide,by decide,by decide,by decide⟩

-- What git init leaves of its own layout, in brief.
def sampleInit (name : RepoName) : InitAnswer :=
  ⟨true,some true,[(sampleQuire.reposDir.join name.text),⟨true,(sampleQuire.reposDir.join name.text).parts ++ ["refs"]⟩]⟩

def sampleGone : RemoveAnswer := ⟨none,true⟩
def sampleMade (dirs : Dirs) (name : RepoName) : Dirs := perform sampleQuire dirs (.new name.text (sampleInit name))

theorem sampleInit_step (name : RepoName) (dirs : Dirs) :
    Step sampleQuire dirs (.new name.text (sampleInit name)) (sampleMade dirs name) := by
  refine ⟨?_,rfl⟩
  intro found accepted path member
  have normal : normalized name.text = name.text := if_pos name.suffixed
  rw [normal,fromStr_text] at accepted
  obtain rfl := Except.ok.inj accepted
  refine ⟨sampleQuire.reposDir.join name.text,by simp,?_⟩
  rw [join_name]
  simp only [sampleInit,List.mem_cons,List.not_mem_nil,or_false,join_name] at member
  rcases member with rfl | rfl
  · exact ⟨[],by simp,by simp⟩
  · exact ⟨["refs"],rfl,by decide⟩

theorem sampleEmpty : Empty sampleQuire [sampleRepos] := by
  intro dir member _
  obtain rfl := List.mem_singleton.mp member
  decide

-- A top-level repository made, then a grouped one beside it.
theorem repos_apart_sample :
    Apart sampleQuire (sampleMade (sampleMade [sampleRepos] sampleOuter) sampleOther) ∧
      SparesOthers sampleQuire (sampleMade (sampleMade [sampleRepos] sampleOuter) sampleOther) := by
  apply repos_apart sampleQuire sampleEmpty
  refine .step (.step .nil ⟨?_,sampleInit_step sampleOuter _⟩) ⟨?_,sampleInit_step sampleOther _⟩
  · intro group seg pieces
    have one : split (normalized sampleOuter.text) '/' = ["a.git"] := by decide
    rw [one] at pieces
    cases pieces
  · intro group seg pieces
    have two : split (normalized sampleOther.text) '/' = ["a","b.git"] := by decide
    rw [two] at pieces
    cases pieces
    decide

-- A group may be the directory of a repository: the second command nests, and
-- removing the outer repository takes the inner one with it.
theorem repos_nested : ∃ commands after, Empty sampleQuire [sampleRepos] ∧
    Runs (Step sampleQuire) [sampleRepos] commands after ∧ ¬ Apart sampleQuire after ∧ ¬ SparesOthers sampleQuire after := by
  refine ⟨_,sampleMade (sampleMade [sampleRepos] sampleOuter) sampleInner,sampleEmpty,
    .step (.step .nil (sampleInit_step sampleOuter _)) (sampleInit_step sampleInner _),?_,?_⟩
  · intro apart
    exact apart sampleOuter sampleInner (by decide) (by decide) (by decide) (by decide)
  · intro spares
    have kept := spares sampleOuter sampleGone _ sampleInner ⟨trivial,rfl⟩ (by decide) (by decide)
    exact absurd kept (by decide)

end Quire.RepoTree
