import Mathlib.Data.Finset.Sort
import Mathlib.Data.List.Nodup
import Mathlib.Data.String.Basic
import Quire.KeyedSort
import Quire.RepoTree

namespace Quire.RepoListing
open Text RepoNames RepoPaths StepSystem RepoTree KeyedSort

-- What is listed of a directory: each name once, in an order of its own.
def children (dirs : Dirs) (dir : PathBuf) : List PathBuf := (dirs.filter fun path => path.parent = some dir).dedup

-- WalkDir, so many levels down. Other entries than directories are filtered out.
def walk (dirs : Dirs) : Nat → PathBuf → List PathBuf
  | 0,dir => [dir]
  | depth + 1,dir => dir :: (children dirs dir).flatMap (walk dirs depth)

-- Path::strip_prefix, with the text of what is left.
def leftOf (base path : PathBuf) : Option String :=
  if Under base path then some (join "/" (path.parts.drop base.parts.length)) else none

def named (reposDir path : PathBuf) : Option RepoName :=
  (leftOf reposDir path).bind fun relative => (RepoName.fromStr relative).toOption

-- A directory that is not there is an error entry, which is left out.
def walked (quire : Quire) (dirs : Dirs) : List PathBuf := if isDir dirs quire.reposDir then walk dirs 2 quire.reposDir else []

-- `Quire::repos`
def repos (quire : Quire) (dirs : Dirs) : List Repo :=
  (((walked quire dirs).filterMap (named quire.reposDir)).map (Repo.new quire.reposDir)).insertionSort fun a b => a.name.text ≤ b.name.text

-- What `repo list` prints.
def list (quire : Quire) (dirs : Dirs) : List String := (repos quire dirs).map fun repo => repo.name.text

def Named (path : PathBuf) : Prop := ∀ part ∈ path.parts, '/' ∉ part.toList

-- Every directory is in one, and has a name of its own in it.
structure FileSystem (dirs : Dirs) : Prop where
  closed : ∀ path ∈ dirs, ∀ above, path.parent = some above → above ∈ dirs
  named : ∀ path ∈ dirs, Named path

-- What a command said, as an operator reads it.
inductive Outcome where
  | created (name : String)
  | removed (name : String)
  | failed (error : CommandError)
  deriving DecidableEq, Repr

def told (quire : Quire) (dirs : Dirs) : Command → Outcome
  | .new raw answer => match (new quire dirs raw answer).2 with
    | .ok name => .created name
    | .error error => .failed error
  | .rm name answer => match (rm quire dirs name answer).2 with
    | .ok () => .removed name.text
    | .error error => .failed error

-- The repositories by what was said of them, and nothing else.
def recorded (names : Finset String) : Outcome → Finset String
  | .created name => insert name names
  | .removed name => names.erase name
  | .failed _ => names

def registered (transcript : List (Command × Outcome)) : Finset String := (transcript.map Prod.snd).foldl recorded ∅

-- The directory a new repository is put in.
def groupDir (quire : Quire) (name : RepoName) : PathBuf :=
  ⟨quire.reposDir.absolute,quire.reposDir.parts ++ (split name.text '/').dropLast⟩

-- What git reads as an option.
def Dashed (arg : String) : Prop := arg.toList.head? = some '-'

instance : DecidablePred Dashed := fun arg => inferInstanceAs (Decidable (arg.toList.head? = some '-'))

-- What git init made is part of a file system, and where it succeeds the
-- directory is there, if the name is not read as an option. A remove_dir_all that
-- fails leaves the directory itself.
structure InitAnswered (quire : Quire) (name : RepoName) (answer : InitAnswer) : Prop where
  documented : InitDocumented quire name answer.added
  named : ∀ path ∈ answer.added, Named path
  within : ∀ path ∈ answer.added, ∀ above, path.parent = some above → above ∈ answer.added ∨ Under above (groupDir quire name)
  made : answer.status = some true → ¬ Dashed name.text → quire.reposDir.join name.text ∈ answer.added

structure RemoveAnswered (quire : Quire) (name : RepoName) (left : List PathBuf) : Prop where
  itself : quire.reposDir.join name.text ∈ left
  within : ∀ path ∈ left, ∀ above, path.parent = some above → Under (quire.reposDir.join name.text) above → above ∈ left

def Answered (quire : Quire) : Command → Prop
  | .new raw answer => ∀ name, RepoName.fromStr (normalized raw) = .ok name → InitAnswered quire name answer
  | .rm name answer => ∀ left, answer.left = some left → RemoveAnswered quire name left

def Session (quire : Quire) (before : Dirs) (action : Command × Outcome) (after : Dirs) : Prop :=
  Answered quire action.1 ∧ perform quire before action.1 = after ∧ told quire before action.1 = action.2

-- A group is no repository, a name no option, and a git init that fails has made
-- no repository.
def Plain (quire : Quire) (action : Command × Outcome) : Prop :=
  PlainGroup action.1 ∧ match action.1 with
    | .new raw answer => ¬ Dashed (normalized raw) ∧
        ∀ name, RepoName.fromStr (normalized raw) = .ok name → answer.status ≠ some true → quire.reposDir.join name.text ∉ answer.added
    | .rm .. => True

section Walking
variable {dirs : Dirs} {quire : Quire}

theorem parent_below (dir : PathBuf) (part : String) : (PathBuf.mk dir.absolute (dir.parts ++ [part])).parent = some dir := by
  rw [PathBuf.parent,if_neg (by simp),List.dropLast_concat]

theorem parent_split {path dir : PathBuf} (above : path.parent = some dir) : ∃ part, path = ⟨dir.absolute,dir.parts ++ [part]⟩ := by
  unfold PathBuf.parent at above
  split at above
  · cases above
  · rename_i some
    cases above
    refine ⟨path.parts.getLast some,?_⟩
    rw [List.dropLast_append_getLast]

theorem closed_above (system : FileSystem dirs) {dir : PathBuf} (below : List String)
    (member : PathBuf.mk dir.absolute (dir.parts ++ below) ∈ dirs) : dir ∈ dirs := by
  induction below using List.reverseRecOn with
  | nil => simpa using member
  | append_singleton below part ih =>
    apply ih
    refine system.closed _ member _ ?_
    rw [← List.append_assoc]
    exact parent_below ⟨dir.absolute,dir.parts ++ below⟩ part

theorem mem_children {dir : PathBuf} : path ∈ children dirs dir ↔ path ∈ dirs ∧ ∃ part, path = ⟨dir.absolute,dir.parts ++ [part]⟩ := by
  rw [children,List.mem_dedup,List.mem_filter,decide_eq_true_eq]
  refine and_congr_right fun _ => ⟨parent_split,?_⟩
  rintro ⟨part,rfl⟩
  exact parent_below dir part

-- What the walk comes by is what is there, at most so many levels down.
theorem mem_walk (system : FileSystem dirs) {dir : PathBuf} (depth : Nat) (present : dir ∈ dirs) :
    path ∈ walk dirs depth dir ↔ path ∈ dirs ∧ ∃ below, below.length ≤ depth ∧ path = ⟨dir.absolute,dir.parts ++ below⟩ := by
  induction depth generalizing dir with
  | zero =>
    rw [walk,List.mem_singleton]
    constructor
    · rintro rfl
      exact ⟨present,[],Nat.le_refl 0,by simp⟩
    · rintro ⟨_,below,short,rfl⟩
      obtain rfl := List.length_eq_zero_iff.mp (Nat.le_zero.mp short)
      simp
  | succ depth ih =>
    rw [walk,List.mem_cons,List.mem_flatMap]
    constructor
    · rintro (rfl | ⟨child,listed,deeper⟩)
      · exact ⟨present,[],Nat.zero_le _,by simp⟩
      · obtain ⟨inDirs,part,rfl⟩ := mem_children.mp listed
        obtain ⟨found,below,short,rfl⟩ := (ih inDirs).mp deeper
        exact ⟨found,part :: below,Nat.succ_le_succ short,by simp⟩
    · rintro ⟨found,below,short,rfl⟩
      cases below with
      | nil => exact .inl (by simp)
      | cons part below =>
        have inDirs : PathBuf.mk dir.absolute (dir.parts ++ [part]) ∈ dirs := by
          refine closed_above system below ?_
          simpa using found
        refine .inr ⟨_,mem_children.mpr ⟨inDirs,part,rfl⟩,(ih inDirs).mpr ⟨found,below,Nat.le_of_succ_le_succ short,by simp⟩⟩

-- The walk comes by each directory once.
theorem walk_nodup (system : FileSystem dirs) {dir : PathBuf} (depth : Nat) (present : dir ∈ dirs) : (walk dirs depth dir).Nodup := by
  induction depth generalizing dir with
  | zero => exact List.nodup_singleton dir
  | succ depth ih =>
    have deeper : ∀ child ∈ children dirs dir, ∀ path ∈ walk dirs depth child, ∃ part below,
        child = ⟨dir.absolute,dir.parts ++ [part]⟩ ∧ path = ⟨dir.absolute,dir.parts ++ part :: below⟩ := by
      intro child listed path walked
      obtain ⟨inDirs,part,rfl⟩ := mem_children.mp listed
      obtain ⟨_,below,_,rfl⟩ := (mem_walk system depth inDirs).mp walked
      exact ⟨part,below,rfl,by simp⟩
    rw [walk,List.nodup_cons,List.nodup_flatMap]
    refine ⟨?_,fun child listed => ih (mem_children.mp listed).1,?_⟩
    · intro again
      obtain ⟨child,listed,walked⟩ := List.mem_flatMap.mp again
      obtain ⟨part,below,_,same⟩ := deeper child listed dir walked
      simpa using congrArg (fun path => path.parts.length) same
    · refine (List.nodup_dedup _).imp_of_mem ?_
      intro one two inOne inTwo different path first second
      obtain ⟨part,below,rfl,rfl⟩ := deeper one inOne path first
      obtain ⟨other,rest,rfl,same⟩ := deeper two inTwo _ second
      have equal : part :: below = other :: rest := List.append_cancel_left (congrArg PathBuf.parts same)
      exact different (by rw [(List.cons.inj equal).1])

end Walking

section Listing
variable {dirs : Dirs} {quire : Quire} {path : PathBuf} {name : RepoName}

-- An entry has the name of a repository exactly where it is its directory.
theorem named_iff (system : FileSystem dirs) (member : path ∈ dirs) :
    named quire.reposDir path = some name ↔ path = quire.reposDir.join name.text := by
  constructor
  · intro found
    obtain ⟨relative,left,accepted⟩ := Option.bind_eq_some_iff.mp found
    unfold leftOf at left
    split at left
    · rename_i under
      obtain ⟨same,below,parts⟩ := under
      obtain rfl := Option.some.inj left
      rw [← parts,List.drop_left] at accepted
      have read : RepoName.fromStr (join "/" below) = .ok name := by
        cases answer : RepoName.fromStr (join "/" below) with
        | error error => rw [answer] at accepted; cases accepted
        | ok other => rw [answer] at accepted; cases accepted; rfl
      have full : below ≠ [] := by
        rintro rfl
        cases read
      have free : ∀ part ∈ below, '/' ∉ part.toList := fun part listed =>
        system.named path member part (by rw [← parts]; exact List.mem_append_right _ listed)
      rw [join_name,fromStr_accepts read,split_join full free,parts,← same]
    · cases left
  · rintro rfl
    rw [join_name,named,leftOf,if_pos ⟨rfl,List.prefix_append _ _⟩,Option.bind_some,List.drop_left,join_split,fromStr_text]
    rfl

theorem present_iff : Present quire dirs name ↔ quire.reposDir.join name.text ∈ dirs := by
  rw [Present,Repo.exists,repo_path]
  simp [isDir]

theorem walked_name (system : FileSystem dirs) (name : RepoName) : quire.reposDir.join name.text ∈ walked quire dirs ↔ Present quire dirs name := by
  rw [present_iff,join_name,walked]
  split
  · rename_i present
    have inDirs : quire.reposDir ∈ dirs := by simpa [isDir] using present
    rw [mem_walk system 2 inDirs]
    exact ⟨fun found => found.1,fun found => ⟨found,_,name.grouped,rfl⟩⟩
  · rename_i absent
    have out : quire.reposDir ∉ dirs := by simpa [isDir] using absent
    exact iff_of_false List.not_mem_nil fun found => out (closed_above system _ found)

theorem walked_dirs (system : FileSystem dirs) : ∀ path ∈ walked quire dirs, path ∈ dirs := by
  intro path member
  unfold walked at member
  split at member
  · rename_i present
    exact ((mem_walk system 2 (by simpa [isDir] using present)).mp member).1
  · cases member

theorem list_texts (quire : Quire) (dirs : Dirs) :
    (list quire dirs).Perm (((walked quire dirs).filterMap (named quire.reposDir)).map RepoName.text) := by
  have sorted := (List.perm_insertionSort (fun a b : Repo => a.name.text ≤ b.name.text)
    (((walked quire dirs).filterMap (named quire.reposDir)).map (Repo.new quire.reposDir))).map fun repo => repo.name.text
  rwa [List.map_map] at sorted

theorem mem_list (system : FileSystem dirs) : text ∈ list quire dirs ↔ ∃ name : RepoName, name.text = text ∧ Present quire dirs name := by
  rw [(list_texts quire dirs).mem_iff,List.mem_map]
  refine exists_congr fun name => ?_
  rw [and_comm]
  refine and_congr_right fun _ => ?_
  rw [List.mem_filterMap,← walked_name system name]
  constructor
  · rintro ⟨path,member,found⟩
    rwa [← (named_iff system (walked_dirs system path member)).mp found]
  · intro member
    exact ⟨_,member,(named_iff system (walked_dirs system _ member)).mpr rfl⟩

-- Each repository is printed once, in the order of the names.
theorem list_ascending (system : FileSystem dirs) : Ascending id (list quire dirs) := by
  have once : (walked quire dirs).Nodup := by
    unfold walked
    split
    · rename_i present
      exact walk_nodup system 2 (by simpa [isDir] using present)
    · exact List.nodup_nil
  have texts : (((walked quire dirs).filterMap (named quire.reposDir)).map RepoName.text).Nodup := by
    rw [List.Nodup,List.pairwise_map,List.pairwise_filterMap]
    refine once.imp_of_mem ?_
    intro one two inOne inTwo different name first other second same
    apply different
    rw [(named_iff system (walked_dirs system one inOne)).mp first,(named_iff system (walked_dirs system two inTwo)).mp second,same]
  refine ascending_of_sorted ?_ (by simpa using (list_texts quire dirs).nodup_iff.mpr texts)
  exact List.pairwise_map.mpr (List.pairwise_insertionSort (fun a b : Repo => a.name.text ≤ b.name.text) _)

end Listing

section Sessions
variable {dirs : Dirs} {quire : Quire} {name : RepoName}

def Agrees (quire : Quire) (dirs : Dirs) (names : Finset String) : Prop :=
  ∀ text, text ∈ names ↔ ∃ name : RepoName, name.text = text ∧ Present quire dirs name

theorem parent_name (quire : Quire) (name : RepoName) : (Repo.new quire.reposDir name).path.parent = some (groupDir quire name) := by
  rw [repo_parts,PathBuf.parent,if_neg (by simp [split_nonempty]),List.dropLast_append_of_ne_nil (split_nonempty _ _)]
  rfl

-- What git init found, once the directories above it were made.
def readied (quire : Quire) (dirs : Dirs) (name : RepoName) : Dirs := createDirAll dirs (groupDir quire name)

-- Everything `new` can do.
theorem new_cases (quire : Quire) (dirs : Dirs) (raw : String) (answer : InitAnswer) :
    (∃ error, new quire dirs raw answer = (dirs,.error error) ∧ (∀ text, error = .exists text ↔
        ∃ name, RepoName.fromStr (normalized raw) = .ok name ∧ name.text = text ∧ Present quire dirs name)) ∨
      ∃ name, RepoName.fromStr (normalized raw) = .ok name ∧ ¬ Present quire dirs name ∧
        ((answer.status = some true ∧ new quire dirs raw answer = (answer.added ++ readied quire dirs name,.ok name.text)) ∨
         (answer.status ≠ some true ∧ ∃ made error, (made = [] ∨ made = answer.added) ∧ (∀ text, error ≠ .exists text) ∧
            new quire dirs raw answer = (made ++ readied quire dirs name,.error error))) := by
  unfold new
  split
  · rename_i error refused
    exact .inl ⟨_,rfl,fun text => ⟨nofun,fun ⟨_,accepted,_⟩ => by rw [refused] at accepted; cases accepted⟩⟩
  · rename_i name accepted
    dsimp only
    have only : ∀ other, RepoName.fromStr (normalized raw) = .ok other → other = name := fun other same => by
      rw [accepted] at same
      exact (Except.ok.inj same).symm
    split
    · rename_i present
      refine .inl ⟨_,rfl,fun text => ⟨?_,?_⟩⟩
      · rintro ⟨⟩
        exact ⟨name,accepted,rfl,present⟩
      · rintro ⟨other,same,rfl,_⟩
        rw [only other same]
    · rename_i absent
      split
      · refine .inl ⟨_,rfl,fun text => ⟨nofun,?_⟩⟩
        rintro ⟨other,same,_,present⟩
        rw [only other same] at present
        exact absurd present absent
      · refine .inr ⟨name,accepted,absent,?_⟩
        rw [parent_name]
        dsimp only
        split
        · rename_i unstarted
          exact .inr ⟨by simp [unstarted],[],.io,.inl rfl,fun _ => nofun,rfl⟩
        · rename_i refused
          exact .inr ⟨by simp [refused],_,.initFailed,.inr rfl,fun _ => nofun,rfl⟩
        · rename_i done
          exact .inl ⟨done,rfl⟩

theorem repo_present (present : Present quire dirs name) : quire.repo (isDir dirs) name.text = .ok (Repo.new quire.reposDir name) := by
  rw [Quire.repo,fromStr_text]
  exact if_pos present

theorem repo_absent (absent : ¬ Present quire dirs name) : quire.repo (isDir dirs) name.text = .error (.repoNotFound name.text) := by
  rw [Quire.repo,fromStr_text]
  exact if_neg absent

-- And `rm`.
theorem rm_cases (quire : Quire) (dirs : Dirs) (name : RepoName) (answer : RemoveAnswer) :
    (¬ Present quire dirs name ∧ rm quire dirs name answer = (dirs,.error (.quire (.repoNotFound name.text)))) ∨
    (Present quire dirs name ∧ answer.left.isSome = true ∧
      rm quire dirs name answer = (removeDirAll dirs (quire.reposDir.join name.text) answer,.error .io)) ∨
    (Present quire dirs name ∧ answer.left = none ∧ ∃ after, rm quire dirs name answer = (after,.ok ()) ∧
      (after = removeDirAll dirs (quire.reposDir.join name.text) answer ∨
        ∃ parent, after = removeDir (removeDirAll dirs (quire.reposDir.join name.text) answer) parent answer)) := by
  unfold rm
  by_cases present : Present quire dirs name
  · rw [repo_present present]
    dsimp only
    rw [repo_path]
    split
    · rename_i failed
      exact .inr (.inl ⟨present,failed,rfl⟩)
    · rename_i done
      refine .inr (.inr ⟨present,by simpa using done,?_⟩)
      split
      · split
        · exact ⟨_,rfl,.inr ⟨_,rfl⟩⟩
        · exact ⟨_,rfl,.inl rfl⟩
      · exact ⟨_,rfl,.inl rfl⟩
  · rw [repo_absent present]
    exact .inl ⟨present,rfl⟩

theorem mem_readied : path ∈ readied quire dirs name ↔ Under path (groupDir quire name) ∨ path ∈ dirs := by
  rw [readied,createDirAll,List.mem_append,List.mem_map]
  refine or_congr_left ⟨?_,?_⟩
  · rintro ⟨front,listed,rfl⟩
    exact ⟨rfl,(List.mem_inits _ _).mp listed⟩
  · rintro ⟨same,front⟩
    exact ⟨path.parts,(List.mem_inits _ _).mpr front,by rw [same]⟩

theorem under_named {dir : PathBuf} (under : Under dir path) (named : Named path) : Named dir :=
  fun part listed => named part (under.2.subset listed)

theorem group_named (rooted : Named quire.reposDir) (name : RepoName) : Named (groupDir quire name) := by
  intro part member
  rcases List.mem_append.mp member with inRoot | inName
  · exact rooted part inRoot
  · exact (name_segments name part (List.mem_of_mem_dropLast inName)).2.1

theorem readied_system (rooted : Named quire.reposDir) (system : FileSystem dirs) (name : RepoName) :
    FileSystem (readied quire dirs name) := by
  constructor
  · intro path member above parent
    rcases mem_readied.mp member with under | before
    · exact mem_readied.mpr (.inl ⟨under.1.trans (parent_under parent).1,(parent_under parent).2.trans under.2⟩)
    · exact mem_readied.mpr (.inr (system.closed path before above parent))
  · intro path member
    rcases mem_readied.mp member with under | before
    · exact under_named under (group_named rooted name)
    · exact system.named path before

theorem added_system (rooted : Named quire.reposDir) (system : FileSystem dirs) (answered : InitAnswered quire name answer) :
    FileSystem (answer.added ++ readied quire dirs name) := by
  have ready := readied_system rooted system name
  constructor
  · intro path member above parent
    rcases List.mem_append.mp member with added | before
    · rcases answered.within path added above parent with inAdded | under
      · exact List.mem_append_left _ inAdded
      · exact List.mem_append_right _ (mem_readied.mpr (.inl under))
    · exact List.mem_append_right _ (ready.closed path before above parent)
  · intro path member
    rcases List.mem_append.mp member with added | before
    · exact answered.named path added
    · exact ready.named path before

theorem removed_system {answer : RemoveAnswer} (system : FileSystem dirs)
    (answered : ∀ left, answer.left = some left → RemoveAnswered quire name left) :
    FileSystem (removeDirAll dirs (quire.reposDir.join name.text) answer) := by
  refine ⟨?_,fun path member => system.named path (removeDirAll_mem path member)⟩
  intro path member above parent
  have inDirs := removeDirAll_mem path member
  by_cases under : Under (quire.reposDir.join name.text) above
  · have deeper : Under (quire.reposDir.join name.text) path :=
      ⟨(parent_under parent).1 ▸ under.1,under.2.trans (parent_under parent).2⟩
    cases kept : answer.left with
    | none => simp [removeDirAll,kept,deeper] at member
    | some left =>
      have left' : path ∈ left := by simpa [removeDirAll,kept,deeper,inDirs] using member
      have above' := (answered left kept).within path left' above parent under
      exact List.mem_filter.mpr ⟨system.closed path inDirs above parent,by simp [kept,above']⟩
  · exact removeDirAll_keeps (system.closed path inDirs above parent) under

theorem removeDir_system {answer : RemoveAnswer} {parent : PathBuf} (system : FileSystem dirs) :
    FileSystem (removeDir dirs parent answer) := by
  refine ⟨?_,fun path member => system.named path (removeDir_mem path member)⟩
  intro path member above up
  have inDirs := removeDir_mem path member
  have aboveDirs := system.closed path inDirs above up
  by_cases empty : answer.parentRemoved ∧ ∀ dir ∈ dirs, Under parent dir → dir = parent
  · rw [removeDir,if_pos empty] at member ⊢
    refine List.mem_filter.mpr ⟨aboveDirs,?_⟩
    simp only [decide_eq_true_eq]
    rintro rfl
    exact absurd (empty.2 path inDirs (parent_under up)) (by simpa using (List.mem_filter.mp member).2)
  · rw [removeDir,if_neg empty]
    exact aboveDirs

-- What ends a name tells it from the directories around it.
theorem end_suffixed (other : RepoName) {front layout : List String} (pieces : split other.text '/' = front ++ layout)
    (free : ∀ segment ∈ layout, ¬ Suffixed segment) : layout = [] := by
  rcases List.eq_nil_or_concat layout with empty | ⟨before,seg,rfl⟩
  · exact empty
  · rw [List.concat_eq_append,← List.append_assoc] at pieces
    exact absurd (last_suffixed other pieces) (free seg (by simp))

theorem group_unnamed (plain : ∀ group seg, split name.text '/' = [group,seg] → ¬ Suffixed group) (other : RepoName) :
    ¬ Under (quire.reposDir.join other.text) (groupDir quire name) := by
  rintro ⟨_,under⟩
  rw [join_name] at under
  have front : split other.text '/' <+: (split name.text '/').dropLast := (List.prefix_append_right_inj _).mp under
  have grouped := name.grouped
  match pieces : split name.text '/' with
  | [] => exact split_nonempty _ _ pieces
  | [_] =>
    rw [pieces] at front
    exact split_nonempty _ _ (List.prefix_nil.mp front)
  | [group,seg] =>
    rw [pieces] at front
    rcases List.prefix_cons_iff.mp front with empty | ⟨rest,whole,nothing⟩
    · exact split_nonempty _ _ empty
    · rw [List.prefix_nil.mp nothing] at whole
      have alone : split other.text '/' = [] ++ [group] := whole
      have none := end_suffixed other alone (by simpa using plain group seg pieces)
      cases none
  | _ :: _ :: _ :: _ =>
    rw [pieces] at grouped
    simp at grouped

-- git init makes no other repository than the one it is told to.
theorem added_only {other : RepoName} (documented : InitDocumented quire name added) (member : quire.reposDir.join other.text ∈ added) :
    other.text = name.text := by
  obtain ⟨root,roots,layout,path,free⟩ := documented _ member
  rw [join_name] at path
  simp only [List.mem_cons,List.not_mem_nil,or_false] at roots
  rcases roots with rfl | rfl
  · rw [join_name] at path
    have pieces : split other.text '/' = split name.text '/' ++ layout := by
      have same := congrArg PathBuf.parts path
      rw [List.append_assoc] at same
      exact List.append_cancel_left same
    rw [end_suffixed other pieces free,List.append_nil] at pieces
    rw [← join_split other.text,pieces,join_split]
  · have pieces : split other.text '/' = [] ++ layout := List.append_cancel_left (congrArg PathBuf.parts path)
    have none := end_suffixed other pieces free
    rw [none] at pieces
    exact absurd pieces (split_nonempty _ _)

-- The directories above a new repository are no repositories themselves.
theorem present_made (plain : ∀ group seg, split name.text '/' = [group,seg] → ¬ Suffixed group) (made : List PathBuf) (other : RepoName) :
    Present quire (made ++ readied quire dirs name) other ↔ quire.reposDir.join other.text ∈ made ∨ Present quire dirs other := by
  rw [present_iff,present_iff,List.mem_append,mem_readied,or_iff_right (group_unnamed plain other)]

-- What holds between two commands.
structure Kept (quire : Quire) (dirs : Dirs) (names : Finset String) : Prop where
  system : FileSystem dirs
  single : OneSuffix quire dirs
  agrees : Agrees quire dirs names

theorem session_step (step : Session quire before (command,outcome) after) : Step quire before command after := by
  obtain ⟨answered,done,_⟩ := step
  refine ⟨?_,done⟩
  cases command with
  | new raw answer => exact fun name accepted => (answered name accepted).documented
  | rm name answer => trivial

theorem agrees_new {names : Finset String} (agrees : Agrees quire dirs names)
    (same : ∀ other, Present quire after other ↔ other.text = name.text ∨ Present quire dirs other) :
    Agrees quire after (insert name.text names) := by
  intro text
  rw [Finset.mem_insert,agrees text]
  constructor
  · rintro (rfl | ⟨other,rfl,present⟩)
    · exact ⟨name,rfl,(same name).mpr (.inl rfl)⟩
    · exact ⟨other,rfl,(same other).mpr (.inr present)⟩
  · rintro ⟨other,rfl,present⟩
    exact ((same other).mp present).imp id fun before => ⟨other,rfl,before⟩

theorem agrees_same {names : Finset String} (agrees : Agrees quire dirs names)
    (same : ∀ other, Present quire after other ↔ Present quire dirs other) : Agrees quire after names := by
  intro text
  rw [agrees text]
  exact exists_congr fun other => and_congr_right fun _ => (same other).symm

theorem agrees_rm {names : Finset String} (agrees : Agrees quire dirs names)
    (same : ∀ other, Present quire after other ↔ other.text ≠ name.text ∧ Present quire dirs other) :
    Agrees quire after (names.erase name.text) := by
  intro text
  rw [Finset.mem_erase,agrees text]
  constructor
  · rintro ⟨different,other,rfl,present⟩
    exact ⟨other,rfl,(same other).mpr ⟨different,present⟩⟩
  · rintro ⟨other,rfl,present⟩
    exact ⟨((same other).mp present).1,other,rfl,((same other).mp present).2⟩

theorem new_kept (rooted : Named quire.reposDir) (kept : Kept quire before names) (plain : Plain quire (.new raw answer,outcome))
    (step : Session quire before (.new raw answer,outcome) after) : Kept quire after (recorded names outcome) := by
  have single := step_oneSuffix kept.single plain.1 (session_step step)
  obtain ⟨answered,rfl,said⟩ := step
  dsimp only at said
  subst said
  obtain ⟨groups,dash,clean⟩ := plain
  rcases new_cases quire before raw answer with ⟨error,done,_⟩ | ⟨name,accepted,absent,outcome⟩
  · refine ⟨?_,single,?_⟩
    · rw [perform,done]
      exact kept.system
    · rw [perform,told,done]
      exact kept.agrees
  · have answered := answered name accepted
    have text := fromStr_accepts accepted
    have groups : ∀ group seg, split name.text '/' = [group,seg] → ¬ Suffixed group := by rw [text]; exact groups
    have added := added_system rooted kept.system answered
    have ready := readied_system rooted kept.system name
    rcases outcome with ⟨success,done⟩ | ⟨failure,made,error,which,_,done⟩
    · refine ⟨by rw [perform,done]; exact added,single,?_⟩
      rw [perform,told,done]
      refine agrees_new kept.agrees fun other => ?_
      rw [present_made groups]
      refine or_congr_left ⟨added_only answered.documented,fun same => ?_⟩
      rw [same]
      exact answered.made success (by rw [text]; exact dash)
    · have system : FileSystem (made ++ readied quire before name) := by
        rcases which with rfl | rfl
        · exact ready
        · exact added
      refine ⟨by rw [perform,done]; exact system,single,?_⟩
      rw [perform,told,done]
      refine agrees_same kept.agrees fun other => ?_
      rw [present_made groups]
      refine or_iff_right fun member => ?_
      rcases which with rfl | rfl
      · cases member
      · have same := added_only answered.documented member
        rw [same] at member
        exact clean name accepted failure member

theorem rm_kept (kept : Kept quire before names) (step : Session quire before (.rm name answer,outcome) after) :
    Kept quire after (recorded names outcome) := by
  have single := step_oneSuffix kept.single (by trivial : PlainGroup (.rm name answer)) (session_step step)
  have spared := fun other => spares_of_apart (apart_of_oneSuffix kept.single) name answer after other (session_step step)
  obtain ⟨answered,rfl,said⟩ := step
  dsimp only at said
  subst said
  have fewer : ∀ other, Present quire (rm quire before name answer).1 other → Present quire before other := by
    intro other present
    rw [present_iff] at present ⊢
    exact rm_mem _ present
  have cleared := removed_system kept.system answered
  rcases rm_cases quire before name answer with ⟨absent,done⟩ | ⟨present,failed,done⟩ | ⟨present,clean,after,done,which⟩
  · refine ⟨?_,single,?_⟩
    · rw [perform,done]
      exact kept.system
    · rw [perform,told,done]
      exact kept.agrees
  · refine ⟨by rw [perform,done]; exact cleared,single,?_⟩
    have itself : Present quire (removeDirAll before (quire.reposDir.join name.text) answer) name := by
      obtain ⟨left,some⟩ := Option.isSome_iff_exists.mp failed
      rw [present_iff]
      exact List.mem_filter.mpr ⟨present_iff.mp present,by simp [some,(answered left some).itself]⟩
    rw [perform,done] at spared
    rw [done] at fewer
    rw [perform,told,done]
    refine agrees_same kept.agrees fun other => ⟨fewer other,fun before => ?_⟩
    by_cases same : other.text = name.text
    · rw [present_iff,same,← present_iff]
      exact itself
    · exact spared other before same
  · have system : FileSystem after := by
      rcases which with rfl | ⟨parent,rfl⟩
      · exact cleared
      · exact removeDir_system cleared
    have gone : ¬ Present quire after name := by
      rw [present_iff]
      intro member
      have listed : quire.reposDir.join name.text ∈ removeDirAll before (quire.reposDir.join name.text) answer := by
        rcases which with rfl | ⟨parent,rfl⟩
        · exact member
        · exact removeDir_mem _ member
      have kept := (List.mem_filter.mp listed).2
      simp [clean,Under] at kept
    rw [perform,done] at spared
    rw [done] at fewer
    refine ⟨by rw [perform,done]; exact system,single,?_⟩
    rw [perform,told,done]
    refine agrees_rm kept.agrees fun other => ⟨fun there => ⟨?_,fewer other there⟩,fun both => spared other both.2 both.1⟩
    intro same
    rw [present_iff,same,← present_iff] at there
    exact gone there

theorem registered_snoc (transcript : List (Command × Outcome)) (action : Command × Outcome) :
    registered (transcript ++ [action]) = recorded (registered transcript) action.2 := by
  rw [registered,List.map_append,List.foldl_append]
  rfl

-- Nothing is below an empty repos directory, and no repository is the directory itself.
theorem empty_kept (system : FileSystem dirs) (empty : Empty quire dirs) : Kept quire dirs ∅ := by
  have nothing : ∀ below, PathBuf.mk quire.reposDir.absolute (quire.reposDir.parts ++ below) ∈ dirs → below = [] := by
    intro below member
    exact List.append_right_eq_self.mp (congrArg PathBuf.parts (empty _ member ⟨rfl,List.prefix_append _ _⟩))
  refine ⟨system,?_,?_⟩
  · rintro dir member below rfl
    rw [nothing below member]
    exact Nat.zero_le 1
  · intro text
    refine iff_of_false (Finset.notMem_empty text) ?_
    rintro ⟨name,_,present⟩
    rw [present_iff,join_name] at present
    exact split_nonempty _ _ (nothing _ present)

theorem run_kept (rooted : Named quire.reposDir) (start : Kept quire before ∅)
    (run : Runs (Guarded (fun _ => Plain quire) (Session quire)) before transcript after) :
    Kept quire after (registered transcript) := by
  induction run with
  | nil => exact start
  | @step _ _ action _ prior step ih =>
    obtain ⟨plain,session⟩ := step
    obtain ⟨command,outcome⟩ := action
    rw [registered_snoc]
    cases command with
    | new raw answer => exact new_kept rooted ih plain session
    | rm name answer => exact rm_kept ih session

theorem kept_list {names : Finset String} (kept : Kept quire dirs names) : list quire dirs = names.sort (· ≤ ·) := by
  have sorted : Ascending id (list quire dirs) := list_ascending kept.system
  have ordered : Ascending id (names.sort (· ≤ ·)) := names.sortedLT_sort.pairwise
  refine ascending_unique ?_ sorted ordered
  refine (List.perm_ext_iff_of_nodup (sorted.imp fun below => ne_of_lt below) (Finset.sort_nodup _ _)).mpr fun text => ?_
  rw [mem_list kept.system,Finset.mem_sort,kept.agrees text]

theorem told_exists {names : Finset String} (kept : Kept quire dirs names) (raw : String) (answer : InitAnswer) (text : String) :
    told quire dirs (.new raw answer) = .failed (.exists text) ↔
      text ∈ names ∧ ∃ name, RepoName.fromStr (normalized raw) = .ok name ∧ name.text = text := by
  rw [kept.agrees text,told]
  rcases new_cases quire dirs raw answer with ⟨error,done,which⟩ | ⟨name,accepted,absent,success | failure⟩
  · rw [done,Outcome.failed.injEq,which text]
    constructor
    · rintro ⟨name,accepted,same,present⟩
      exact ⟨⟨name,same,present⟩,name,accepted,same⟩
    · rintro ⟨⟨other,there,present⟩,name,accepted,same⟩
      rw [present_iff,there,← same,← present_iff] at present
      exact ⟨name,accepted,same,present⟩
  all_goals
    have missing : ¬ ((∃ name : RepoName, name.text = text ∧ Present quire dirs name) ∧
        ∃ name, RepoName.fromStr (normalized raw) = .ok name ∧ name.text = text) := by
      rintro ⟨⟨other,there,present⟩,found,read,same⟩
      rw [accepted] at read
      obtain rfl := Except.ok.inj read
      rw [present_iff,there,← same,← present_iff] at present
      exact absent present
  · rw [success.2]
    exact iff_of_false nofun missing
  · obtain ⟨_,made,error,_,other,done⟩ := failure
    rw [done]
    exact iff_of_false (fun same => other text (Outcome.failed.inj same)) missing

theorem told_missing {names : Finset String} (kept : Kept quire dirs names) (name : RepoName) (answer : RemoveAnswer) :
    told quire dirs (.rm name answer) = .failed (.quire (.repoNotFound name.text)) ↔ name.text ∉ names := by
  have there : name.text ∈ names ↔ Present quire dirs name := by
    rw [kept.agrees name.text]
    constructor
    · rintro ⟨other,same,present⟩
      rwa [present_iff,← same,← present_iff]
    · exact fun present => ⟨name,rfl,present⟩
  rw [there,told]
  rcases rm_cases quire dirs name answer with ⟨absent,done⟩ | ⟨present,_,done⟩ | ⟨present,_,after,done,_⟩
  · rw [done]
    exact iff_of_true rfl absent
  · rw [done]
    exact iff_of_false nofun (not_not.mpr present)
  · rw [done]
    exact iff_of_false nofun (not_not.mpr present)

end Sessions

def sampleMachine : Dirs := [⟨true,[]⟩,⟨true,["var"]⟩,⟨true,["var","quire"]⟩,sampleRepos]

theorem sample_repos : sampleQuire.reposDir = sampleRepos := by decide

theorem sample_rooted : Named sampleQuire.reposDir := by
  rw [sample_repos]
  simp [Named,sampleRepos]

theorem sample_system : FileSystem sampleMachine := by
  constructor
  · intro path member above parent
    simp only [sampleMachine,List.mem_cons,List.not_mem_nil,or_false] at member
    rcases member with rfl | rfl | rfl | rfl <;> revert above <;> simp [PathBuf.parent,sampleRepos,sampleMachine]
  · intro path member
    simp only [sampleMachine,List.mem_cons,List.not_mem_nil,or_false] at member
    rcases member with rfl | rfl | rfl | rfl <;> simp [Named,sampleRepos]

theorem sampleInit_answered (name : RepoName) : InitAnswered sampleQuire name (sampleInit name) := by
  have repo : (sampleQuire.reposDir.join name.text).parent = some (groupDir sampleQuire name) := by
    rw [← repo_path]
    exact parent_name sampleQuire name
  have rooted : Named (sampleQuire.reposDir.join name.text) := by
    intro part member
    rw [join_name] at member
    rcases List.mem_append.mp member with inRoot | inName
    · exact sample_rooted part inRoot
    · exact (name_segments name part inName).2.1
  constructor
  · have accepted := (sampleInit_step name []).1 name (by rw [normalized,if_pos name.suffixed]; exact fromStr_text name)
    exact accepted
  · intro path member
    simp only [sampleInit,List.mem_cons,List.not_mem_nil,or_false] at member
    rcases member with rfl | rfl
    · exact rooted
    · intro part listed
      rcases List.mem_append.mp listed with inRepo | inRefs
      · exact rooted part inRepo
      · obtain rfl := List.mem_singleton.mp inRefs
        decide
  · intro path member above parent
    simp only [sampleInit,List.mem_cons,List.not_mem_nil,or_false] at member
    rcases member with rfl | rfl
    · rw [repo] at parent
      obtain rfl := Option.some.inj parent
      exact .inr ⟨rfl,List.prefix_rfl⟩
    · have absolute : (sampleQuire.reposDir.join name.text).absolute = true := by
        rw [join_name,sample_repos]
        rfl
      have within := parent_below (sampleQuire.reposDir.join name.text) "refs"
      rw [absolute] at within
      rw [within] at parent
      obtain rfl := Option.some.inj parent
      exact .inl (by simp [sampleInit])
  · intro _ _
    simp [sampleInit]

def sampleCreated (name : RepoName) : Command × Outcome := (.new name.text (sampleInit name),.created name.text)

-- A group that ends like a repository is listed as one that nobody created.
example : told sampleQuire sampleMachine (.new sampleInner.text (sampleInit sampleInner)) = .created "a.git/b.git" ∧
    list sampleQuire (sampleMade sampleMachine sampleInner) = ["a.git","a.git/b.git"] := by decide +kernel

end Quire.RepoListing
