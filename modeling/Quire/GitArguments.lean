import Quire.GitViews

namespace Quire.GitArguments
open Text Traced GitViews

def Dashed (s : String) : Prop := s.toList.head? = some '-'

instance : DecidablePred Dashed := fun s => inferInstanceAs (Decidable (s.toList.head? = some '-'))

-- No argument from outside the program is where git reads options. `ended`
-- says that a `--` has gone before.
def NonOptionFrom (ended : Bool) : Argv → Prop
  | [] => True
  | .fixed text :: rest => NonOptionFrom (ended || text == "--") rest
  | .dynamic text :: rest => (ended = true ∨ ¬ Dashed text) ∧ NonOptionFrom (ended || text == "--") rest
  | .embedded before text :: rest =>
    (ended = true ∨ (before ≠ "" ∧ ¬ Dashed before)) ∧ NonOptionFrom (ended || before ++ text == "--") rest

def NonOption (argv : Argv) : Prop := NonOptionFrom false argv

-- What the git manual says of the outputs that become arguments again: rev-parse
-- prints object names for a revision, %H and %P are hashes.
structure Documented (git : Git) : Prop where
  revParse : ∀ rev output, git ["rev-parse",rev] = some output → ¬ Dashed rev → ¬ Dashed (trim output)
  parents : ∀ rev output, git ["log","-1",commitFormat,rev] = some output → ¬ Dashed rev →
    ∀ word ∈ splitWhitespace ((lines (trim output)).tail.headD ""), ¬ Dashed word
  changes : ∀ path output, git ((recentChangesArgs path).map Arg.text) = some output →
    ∀ line ∈ lines (trim output), ¬ Dashed ((splitn line 3 '|').headD "")
  lastChange : ∀ path output, git ["log","-1","--format=%H|%s|%an|%cr","HEAD","--",path] = some output →
    ¬ Dashed ((splitn (trim output) 4 '|').headD "")

-- The result of `RepoView::run`, apart from its command.
def answer (git : Git) (args : List String) : Option String :=
  (git args).bind fun output => if trim output = "" then none else some (trim output)

@[simp] theorem run_value (git : Git) (args : Argv) :
    (RepoView.run git args).value = answer git (args.map Arg.text) := rfl

@[simp] theorem always_run (git : Git) (args : Argv) : Always NonOption (RepoView.run git args) ↔ NonOption args :=
  always_issue _ _

theorem answer_output (answered : answer git args = some s) : ∃ output, git args = some output ∧ trim output = s := by
  obtain ⟨output,printed,kept⟩ := Option.bind_eq_some_iff.mp answered
  split at kept
  · cases kept
  · exact ⟨output,printed,Option.some.inj kept⟩

theorem empty_not_dashed : ¬ Dashed "" := by decide

theorem changeId_safe (git : Git) (plain : ¬ Dashed sha) : Always NonOption (RepoView.changeId git sha) := by
  refine (always_orReturn _ _).mpr ⟨?_,fun raw _ => always_pure _⟩
  simp [NonOption,NonOptionFrom,plain]

theorem headOf_safe (documented : Documented git) : Always NonOption (headOf git) := by
  have head : ¬ Dashed ((answer git ["rev-parse","HEAD"]).getD "") := by
    cases answered : answer git ["rev-parse","HEAD"] with
    | none => exact empty_not_dashed
    | some s =>
      obtain ⟨output,printed,rfl⟩ := answer_output answered
      exact documented.revParse "HEAD" output printed (by decide)
  have changeId := changeId_safe git head
  simpa [headOf,NonOption,NonOptionFrom,Arg.text] using changeId

theorem changeRow_safe (git : Git) (repo : String) (plain : ¬ Dashed ((splitn line 3 '|').headD "")) :
    Always NonOption (changeRow git repo line) := by
  have changeId := changeId_safe git plain
  simpa [changeRow] using changeId

theorem recentChangesFor_safe (documented : Documented git) (path : Option String) (repo : String) :
    Always NonOption (RepoView.recentChangesFor git path repo) := by
  rw [RepoView.recentChangesFor,always_bind,always_run,always_each,run_value]
  constructor
  · cases path with
    | none => simp [recentChangesArgs,NonOption,NonOptionFrom]
    | some p => by_cases empty : p = "" <;> simp [recentChangesArgs,NonOption,NonOptionFrom,empty]
  · intro line member
    cases answered : answer git ((recentChangesArgs path).map Arg.text) with
    | none => rw [answered] at member; cases member
    | some s =>
      rw [answered] at member
      obtain ⟨output,printed,rfl⟩ := answer_output answered
      exact changeRow_safe git repo (documented.changes path output printed line member)

theorem commitParent_safe (git : Git) (repo : String) (plain : ¬ Dashed p) :
    Always NonOption (commitParent git repo p) := by
  have changeId := changeId_safe git plain
  simpa [commitParent] using changeId

theorem commitFields_safe (git : Git) (repo : String) (plain : ¬ Dashed fullSha)
    (parents : ∀ word ∈ splitWhitespace ((lines info).tail.headD ""), ¬ Dashed word) :
    Always NonOption (commitFields git repo fullSha info) := by
  unfold commitFields
  split
  · exact always_pure _
  · rename_i sha rest split
    rw [split,List.tail_cons] at parents
    dsimp only
    split
    · exact always_pure _
    · split
      · exact always_pure _
      · have changeId := changeId_safe git plain
        have each := (always_each (splitWhitespace (rest.headD "")) (commitParent git repo)).mpr
          fun p member => commitParent_safe git repo (parents p member)
        have diff : NonOption [.fixed "log",.fixed "-1",.fixed "--patch",.fixed "--format=",.dynamic fullSha] := by
          simp [NonOption,NonOptionFrom,plain]
        exact (always_bind _ _).mpr ⟨(always_run _ _).mpr diff,(always_bind _ _).mpr
          ⟨changeId,(always_bind _ _).mpr ⟨each,always_pure _⟩⟩⟩

-- The first command of the commit page is the one that decides.
theorem commitView_safe_iff (documented : Documented git) (repo sha : String) :
    Always NonOption (commitView git repo sha) ↔ ¬ Dashed sha := by
  have first : NonOption [.fixed "rev-parse",.dynamic sha] ↔ ¬ Dashed sha := by simp [NonOption,NonOptionFrom]
  rw [commitView,always_bind,always_run,first]
  refine ⟨And.left,fun plain => ⟨plain,?_⟩⟩
  have full : ¬ Dashed ((answer git ["rev-parse",sha]).getD sha) := by
    cases answered : answer git ["rev-parse",sha] with
    | none => exact plain
    | some s =>
      obtain ⟨output,printed,rfl⟩ := answer_output answered
      exact documented.revParse sha output printed plain
  refine (always_orReturn _ _).mpr ⟨?_,fun info found => commitFields_safe git repo full ?_⟩
  · have second : NonOption [.fixed "log",.fixed "-1",.fixed commitFormat,
        .dynamic ((answer git ["rev-parse",sha]).getD sha)] := by
      simp [NonOption,NonOptionFrom,full]
    exact (always_run _ _).mpr second
  · obtain ⟨output,printed,rfl⟩ := answer_output found
    exact documented.parents _ output printed full

theorem treeEntry_safe (git : Git) (path : String) (entry : TreeEntryKind × String) :
    Always NonOption (treeEntry git path entry) := by
  refine (always_bind _ _).mpr ⟨?_,always_pure _⟩
  simp [NonOption,NonOptionFrom]

theorem lsTarget_safe (path : String) : NonOption [.fixed "ls-tree",lsTarget path] := by
  unfold lsTarget
  split
  · trivial
  · exact ⟨.inr (by decide),trivial⟩

theorem readTreeData_safe (documented : Documented git) (path : String) :
    Always NonOption (readTreeData git path) := by
  refine (always_bind _ _).mpr ⟨headOf_safe documented,(always_orReturn _ _).mpr ⟨?_,fun lsOut _ => ?_⟩⟩
  · exact (always_run _ _).mpr (lsTarget_safe path)
  · exact (always_bind _ _).mpr ⟨(always_each _ _).mpr fun entry _ => treeEntry_safe git path entry,always_pure _⟩

theorem readTreeData_none (git : Git) (path : String) :
    (readTreeData git path).value = none ↔ answer git ["ls-tree",(lsTarget path).text] = none := by
  have value : (readTreeData git path).value =
      ((RepoView.run git [.fixed "ls-tree",lsTarget path]).orReturn fun lsOut => do
        let raw := ((lines lsOut).filterMap treeLine).insertionSort entryOrder
        let listed ← each raw (treeEntry git path)
        let up := if path = "" then [] else [⟨.up,"..","",""⟩]
        return some (TreeData.mk (headOf git).value.1 (headOf git).value.2 (up ++ listed))).value := rfl
  have listing : (RepoView.run git [.fixed "ls-tree",lsTarget path]).value =
      answer git ["ls-tree",(lsTarget path).text] := rfl
  rw [value,orReturn_value,listing]
  cases answer git ["ls-tree",(lsTarget path).text] with
  | none => simp
  | some s => simp

-- The file page asks for the mode of the bare path once `show` has found a
-- blob there; its other commands carry the path after `HEAD:` or a `--`.
theorem readFileData_safe_iff (documented : Documented git) (path : String) :
    Always NonOption (readFileData git path) ↔ ¬ Dashed path ∨ answer git ["show","HEAD:" ++ path] = none := by
  have mode : NonOption [.fixed "ls-tree",.fixed "--format=%(objectmode)",.fixed "HEAD",.dynamic path] ↔
      ¬ Dashed path := by simp [NonOption,NonOptionFrom]
  have blob : NonOption [.fixed "show",.embedded "HEAD:" path] := ⟨.inr (by decide),trivial⟩
  have size : NonOption [.fixed "cat-file",.fixed "-s",.embedded "HEAD:" path] := ⟨.inr (by decide),trivial⟩
  have raw : NonOption [.fixed "cat-file",.fixed "-p",.embedded "HEAD:" path] := ⟨.inr (by decide),trivial⟩
  have log : NonOption [.fixed "log",.fixed "-1",.fixed "--format=%H|%s|%an|%cr",.fixed "HEAD",.fixed "--",.dynamic path] := by
    simp [NonOption,NonOptionFrom]
  rw [readFileData,always_bind,and_iff_right (headOf_safe documented)]
  refine (always_orReturn _ _).trans ((and_iff_right ((always_run _ _).mpr blob)).trans ?_)
  rw [run_value]
  cases shown : answer git ["show","HEAD:" ++ path] with
  | none => simp [Arg.text,shown]
  | some s =>
    have found : answer git (List.map Arg.text [.fixed "show",.embedded "HEAD:" path]) = some s := shown
    rw [found]
    constructor
    · intro all
      exact .inl (mode.mp ((always_run _ _).mp ((always_bind _ _).mp (all s rfl)).1))
    · intro plain value same
      have bare : ¬ Dashed path := plain.resolve_right (by simp)
      refine (always_bind _ _).mpr ⟨(always_run _ _).mpr (mode.mpr bare),(always_orReturn _ _).mpr
        ⟨(always_run _ _).mpr log,fun logged logFound => ?_⟩⟩
      obtain ⟨output,printed,rfl⟩ := answer_output logFound
      have lastSha := documented.lastChange path output printed
      exact (always_bind _ _).mpr ⟨changeId_safe git lastSha,(always_bind _ _).mpr ⟨(always_run _ _).mpr size,
        (always_orReturn _ _).mpr ⟨(always_run _ _).mpr raw,fun _ _ => always_pure _⟩⟩⟩

theorem treeOrFile_safe_iff (documented : Documented git) (repo path : String) :
    Always NonOption (treeOrFileAtPath git repo path) ↔
      ¬ Dashed path ∨ answer git ["ls-tree","HEAD:" ++ path] ≠ none ∨ answer git ["show","HEAD:" ++ path] = none := by
  rw [treeOrFileAtPath,always_bind,and_iff_right (readTreeData_safe documented path)]
  have listing := readTreeData_none git path
  cases listed : (readTreeData git path).value with
  | some treeData =>
    have changes := recentChangesFor_safe documented (some path) repo
    refine iff_of_true ((always_bind _ _).mpr ⟨changes,always_pure _⟩) ?_
    by_cases empty : path = ""
    · exact .inl (by rw [empty]; exact empty_not_dashed)
    · rw [listed,lsTarget,if_neg empty] at listing
      exact .inr (.inl fun none => by simpa using listing.mpr none)
  | none =>
    have file : Always NonOption (do let file ← readFileData git path; return file.map TreePage.file : View _) ↔
        Always NonOption (readFileData git path) := by
      rw [always_bind]
      exact and_iff_left (always_pure _)
    refine file.trans ((readFileData_safe_iff documented path).trans ?_)
    by_cases empty : path = ""
    · have plain : ¬ Dashed path := by rw [empty]; exact empty_not_dashed
      exact iff_of_true (.inl plain) (.inl plain)
    · rw [lsTarget,if_neg empty] at listing
      have unlisted : ¬ answer git ["ls-tree","HEAD:" ++ path] ≠ none := not_not.mpr (listing.mp listed)
      exact or_congr_right (or_iff_right unlisted).symm

-- The public routes that take a commit segment or a tree path. `/{repo}/tree`
-- is the empty path.
inductive Request where
  | commit (repo sha : String)
  | tree (repo path : String)

def Request.repo : Request → String
  | .commit repo _ | .tree repo _ => repo

def resolveRepoName (slug : String) : String := if endsWith slug ".git" then slug else slug ++ ".git"

-- A repository name the server refuses or does not have runs no git at all.
def Request.respond (site : String → Option Git) (request : Request) : View Unit :=
  match site (resolveRepoName request.repo) with
  | none => pure ()
  | some git =>
    let repoDisplay := trimEndMatches request.repo ".git"
    match request with
    | .commit _ sha => do let _ ← commitView git repoDisplay sha
    | .tree _ path => do let _ ← treeOrFileAtPath git repoDisplay path

def Request.Plain (git : Git) : Request → Prop
  | .commit _ sha => ¬ Dashed sha
  | .tree _ path =>
    ¬ Dashed path ∨ answer git ["ls-tree","HEAD:" ++ path] ≠ none ∨ answer git ["show","HEAD:" ++ path] = none

theorem request_text_is_no_option_iff (site : String → Option Git) (request : Request) (git : Git)
    (accepted : site (resolveRepoName request.repo) = some git) (documented : Documented git) :
    Always NonOption (request.respond site) ↔ request.Plain git := by
  rw [Request.respond,accepted]
  cases request with
  | commit repo sha =>
    have page := commitView_safe_iff documented (trimEndMatches repo ".git") sha
    exact (always_bind _ _).trans ((and_iff_left (always_pure _)).trans page)
  | tree repo path =>
    have page := treeOrFile_safe_iff documented (trimEndMatches repo ".git") path
    exact (always_bind _ _).trans ((and_iff_left (always_pure _)).trans page)

-- A repository with one commit and one file.
def smallRepo : Git := fun args =>
  if args = ["rev-parse","4b825dc"] then some "4b825dc642cb6eb9a060e54bf8d69288fbee4904\n"
  else if args = ["rev-parse","HEAD"] then some "4b825dc642cb6eb9a060e54bf8d69288fbee4904\n"
  else if args = ["log","-1",commitFormat,"4b825dc642cb6eb9a060e54bf8d69288fbee4904"] then
    some "4b825dc642cb6eb9a060e54bf8d69288fbee4904\n\nfirst\n\nann\nann@example.org\n1700000000\n"
  else if args = ["rev-parse","--output=/tmp/x"] then some "--output=/tmp/x\n"
  else none

theorem smallRepo_documented : Documented smallRepo where
  revParse := by
    intro rev output printed plain
    simp only [smallRepo] at printed
    split at printed
    · cases printed; decide +kernel
    · split at printed
      · cases printed; decide +kernel
      · split at printed
        · simp_all
        · split at printed
          · simp_all [Dashed]
          · cases printed
  parents := by
    intro rev output printed plain
    simp only [smallRepo] at printed
    split at printed
    · simp_all
    · split at printed
      · simp_all
      · split at printed
        · cases printed; decide +kernel
        · split at printed
          · simp_all
          · cases printed
  changes := by
    intro path output printed
    have args : (recentChangesArgs path).map Arg.text = "log" :: "-12" :: ((recentChangesArgs path).map Arg.text).drop 2 := rfl
    rw [args] at printed
    simp [smallRepo] at printed
  lastChange := by
    intro path output printed
    simp [smallRepo] at printed

def projSite : String → Option Git := fun name => if name = "proj.git" then some smallRepo else none

theorem projSite_resolves (repo : String) (named : resolveRepoName repo = "proj.git") :
    projSite (resolveRepoName repo) = some smallRepo := by
  rw [projSite,if_pos named]

theorem request_text_is_no_option_plain_commit : Always NonOption ((Request.commit "proj" "4b825dc").respond projSite) :=
  (request_text_is_no_option_iff projSite (.commit "proj" "4b825dc") smallRepo
    (projSite_resolves "proj" (by decide +kernel)) smallRepo_documented).mpr (by unfold Request.Plain; decide)

theorem commit_segment_read_as_option :
    ¬ ∀ (site : String → Option Git) (request : Request) (git : Git),
      site (resolveRepoName request.repo) = some git → Documented git → Always NonOption (request.respond site) := by
  intro always
  have page := always projSite (.commit "proj" "--output=/tmp/x") smallRepo
    (projSite_resolves "proj" (by decide +kernel)) smallRepo_documented
  rw [Request.respond,projSite_resolves _ (by decide +kernel)] at page
  have first := page [.fixed "rev-parse",.dynamic "--output=/tmp/x"] (by decide +kernel)
  simp [NonOption,NonOptionFrom,Dashed] at first

end Quire.GitArguments
