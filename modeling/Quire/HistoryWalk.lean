import Quire.CommitPage
import Quire.RunLinks

namespace Quire.HistoryWalk
open Text TextLines JsonTokens KeyedTable RunsTable RepoNames RepoPaths RepoTree RepoListing Traced GitViews GitArguments LogFields
  CommitPage UrlPath Routes RepoLinks TreeLinks WebApp RunLinks

def commitLink (repo sha : String) : String := "/" ++ repo ++ "/commits/" ++ sha

-- What the templates link to the page of a commit.
def commitLinks : Body → List String
  | .repoHome _ page => (page.head.map fun head => commitLink page.repo head.id.sha).toList ++ page.recentChanges.map ChangeRow.commitUrl
  | .log _ page => page.changes.map ChangeRow.commitUrl
  | .tree _ page =>
    match page.page with
    | .tree _ recentChanges => recentChanges.map ChangeRow.commitUrl
    | .file data => [commitLink page.repo data.lastChange.sha]
  | .commit _ page => page.info.parents.map CommitParent.commitUrl
  | .runDetail _ page => [commitLink page.repo page.detail.run.sha]
  | .stylesheet | .fileViewScript | .config _ | .repoList _ | .runList _ _ => []

-- A reader who is at one path follows a link to a commit to the next.
def Opens (site : Site) (user : Option Bytes) (here there : List Bytes) : Prop :=
  ∃ body, respond site ⟨here,user⟩ = .ok body ∧ ∃ link ∈ commitLinks body, visited link = some there

-- The commits of a repository, by their hash.
abbrev History := String → Option Commit

def Parent (history : History) (child parent : String) : Prop := ∃ commit, history child = some commit ∧ parent ∈ commit.parents

def Ancestor (history : History) : String → String → Prop := Relation.ReflTransGen (Parent history)

def hexByte (b : UInt8) : Bool := (48 ≤ b && b ≤ 57) || (97 ≤ b && b ≤ 102)

def Hash (sha : String) : Prop := sha ≠ "" ∧ (bytesOf sha).all hexByte = true

instance : DecidablePred Hash := fun _ => instDecidableAnd

-- The output for `--format=%H%n%s%n%cr`.
def tipLines (tip : Printed) : String := tip.sha ++ "\n" ++ tip.subject ++ "\n" ++ tip.age ++ "\n"

-- How git answers in a repository that has the whole history of its HEAD.
structure Prints (history : History) (head : String) (git : Git) : Prop where
  stored : (history head).isSome = true
  whole : ∀ sha commit, history sha = some commit → ∀ parent ∈ commit.parents, (history parent).isSome = true
  named : ∀ sha commit, history sha = some commit → commit.sha = sha ∧ Hash sha
  resolves : ∀ sha, (history sha).isSome = true → git ["rev-parse",sha] = some (sha ++ "\n")
  shows : ∀ sha commit, history sha = some commit → git ["log","-1",commitFormat,sha] = some commit.printed
  newest : ∃ tip older, tip.sha = head ∧ git ["log","-1","--format=%H%n%s%n%cr"] = some (tipLines tip) ∧
    git ((recentChangesArgs none).map Arg.text) = some (terminated ((tip :: older).map Printed.recentLine)) ∧
    ∀ commit ∈ older, Ancestor history head commit.sha

-- The path of the page of a commit.
def commitPath (name : RepoName) (sha : String) : List Bytes :=
  [encode (bytesOf (listedName name)),bytesOf "commits",encode (bytesOf sha)]

section Reads
variable {git : Git} {history : History} {head sha front : String}

theorem changeRow_link (repo : String) (commit : Printed) :
    (changeRow git repo commit.recentLine).value.commitUrl = commitLink repo commit.sha := by
  obtain ⟨front,behind,split,_,_⟩ := field_read 0 commit.subject.toList commit.age.toList
  have parts : splitn commit.recentLine 3 '|' = [commit.sha,String.ofList front,String.ofList behind] := by
    rw [splitn,recentLine_chars,splitnChars_field (hash_bare commit),split]
    simp [splitnChars]
  simp [changeRow,parts,commitLink]

theorem recent_links (repo : String) (commits : List Printed)
    (printed : git ((recentChangesArgs none).map Arg.text) = some (terminated (commits.map Printed.recentLine))) :
    (RepoView.recentChangesFor git none repo).value.map ChangeRow.commitUrl = commits.map fun commit => commitLink repo commit.sha := by
  rw [RepoView.recentChangesFor,bind_value,run_value,each_value,recent_lines commits printed,List.map_map,List.map_map]
  exact List.map_congr_left fun commit _ => changeRow_link repo commit

theorem tip_lines (tip : Printed) : trim (tipLines tip) ≠ "" ∧ ∃ rest, lines (trim (tipLines tip)) = tip.sha :: rest := by
  have last : '\n' ∉ tip.age.toList := tip.relative.2.2.2
  have text : (tipLines tip).toList = (tip.sha.toList ++ '\n' :: (tip.subject.toList ++ ['\n'])) ++ tip.age.toList ++ ['\n'] := by
    simp [tipLines]
  have trimmed : (trim (tipLines tip)).toList = tip.sha.toList ++ '\n' :: (tip.subject.toList ++ '\n' :: tip.age.toList) := by
    rw [trim,String.toList_ofList,text,trimChars_tail blank_newline,trimChars_solid (line_solid tip (hash_start tip _) (by simp))]
    simp
  have kept : chomp tip.sha.toList = tip.sha.toList := chomp_eq.mpr fun ending =>
    absurd (tip.hash.2 '\r' (List.mem_of_getLast? ending)).2 (by decide)
  constructor
  · intro empty
    have none := congrArg String.toList empty
    rw [trimmed] at none
    simp at none
  · rw [lines,trimmed,linesFrom_line (hash_single tip),kept,List.map_cons,String.ofList_toList]
    exact ⟨_,rfl⟩

theorem headInfo_sha (tip : Printed) (printed : git ["log","-1","--format=%H%n%s%n%cr"] = some (tipLines tip)) :
    ∃ info, (RepoView.headInfo git).value = some info ∧ info.id.sha = tip.sha := by
  obtain ⟨full,rest,read⟩ := tip_lines tip
  have answered := answer_full printed full
  rw [RepoView.headInfo,bind_value,orReturn_value,run_value,List.map_cons,List.map_cons,List.map_cons,List.map_nil]
  change ∃ info, (answer git ["log","-1","--format=%H%n%s%n%cr"]).bind _ = some info ∧ _
  rw [answered,Option.bind_some,read]
  exact ⟨_,rfl,rfl⟩

theorem ancestor_stored (prints : Prints history head git) (ancestor : Ancestor history head sha) : (history sha).isSome = true := by
  induction ancestor with
  | refl => exact prints.stored
  | tail _ parent _ =>
    obtain ⟨commit,found,member⟩ := parent
    exact prints.whole _ commit found _ member

end Reads

section Pages
variable {site : Site} {user : Option Bytes} {history : History} {name : RepoName} {git : Git} {head sha front : String}

theorem hash_tame (hash : Hash sha) : Unchanged (bytesOf sha) := by
  refine tame_unchanged hash.1 fun b member => ?_
  have all := every_byte (fun b => !hexByte b || tame b) (by decide +kernel) b
  simpa [List.all_eq_true.mp hash.2 b member] using all

theorem hash_decoded (hash : Hash sha) : decode (encode (bytesOf sha)) = bytesOf sha := by
  rw [decode_encode,decode_plain _ (hash_tame hash).2]

theorem commits_bytes : bytesOf "/commits/" = 47 :: (bytesOf "commits" ++ [47]) := by decide

theorem commits_unchanged : Unchanged (bytesOf "commits") ∧ encode (bytesOf "commits") = bytesOf "commits" :=
  ⟨tame_unchanged (by decide) (List.all_eq_true.mp (by decide)),by decide⟩

theorem commitLink_visited (plain : Unchanged (bytesOf front)) (hash : Hash sha) :
    visited (commitLink front sha) = some [encode (bytesOf front),bytesOf "commits",encode (bytesOf sha)] := by
  have bytes : bytesOf (commitLink front sha) = base [bytesOf front,bytesOf "commits"] ++ 47 :: bytesOf sha := by
    rw [commitLink,bytes_append,bytes_append,bytes_append,bytes_slash,commits_bytes]
    simp [base]
  rw [visited_behind bytes plain.1.1 (by simpa using ⟨plain.1.2.1,commits_unchanged.1.1.2.1⟩) (hash_tame hash)]
  rw [List.map_cons,List.map_cons,commits_unchanged.2]
  rfl

theorem listed_visited (plain : LinkPlain name) : visited (listedLink name) = some [encode (bytesOf (listedName name))] := by
  obtain ⟨front,text,once,unchanged,_⟩ := plain
  obtain ⟨_,_,path⟩ := segments_unchanged none_settled unchanged
  rw [visited,RepoLinks.link_bytes,listed_front text once,path]
  exact if_neg (Bool.eq_false_iff.mp (stays unchanged.1))

theorem home_dispatch {segment : Bytes} (full : segment ≠ []) (free : segment ∉ taken.map bytesOf) :
    dispatch webRoutes [segment] = some (.page .repoHome,[segment]) := by
  simp only [taken,List.map_cons,List.map_nil,List.mem_cons,List.not_mem_nil,or_false,not_or] at free
  simp [dispatch,webRoutes,publicRoutes,ciRoutes,literal,Route.captures,full,free,bytes_empty]

theorem commits_dispatch {repo commit : Bytes} (full : repo ≠ []) (some : commit ≠ []) :
    dispatch webRoutes [repo,bytesOf "commits",commit] = Option.some (.page .commitView,[repo,commit]) := by
  have other : bytesOf "commits" ≠ bytesOf "tree" ∧ bytesOf "commits" ≠ bytesOf "ci" := by decide
  simp [dispatch,webRoutes,publicRoutes,ciRoutes,literal,Route.captures,full,some,other]

theorem respond_home (plain : Unchanged (bytesOf front)) (free : front ∉ taken) :
    respond site ⟨[encode (bytesOf front)],user⟩ = repoHome site user.isSome front := by
  rw [respond,home_dispatch (encode_full plain.1.1) (plain_taken free plain)]
  dsimp only
  rw [List.mapM_cons,decode_encode,decode_plain _ plain.2,textOf_bytes]
  rfl

theorem respond_commit (plain : Unchanged (bytesOf front)) (hash : Hash sha) :
    respond site ⟨[encode (bytesOf front),bytesOf "commits",encode (bytesOf sha)],user⟩ = WebApp.commitView site user.isSome front sha := by
  rw [respond,commits_dispatch (encode_full plain.1.1) (encode_full (bytes_full hash.1))]
  dsimp only
  rw [List.mapM_cons,List.mapM_cons,decode_encode,decode_plain _ plain.2,textOf_bytes,
    hash_decoded hash,textOf_bytes]
  rfl

-- The page of a commit has its hash and its parents, and links to these.
theorem commit_shown (prints : Prints history head git) {commit : Commit} (found : history sha = some commit) (repo : String) :
    ∃ info, (GitViews.commitView git repo sha).value = some info ∧ info.sha = sha ∧
      info.parents.map (fun parent => parent.id.sha) = commit.parents ∧
      info.parents.map CommitParent.commitUrl = commit.parents.map (commitLink repo) := by
  obtain ⟨same,_⟩ := prints.named sha commit found
  have full := noBlank_solid commit.hashes.1
  rw [same] at full
  have trimmed : trim (sha ++ "\n") = sha := by rw [trim_newline,trim_solid full.2.1]
  have answered : answer git ["rev-parse",sha] = some sha := by
    have whole := answer_full (prints.resolves sha (by rw [found]; rfl)) (by
      rw [trimmed]
      exact fun empty => full.1 (String.toList_eq_nil_iff.mpr empty))
    rwa [trimmed] at whole
  have printed : git ["log","-1",commitFormat,(answer git ["rev-parse",sha]).getD sha] = some commit.printed := by
    rw [answered]
    exact prints.shows sha commit found
  obtain ⟨diff,changeId,value⟩ := commitView_value git repo sha commit printed
  rw [split_words commit.parents commit.hashes.2] at value
  refine ⟨_,value,same,?_,?_⟩
  · rw [List.map_map]
    exact List.map_id' commit.parents
  · rw [List.map_map]
    rfl

theorem home_page (plain : LinkPlain name) (present : Present site.quire site.dirs name)
    (reads : user.isSome = true → site.database.isSome = true)
    (prints : Prints history head (site.git (Repo.new site.quire.reposDir name).path)) :
    ∃ body, ∃ tips : List String, respond site ⟨[encode (bytesOf (listedName name))],user⟩ = .ok body ∧
      commitLinks body = tips.map (commitLink (listedName name)) ∧ head ∈ tips ∧ ∀ sha ∈ tips, Ancestor history head sha := by
  obtain ⟨front,text,once,unchanged,free⟩ := plain
  obtain ⟨tip,older,rfl,printedTip,printed,older'⟩ := prints.newest
  obtain ⟨info,shown,same⟩ := headInfo_sha tip printedTip
  have changes := recent_links front (tip :: older) printed
  have links : ∀ sections readme runs host mirrors, commitLinks (.repoHome sections ⟨front,
      (RepoView.headInfo (site.git (Repo.new site.quire.reposDir name).path)).value,readme,runs,
      (RepoView.recentChangesFor (site.git (Repo.new site.quire.reposDir name).path) none front).value,host,mirrors⟩) =
      (tip.sha :: (tip :: older).map Printed.sha).map (commitLink front) := by
    intro sections readme runs host mirrors
    simp only [commitLinks,changes,shown,Option.map_some,same,Option.toList_some,List.singleton_append,List.map_cons,List.map_map]
    rfl
  have ancestors : ∀ sha ∈ tip.sha :: (tip :: older).map Printed.sha, Ancestor history tip.sha sha := by
    intro sha member
    rcases List.mem_cons.mp member with rfl | later
    · exact .refl
    · obtain ⟨commit,listed,rfl⟩ := List.mem_map.mp later
      rcases List.mem_cons.mp listed with rfl | old
      · exact .refl
      · exact older' commit old
  rw [listed_front text once,respond_home unchanged free,repoHome,inRepo_present text once present]
  cases user with
  | none => exact ⟨_,_,rfl,links _ _ _ _ _,List.mem_cons_self,ancestors⟩
  | some value =>
    obtain ⟨db,database⟩ := Option.isSome_iff_exists.mp (reads rfl)
    rw [database]
    exact ⟨_,_,rfl,links _ _ _ _ _,List.mem_cons_self,ancestors⟩

theorem commit_page (plain : LinkPlain name) (present : Present site.quire site.dirs name)
    (prints : Prints history head (site.git (Repo.new site.quire.reposDir name).path)) {commit : Commit}
    (found : history sha = some commit) :
    ∃ sections info, respond site ⟨commitPath name sha,user⟩ = .ok (.commit sections ⟨listedName name,info⟩) ∧ info.sha = sha ∧
      info.parents.map (fun parent => parent.id.sha) = commit.parents ∧
      info.parents.map CommitParent.commitUrl = commit.parents.map (commitLink (listedName name)) := by
  obtain ⟨front,text,once,unchanged,free⟩ := plain
  obtain ⟨info,value,shown⟩ := commit_shown prints found front
  rw [commitPath,listed_front text once,respond_commit unchanged (prints.named sha commit found).2,WebApp.commitView,
    inRepo_present text once present,value]
  exact ⟨_,info,rfl,shown⟩

-- A page that links to some commits opens the pages of those.
theorem opens_iff (plain : LinkPlain name) {here there : List Bytes} {tips : List String}
    (answered : respond site ⟨here,user⟩ = .ok body) (links : commitLinks body = tips.map (commitLink (listedName name)))
    (hashes : ∀ sha ∈ tips, Hash sha) : Opens site user here there ↔ ∃ sha ∈ tips, there = commitPath name sha := by
  obtain ⟨front,text,once,unchanged,free⟩ := plain
  have visits : ∀ sha ∈ tips, visited (commitLink (listedName name) sha) = some (commitPath name sha) := by
    intro sha member
    rw [commitPath,listed_front text once]
    exact commitLink_visited unchanged (hashes sha member)
  constructor
  · rintro ⟨other,again,link,member,followed⟩
    cases answered.symm.trans again
    rw [links] at member
    obtain ⟨sha,tip,rfl⟩ := List.mem_map.mp member
    rw [visits sha tip] at followed
    exact ⟨sha,tip,(Option.some.inj followed).symm⟩
  · rintro ⟨sha,tip,rfl⟩
    refine ⟨body,answered,commitLink (listedName name) sha,?_,visits sha tip⟩
    rw [links]
    exact List.mem_map_of_mem tip

end Pages

def firstCommit : Commit where
  sha := "bb02"
  parents := []
  subject := "begin"
  body := ""
  author := "Ann Lee"
  email := "ann@example"
  seconds := 1
  hashes := by decide
  single := by decide
  stored := by decide

def secondCommit : Commit where
  sha := "aa01"
  parents := ["bb02"]
  subject := "go on"
  body := ""
  author := "Ann Lee"
  email := "ann@example"
  seconds := 2
  hashes := by decide
  single := by decide
  stored := by decide

def sampleHistory : History := fun sha => if sha = "aa01" then some secondCommit else if sha = "bb02" then some firstCommit else none

def sampleTip : Printed := ⟨"aa01","go on","Ann Lee","2 days ago",⟨by decide,by simp [isWhitespace]⟩,by decide,by decide⟩

def walkGit : Git := fun args =>
  if args = ["rev-parse","aa01"] then some ("aa01" ++ "\n")
  else if args = ["rev-parse","bb02"] then some ("bb02" ++ "\n")
  else if args = ["log","-1",commitFormat,"aa01"] then some secondCommit.printed
  else if args = ["log","-1",commitFormat,"bb02"] then some firstCommit.printed
  else if args = ["log","-1","--format=%H%n%s%n%cr"] then some (tipLines sampleTip)
  else if args = (recentChangesArgs none).map Arg.text then some (terminated ([sampleTip].map Printed.recentLine))
  else none

theorem sample_cases (found : sampleHistory sha = some commit) :
    (sha = "aa01" ∧ commit = secondCommit) ∨ (sha = "bb02" ∧ commit = firstCommit) := by
  unfold sampleHistory at found
  split at found
  · rename_i same
    exact .inl ⟨same,(Option.some.inj found).symm⟩
  · split at found
    · rename_i same
      exact .inr ⟨same,(Option.some.inj found).symm⟩
    · cases found

theorem sample_prints : Prints sampleHistory "aa01" walkGit where
  stored := rfl
  whole := by
    intro sha commit found parent member
    rcases sample_cases found with ⟨_,rfl⟩ | ⟨_,rfl⟩
    · rw [List.mem_singleton.mp member]
      rfl
    · cases member
  named := by
    intro sha commit found
    rcases sample_cases found with ⟨rfl,rfl⟩ | ⟨rfl,rfl⟩
    · exact ⟨rfl,by decide⟩
    · exact ⟨rfl,by decide⟩
  resolves := by
    intro sha stored
    obtain ⟨commit,found⟩ := Option.isSome_iff_exists.mp stored
    rcases sample_cases found with ⟨rfl,_⟩ | ⟨rfl,_⟩ <;> rfl
  shows := by
    intro sha commit found
    rcases sample_cases found with ⟨rfl,rfl⟩ | ⟨rfl,rfl⟩ <;> rfl
  newest := ⟨sampleTip,[],rfl,rfl,rfl,nofun⟩

def walkSite : Site := { idleSite with git := fun _ => walkGit }

end Quire.HistoryWalk
