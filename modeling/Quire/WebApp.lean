import Quire.RepoListing
import Quire.RunPage
import Quire.TreeLinks

namespace Quire.WebApp
open Text JsonTokens KeyedTable RunsTable Ingest Secret CiRuntime RepoNames RepoPaths RepoTree UrlPath Routes RepoLinks Traced GitViews

inductive Executor where
  | process
  deriving DecidableEq, Repr

structure GlobalConfig where
  sentry : Option SecretString
  secrets : AList (fun _ : String => SecretString)
  port : Nat
  host : String
  executor : Executor

-- What the handlers read, the same for all requests but for what others write
-- meanwhile. No database stands for statements that fail.
structure Site where
  quire : Quire
  config : GlobalConfig
  dirs : Dirs
  git : PathBuf → Git
  mirrorUrls : Git → String → Option (List String)
  renderMarkdown : String → String
  database : Option Db
  readLog : String → String

-- The segments of the path as they were sent, and the first Remote-User header.
structure Request where
  path : List Bytes
  remoteUser : Option Bytes
  deriving DecidableEq, Repr

inductive Handler where
  | page (page : Page)
  | runList
  | runDetail
  deriving DecidableEq, Repr

def ciRoutes : List (Route × Handler) := [
  ([.capture,literal "ci"],.runList),
  ([.capture,literal "ci",.capture],.runDetail)]

-- `public_router` merged with `ci_router`.
def webRoutes : List (Route × Handler) := publicRoutes.map (fun (route,page) => (route,.page page)) ++ ciRoutes

structure SectionLink where
  label : String
  href : String
  active : Bool
  deriving DecidableEq, Repr

def navSections (repo active : String) (authed : Bool) : List SectionLink :=
  [⟨"overview","/" ++ repo,active == "overview"⟩,
   ⟨"tree","/" ++ repo ++ "/tree",active == "tree"⟩,
   ⟨"log","/" ++ repo ++ "/log",active == "log"⟩] ++
    if authed then [⟨"ci","/" ++ repo ++ "/ci",active == "ci"⟩] else []

structure RunListRow where
  id : String
  outcome : Option String
  sha : String
  refName : String
  createdAt : Int
  dispatchedAt : Option Int
  resolvedAt : Option Int
  deriving DecidableEq, Repr

structure HeadInfo where
  id : CommitId
  description : String
  age : String
  bookmark : String
  deriving DecidableEq, Repr

structure MirrorLink where
  url : String
  label : String
  deriving DecidableEq, Repr

structure ListedRepo where
  name : String
  description : Option String
  deriving DecidableEq, Repr

-- The rows of the config page: a secret is displayed as such.
structure ConfigTemplate where
  port : Nat
  executor : Executor
  sentry : Option String
  secrets : List (String × String)
  deriving DecidableEq, Repr

structure RepoHomeTemplate where
  repo : String
  head : Option HeadInfo
  readmeHtml : Option String
  recentRuns : List RunListRow
  recentChanges : List ChangeRow
  cloneHost : String
  mirrors : List MirrorLink
  deriving DecidableEq, Repr

structure LogTemplate where
  repo : String
  changes : List ChangeRow
  bookmark : String
  head : CommitId
  deriving DecidableEq, Repr

structure TreeTemplate where
  repo : String
  crumbs : List TreeLinks.Crumb
  path : String
  page : TreePage
  deriving DecidableEq, Repr

structure CommitTemplate where
  repo : String
  info : CommitInfo
  deriving DecidableEq, Repr

structure RunListTemplate where
  repo : String
  runs : List RunListRow
  deriving DecidableEq, Repr

structure RunDetailTemplate where
  repo : String
  detail : RunPage.RunDetailTemplate
  deriving DecidableEq, Repr

-- A page of a repository has the links to its sections, the others have none.
inductive Body where
  | stylesheet
  | fileViewScript
  | config (page : ConfigTemplate)
  | repoList (repos : List ListedRepo)
  | repoHome (sections : List SectionLink) (page : RepoHomeTemplate)
  | log (sections : List SectionLink) (page : LogTemplate)
  | tree (sections : List SectionLink) (page : TreeTemplate)
  | commit (sections : List SectionLink) (page : CommitTemplate)
  | runList (sections : List SectionLink) (page : RunListTemplate)
  | runDetail (sections : List SectionLink) (page : RunDetailTemplate)

def Body.sections : Body → Option (List SectionLink)
  | .stylesheet | .fileViewScript | .config _ | .repoList _ => none
  | .repoHome sections _ | .log sections _ | .tree sections _ | .commit sections _
  | .runList sections _ | .runDetail sections _ => some sections

inductive Response where
  | ok (body : Body)
  | permanentRedirect (location : String)
  | badRequest
  | unauthorized
  | notFound
  | internal

def displaySecret (_ : SecretString) : String := "[secret]"

def sortedSecrets (config : GlobalConfig) : List (String × String) :=
  (config.secrets.entries.insertionSort fun a b => a.1 ≤ b.1).map fun entry => (entry.1,displaySecret entry.2)

def config (site : Site) : Response :=
  .ok (.config ⟨site.config.port,site.config.executor,site.config.sentry.map displaySecret,sortedSecrets site.config⟩)

-- A repository that has no commit has no description.
def listedRepo (site : Site) (repo : Repo) : ListedRepo :=
  ⟨trimEndMatches repo.name.text ".git",
    if repo.exists (isDir site.dirs) then
      (RepoView.run (site.git repo.path) [.fixed "log",.fixed "-1",.fixed "--format=%s"]).value
    else none⟩

def repoList (site : Site) : Response := .ok (.repoList ((RepoListing.repos site.quire site.dirs).map (listedRepo site)))

-- ORDER BY created_at DESC LIMIT 50
def loadRuns (db : Db) (repo : String) : List RunRow :=
  ((db.runs.rows.filter fun run => run.repo == repo).insertionSort fun a b => b.createdAt ≤ a.createdAt).take 50

def runListRow (run : RunRow) : RunListRow :=
  ⟨run.id,run.outcome,run.sha,run.refName,run.createdAt,run.dispatchedAt,run.resolvedAt⟩

def RepoView.headInfo (git : Git) : View (Option HeadInfo) := do
  let bookmark ← RepoView.run git [.fixed "symbolic-ref",.fixed "--short",.fixed "HEAD"]
  (RepoView.run git [.fixed "log",.fixed "-1",.fixed "--format=%H%n%s%n%cr"]).orReturn fun log =>
    match lines log with
    | [] => pure none
    | sha :: rest => do
      let changeId ← RepoView.changeId git sha
      return some ⟨⟨sha,changeId⟩,rest.headD "",rest.getD 1 "",bookmark.getD "main"⟩

def RepoView.readme (renderMarkdown : String → String) (git : Git) : List String → View (Option String)
  | [] => pure none
  | candidate :: rest => do
    match ← RepoView.run git [.fixed "show",.fixed candidate] with
    | some raw => return some (renderMarkdown raw)
    | none => RepoView.readme renderMarkdown git rest

def readmes : List String := ["HEAD:README.md","HEAD:readme.md","HEAD:README"]

def MirrorLink.new (url : String) : MirrorLink :=
  let stripped := ((stripPrefix url "https://").or (stripPrefix url "http://")).getD url
  ⟨url,trimEndMatches (trimEndMatches stripped ".git") "/"⟩

-- A config that cannot be read yields no links.
def RepoView.mirrors (site : Site) (git : Git) (head : Option HeadInfo) : List MirrorLink :=
  match head with
  | none => []
  | some head => match site.mirrorUrls git head.id.sha with
    | some urls => (urls.map MirrorLink.new).insertionSort fun a b => a.label ≤ b.label
    | none => []

def refused : QuireError → Response
  | .repoNotFound _ => .notFound
  | .repoName _ => .internal

-- What the handlers of a repository begin with.
def inRepo (site : Site) (repo : String) (next : String → Repo → Response) : Response :=
  match site.quire.repo (isDir site.dirs) (resolveRepoName repo) with
  | .error error => refused error
  | .ok found => next (trimEndMatches repo ".git") found

def repoHome (site : Site) (authed : Bool) (repo : String) : Response :=
  inRepo site repo fun repoDisplay gitRepo =>
    let git := site.git gitRepo.path
    let page := fun recentRuns =>
      let head := (RepoView.headInfo git).value
      .ok (.repoHome (navSections repoDisplay "overview" authed)
        ⟨repoDisplay,head,(RepoView.readme site.renderMarkdown git readmes).value,recentRuns,
          (RepoView.recentChangesFor git none repoDisplay).value,site.config.host,RepoView.mirrors site git head⟩)
    if authed then
      match site.database with
      | none => .internal
      | some db => page (((loadRuns db (resolveRepoName repo)).take 5).map runListRow)
    else page []

def repoHomeSlash (repo : String) : Response := .permanentRedirect ("/" ++ repo)

def logView (site : Site) (authed : Bool) (repo : String) : Response :=
  inRepo site repo fun repoDisplay gitRepo =>
    let git := site.git gitRepo.path
    let (bookmark,head) := (headOf git).value
    .ok (.log (navSections repoDisplay "log" authed)
      ⟨repoDisplay,(RepoView.recentChangesFor git none repoDisplay).value,bookmark,head⟩)

def treeOrFileAtPath (site : Site) (repo path : String) (authed : Bool) : Response :=
  inRepo site repo fun repoDisplay gitRepo =>
    match (GitViews.treeOrFileAtPath (site.git gitRepo.path) repoDisplay path).value with
    | none => .notFound
    | some page => .ok (.tree (navSections repoDisplay "tree" authed) ⟨repoDisplay,TreeLinks.pathCrumbs repoDisplay path,path,page⟩)

def treeView (site : Site) (authed : Bool) (repo : String) : Response := treeOrFileAtPath site repo "" authed

def treeViewPath (site : Site) (authed : Bool) (repo path : String) : Response := treeOrFileAtPath site repo path authed

def commitView (site : Site) (authed : Bool) (repo sha : String) : Response :=
  inRepo site repo fun repoDisplay gitRepo =>
    match (GitViews.commitView (site.git gitRepo.path) repoDisplay sha).value with
    | none => .notFound
    | some info => .ok (.commit (navSections repoDisplay "log" authed) ⟨repoDisplay,info⟩)

def runList (site : Site) (repo : String) : Response :=
  inRepo site repo fun repoDisplay _ =>
    match site.database with
    | none => .internal
    | some db => .ok (.runList (navSections repoDisplay "ci" true)
      ⟨repoDisplay,(loadRuns db (resolveRepoName repo)).map runListRow⟩)

def runDir (site : Site) (repoName runId : String) : String :=
  joinPath (joinPath (joinPath (PathBuf.display site.quire.baseDir) "runs") repoName) runId

-- A row that is not there is QueryReturnedNoRows.
def runDetail (site : Site) (repo runId : String) : Response :=
  inRepo site repo fun repoDisplay _ =>
    match site.database with
    | none => .internal
    | some db =>
      let repoName := resolveRepoName repo
      match RunPage.runDetail site.readLog (runDir site repoName runId) db repoName runId with
      | none => .notFound
      | some detail => .ok (.runDetail (navSections repoDisplay "ci" true) ⟨repoDisplay,detail⟩)

-- A handler and what its route has captured, decoded.
def handle (site : Site) (authed : Bool) : Handler → List String → Response
  | .page .stylesheet,_ => .ok .stylesheet
  | .page .fileViewScript,_ => .ok .fileViewScript
  | .page .config,_ => config site
  | .page .repoList,_ => repoList site
  | .page .repoHome,[repo] => repoHome site authed repo
  | .page .repoHomeSlash,[repo] => repoHomeSlash repo
  | .page .treeView,[repo] => treeView site authed repo
  | .page .treeViewPath,[repo,path] => treeViewPath site authed repo path
  | .page .logView,[repo] => logView site authed repo
  | .page .commitView,[repo,sha] => commitView site authed repo sha
  | .runList,[repo] => runList site repo
  | .runDetail,[repo,runId] => runDetail site repo runId
  | _,_ => .notFound

-- HeaderValue::to_str: visible ASCII, blanks and tabs.
def toStr (value : Bytes) : Bool := value.all fun b => b == 9 || (32 ≤ b && b < 127)

-- What `require_auth` lets through.
def admitted (remoteUser : Option Bytes) : Bool := remoteUser.any toStr

-- The routes that `require_auth` is a layer of.
def Handler.guarded : Handler → Bool
  | .page _ => false
  | .runList | .runDetail => true

-- A capture that is not UTF-8 is refused when it is extracted, behind the layer.
def respond (site : Site) (request : Request) : Response :=
  match dispatch webRoutes request.path with
  | none => .notFound
  | some (handler,captured) =>
    if handler.guarded && !admitted request.remoteUser then .unauthorized
    else match captured.mapM fun segment => textOf (decode segment) with
      | none => .badRequest
      | some args => handle site request.remoteUser.isSome handler args

-- What differs between two such sites is not for the public: the runs and their
-- logs, and the values of the secrets.
structure Public (one two : Site) : Prop where
  quire : one.quire = two.quire
  dirs : one.dirs = two.dirs
  git : one.git = two.git
  mirrorUrls : one.mirrorUrls = two.mirrorUrls
  renderMarkdown : one.renderMarkdown = two.renderMarkdown
  port : one.config.port = two.config.port
  host : one.config.host = two.config.host
  executor : one.config.executor = two.config.executor
  sentry : one.config.sentry.isSome = two.config.sentry.isSome
  secrets : one.config.secrets.keys.Perm two.config.secrets.keys

-- The paths of the runs, as they are sent.
def CiPath (path : List Bytes) : Prop :=
  ∃ repo, repo ≠ [] ∧ (path = [repo,bytesOf "ci"] ∨ ∃ runId, runId ≠ [] ∧ path = [repo,bytesOf "ci",runId])

def ciLinked (sections : List SectionLink) : Bool := sections.any fun link => link.label == "ci"

section Access
variable {site one two : Site} {path : List Bytes} {body : Body} {user : Option Bytes}

theorem sortedSecrets_keys (config : GlobalConfig) :
    sortedSecrets config = (config.secrets.keys.insertionSort (· ≤ ·)).map fun key => (key,"[secret]") := by
  have sorted := List.map_insertionSort (r := fun a b : Sigma (fun _ : String => SecretString) => a.1 ≤ b.1) (s := (· ≤ ·))
    Sigma.fst config.secrets.entries fun _ _ _ _ => Iff.rfl
  have keys : config.secrets.keys = config.secrets.entries.map Sigma.fst := rfl
  rw [keys,← sorted,List.map_map]
  rfl

theorem sorted_perm {left right : List String} (same : left.Perm right) :
    left.insertionSort (· ≤ ·) = right.insertionSort (· ≤ ·) := by
  refine List.Perm.eq_of_pairwise (fun _ _ _ _ below above => le_antisymm below above) ?_ ?_ ?_
  · exact List.pairwise_insertionSort _ _
  · exact List.pairwise_insertionSort _ _
  · exact ((List.perm_insertionSort _ _).trans same).trans (List.perm_insertionSort _ _).symm

theorem config_public (alike : Public one two) : config one = config two := by
  have sentry : one.config.sentry.map displaySecret = two.config.sentry.map displaySecret := by
    have same := alike.sentry
    cases first : one.config.sentry <;> cases second : two.config.sentry <;> rw [first,second] at same <;> first | rfl | cases same
  rw [config,config,alike.port,alike.executor,sentry,sortedSecrets_keys,sortedSecrets_keys,sorted_perm alike.secrets]

-- Without a header every page of a repository is made of what is public.
theorem page_public (alike : Public one two) (page : Page) (args : List String) :
    handle one false (.page page) args = handle two false (.page page) args := by
  have whole := config_public alike
  obtain ⟨quire,config,dirs,git,mirrorUrls,renderMarkdown,database,readLog⟩ := one
  obtain ⟨_,other,_,_,_,_,db,logs⟩ := two
  obtain ⟨rfl,rfl,rfl,rfl,rfl,_,host,_,_,_⟩ := alike
  cases page with
  | config => exact whole
  | repoHome =>
    match args with
    | [repo] =>
      change repoHome _ false repo = repoHome _ false repo
      unfold repoHome
      dsimp only at host ⊢
      rw [host]
      rfl
    | [] | _ :: _ :: _ => rfl
  | treeViewPath | commitView =>
    match args with
    | [_,_] => rfl
    | [] | [_] | _ :: _ :: _ :: _ => rfl
  | repoHomeSlash | treeView | logView =>
    match args with
    | [_] => rfl
    | [] | _ :: _ :: _ => rfl
  | stylesheet | fileViewScript | repoList => rfl

theorem respond_public (alike : Public one two) (path : List Bytes) : respond one ⟨path,none⟩ = respond two ⟨path,none⟩ := by
  unfold respond
  split
  · rfl
  · rename_i handler captured found
    cases handler with
    | runList | runDetail => rfl
    | page page =>
      split
      · rfl
      · split
        · rfl
        · exact page_public alike page _

theorem navSections_ci (repo active : String) (authed : Bool) : ciLinked (navSections repo active authed) = authed := by
  have fixed : ("overview" == "ci") = false ∧ ("tree" == "ci") = false ∧ ("log" == "ci") = false := by decide
  cases authed <;> simp [ciLinked,navSections,fixed]

-- What a handler may answer a reader: the links of a page are those for him, and
-- it is not the handler that refuses.
def Fitting (authed : Bool) : Response → Prop
  | .ok body => ∀ sections ∈ body.sections, ciLinked sections = authed
  | .unauthorized => False
  | .permanentRedirect _ | .badRequest | .notFound | .internal => True

theorem nav_fitting {body : Body} (nav : body.sections = some (navSections repo active authed)) : Fitting authed (.ok body) := by
  intro sections member
  rw [nav] at member
  obtain rfl := Option.mem_some.mp member
  exact navSections_ci repo active authed

theorem inRepo_fitting {next : String → Repo → Response} (each : ∀ display found, Fitting authed (next display found)) :
    Fitting authed (inRepo site repo next) := by
  unfold inRepo
  split
  · rename_i error _
    cases error <;> trivial
  · exact each _ _

theorem repoHome_fitting (site : Site) (authed : Bool) (repo : String) : Fitting authed (repoHome site authed repo) := by
  refine inRepo_fitting fun display found => ?_
  cases authed with
  | false => exact nav_fitting rfl
  | true =>
    dsimp only
    rw [if_pos rfl]
    split
    · trivial
    · exact nav_fitting rfl

theorem tree_fitting (site : Site) (repo path : String) (authed : Bool) : Fitting authed (treeOrFileAtPath site repo path authed) := by
  refine inRepo_fitting fun display found => ?_
  split
  · trivial
  · exact nav_fitting rfl

theorem commit_fitting (site : Site) (authed : Bool) (repo sha : String) : Fitting authed (commitView site authed repo sha) := by
  refine inRepo_fitting fun display found => ?_
  split
  · trivial
  · exact nav_fitting rfl

theorem runList_fitting (site : Site) (repo : String) : Fitting true (runList site repo) := by
  refine inRepo_fitting fun display found => ?_
  split
  · trivial
  · exact nav_fitting rfl

theorem runDetail_fitting (site : Site) (repo runId : String) : Fitting true (runDetail site repo runId) := by
  refine inRepo_fitting fun display found => ?_
  split
  · trivial
  · dsimp only
    split
    · trivial
    · exact nav_fitting rfl

theorem handle_fitting (reader : handler.guarded = true → authed = true) (site : Site) (args : List String) :
    Fitting authed (handle site authed handler args) := by
  unfold handle
  split
  · nofun
  · nofun
  · nofun
  · nofun
  · exact repoHome_fitting site authed _
  · trivial
  · exact tree_fitting site _ "" authed
  · exact tree_fitting site _ _ authed
  · exact inRepo_fitting fun display found => nav_fitting rfl
  · exact commit_fitting site authed _ _
  · rw [reader rfl]
    exact runList_fitting site _
  · rw [reader rfl]
    exact runDetail_fitting site _ _
  · trivial

theorem admitted_present (admits : admitted user = true) : user.isSome = true := by
  cases user with
  | none => cases admits
  | some => rfl

-- What is behind the layer, for a reader it lets through.
theorem respond_cases (site : Site) (path : List Bytes) (user : Option Bytes) :
    (∃ handler captured, dispatch webRoutes path = some (handler,captured) ∧ handler.guarded = true ∧
      admitted user = false ∧ respond site ⟨path,user⟩ = .unauthorized) ∨
    ((∀ handler captured, dispatch webRoutes path = some (handler,captured) → handler.guarded = true → admitted user = true) ∧
      Fitting user.isSome (respond site ⟨path,user⟩)) := by
  unfold respond
  cases found : dispatch webRoutes path with
  | none => exact .inr ⟨nofun,trivial⟩
  | some entry =>
    obtain ⟨handler,captured⟩ := entry
    dsimp only
    by_cases refuses : (handler.guarded && !admitted user) = true
    · rw [if_pos refuses]
      simp only [Bool.and_eq_true,Bool.not_eq_true'] at refuses
      exact .inl ⟨handler,captured,rfl,refuses.1,refuses.2,rfl⟩
    · rw [if_neg refuses]
      have reader : handler.guarded = true → admitted user = true := fun guarded => by simpa [guarded] using refuses
      refine .inr ⟨?_,?_⟩
      · intro other _ same
        cases same
        exact reader
      · split
        · trivial
        · exact handle_fitting (fun guarded => admitted_present (reader guarded)) site _

theorem captures_first {parts : Route} (matched : Route.captures (.capture :: parts) path = some captured) :
    ∃ segment rest later, path = segment :: rest ∧ segment ≠ [] ∧ captured = segment :: later ∧
      Route.captures parts rest = some later := by
  cases path with
  | nil => cases matched
  | cons segment rest =>
    rw [Route.captures] at matched
    split at matched
    · cases matched
    · rename_i full
      obtain ⟨later,found,same⟩ := Option.map_eq_some_iff.mp matched
      exact ⟨segment,rest,later,rfl,full,same.symm,found⟩

theorem captures_literal {text : Bytes} {parts : Route} (matched : Route.captures (.literal text :: parts) path = some captured) :
    ∃ rest, path = text :: rest ∧ Route.captures parts rest = some captured := by
  cases path with
  | nil => cases matched
  | cons segment rest =>
    rw [Route.captures] at matched
    split at matched
    · rename_i same
      exact ⟨rest,by rw [same],matched⟩
    · cases matched

theorem captures_end (matched : Route.captures [] path = some captured) : path = [] ∧ captured = [] := by
  cases path with
  | nil => exact ⟨rfl,(Option.some.inj matched).symm⟩
  | cons => cases matched

-- The two routes behind the layer, by what they take.
theorem guarded_captured (found : dispatch webRoutes path = some (handler,captured)) (guarded : handler.guarded = true) :
    ∃ repo, repo ≠ [] ∧ ((handler = .runList ∧ path = [repo,bytesOf "ci"] ∧ captured = [repo]) ∨
      ∃ runId, runId ≠ [] ∧ handler = .runDetail ∧ path = [repo,bytesOf "ci",runId] ∧ captured = [repo,runId]) := by
  obtain ⟨entry,member,capture⟩ := List.exists_of_findSome?_eq_some found
  obtain ⟨_,matched,same⟩ := Option.map_eq_some_iff.mp capture
  cases same
  rcases List.mem_append.mp member with inPublic | inCi
  · obtain ⟨_,_,rfl⟩ := List.mem_map.mp inPublic
    cases guarded
  · simp only [ciRoutes,List.mem_cons,List.not_mem_nil,or_false] at inCi
    rcases inCi with rfl | rfl
    · obtain ⟨repo,behind,_,rfl,full,rfl,second⟩ := captures_first matched
      obtain ⟨_,rfl,ended⟩ := captures_literal second
      obtain ⟨rfl,rfl⟩ := captures_end ended
      exact ⟨repo,full,.inl ⟨rfl,rfl,rfl⟩⟩
    · obtain ⟨repo,behind,_,rfl,full,rfl,second⟩ := captures_first matched
      obtain ⟨_,rfl,third⟩ := captures_literal second
      obtain ⟨runId,_,_,rfl,some,rfl,ended⟩ := captures_first third
      obtain ⟨rfl,rfl⟩ := captures_end ended
      exact ⟨repo,full,.inr ⟨runId,some,rfl,rfl,rfl⟩⟩

theorem runList_dispatch {repo : Bytes} (full : repo ≠ []) : dispatch webRoutes [repo,bytesOf "ci"] = some (.runList,[repo]) := by
  have ci : bytesOf "ci" ≠ [] ∧ bytesOf "ci" ≠ bytesOf "tree" ∧ bytesOf "ci" ≠ bytesOf "log" := by decide
  simp [dispatch,webRoutes,publicRoutes,ciRoutes,literal,Route.captures,full,ci,bytes_empty]

theorem runDetail_dispatch {repo runId : Bytes} (full : repo ≠ []) (some : runId ≠ []) :
    dispatch webRoutes [repo,bytesOf "ci",runId] = Option.some (.runDetail,[repo,runId]) := by
  have ci : bytesOf "ci" ≠ bytesOf "tree" ∧ bytesOf "ci" ≠ bytesOf "commits" := by decide
  simp [dispatch,webRoutes,publicRoutes,ciRoutes,literal,Route.captures,full,some,ci]

theorem ci_paths : (∃ handler captured, dispatch webRoutes path = some (handler,captured) ∧ handler.guarded = true) ↔ CiPath path := by
  constructor
  · rintro ⟨handler,captured,found,guarded⟩
    obtain ⟨repo,full,⟨_,same,_⟩ | ⟨runId,some,_,same,_⟩⟩ := guarded_captured found guarded
    · exact ⟨repo,full,.inl same⟩
    · exact ⟨repo,full,.inr ⟨runId,some,same⟩⟩
  · rintro ⟨repo,full,rfl | ⟨runId,some,rfl⟩⟩
    · exact ⟨.runList,[repo],runList_dispatch full,rfl⟩
    · exact ⟨.runDetail,[repo,runId],runDetail_dispatch full some,rfl⟩

end Access

def sampleRun : RunRow := ⟨"0194f3a5","shop.git","refs/heads/main","4b825dc",0,0,none,none,none,none,none⟩

def sampleSite (rows : List RunRow) (keyed : (rows.map RunRow.id).Nodup) (checked : ∀ row ∈ rows, row.Checks) : Site where
  quire := ⟨⟨true,["srv"]⟩⟩
  config := ⟨none,∅,3000,"quire",.process⟩
  dirs := [⟨true,["srv","repos","shop.git"]⟩]
  git _ _ := none
  mirrorUrls _ _ := none
  renderMarkdown := id
  database := some ⟨⟨rows,keyed,checked⟩,⟨[],List.nodup_nil,nofun⟩,⟨[],List.nodup_nil,nofun⟩,nofun,nofun⟩
  readLog _ := ""

def idleSite : Site := sampleSite [] List.nodup_nil nofun

def busySite : Site := sampleSite [sampleRun] (List.nodup_singleton _) (by simp [sampleRun,RunRow.checks_iff])

def homeRuns : Response → List RunListRow
  | .ok (.repoHome _ page) => page.recentRuns
  | _ => []

theorem sample_public : Public idleSite busySite := ⟨rfl,rfl,rfl,rfl,rfl,rfl,rfl,rfl,rfl,List.Perm.refl _⟩

-- Whatever the header says, the home page has the runs.
theorem sample_home (value : Bytes) : homeRuns (respond idleSite ⟨[bytesOf "shop"],some value⟩) = [] ∧
    homeRuns (respond busySite ⟨[bytesOf "shop"],some value⟩) = [runListRow sampleRun] := by
  have routed : dispatch webRoutes [bytesOf "shop"] = some (.page .repoHome,[bytesOf "shop"]) := by decide
  have slug : textOf (decode (bytesOf "shop")) = some "shop" := by decide
  have answer : ∀ site, respond site ⟨[bytesOf "shop"],some value⟩ = repoHome site true "shop" := by
    intro site
    rw [respond,routed]
    dsimp only
    rw [List.mapM_cons,slug]
    rfl
  rw [answer,answer]
  exact ⟨by decide +kernel,by decide +kernel⟩

-- Who sees what: the public pages are the same for all runs, logs and secrets
-- exactly for a reader without a header; the pages of the runs are for those
-- whose header is readable text; the link to them is shown with any header.
theorem web_access (user : Option Bytes) :
    ((∀ one two path, Public one two → respond one ⟨path,user⟩ = respond two ⟨path,user⟩) ↔ user = none) ∧
    (∀ site path, respond site ⟨path,user⟩ = .unauthorized ↔ CiPath path ∧ admitted user = false) ∧
    (∀ site path body, respond site ⟨path,user⟩ = .ok body → ∀ sections ∈ body.sections, ciLinked sections = user.isSome) := by
  refine ⟨⟨?_,?_⟩,?_,?_⟩
  · intro blind
    cases user with
    | none => rfl
    | some value =>
      have same := congrArg homeRuns (blind idleSite busySite [bytesOf "shop"] sample_public)
      rw [(sample_home value).1,(sample_home value).2] at same
      cases same
  · rintro rfl one two path alike
    exact respond_public alike path
  · intro site path
    rw [← ci_paths]
    rcases respond_cases site path user with ⟨handler,captured,found,guarded,outside,refused⟩ | ⟨reader,fitting⟩
    · exact iff_of_true refused ⟨⟨handler,captured,found,guarded⟩,outside⟩
    · refine iff_of_false ?_ ?_
      · intro refused
        rw [refused] at fitting
        exact fitting
      · rintro ⟨⟨handler,captured,found,guarded⟩,outside⟩
        rw [reader handler captured found guarded] at outside
        cases outside
  · intro site path body answered
    rcases respond_cases site path user with ⟨_,_,_,_,_,refused⟩ | ⟨_,fitting⟩
    · rw [answered] at refused
      cases refused
    · rw [answered] at fitting
      exact fitting

-- A name that is not ASCII is a reader of the home page, and refused behind its link.
example : (some (bytesOf "zoë")).isSome = true ∧ admitted (some (bytesOf "zoë")) = false := by decide

end Quire.WebApp
