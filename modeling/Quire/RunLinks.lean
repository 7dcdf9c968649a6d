import Quire.WebApp

namespace Quire.RunLinks
open Text JsonTokens TextReplace KeyedTable RunsTable Ingest RepoNames RepoPaths RepoTree RepoListing UrlPath UrlIntact Routes RepoLinks
  TreeLinks WebApp

-- What the templates link to.
def ciLink (repo : String) : String := "/" ++ repo ++ "/ci"
def runLink (repo runId : String) : String := "/" ++ repo ++ "/ci/" ++ runId

-- The answer to a reader who follows a link on a page of the host.
def follow (site : Site) (user : Option Bytes) (link : String) : Option Response :=
  (visited link).map fun path => respond site ⟨path,user⟩

-- The repository and the run that a link opens.
def runOpened (link : String) : Option (String × String) :=
  match (visited link).bind (dispatch webRoutes) with
  | some (.runDetail,[repo,runId]) =>
    (textOf (decode repo)).bind fun repo => (textOf (decode runId)).map fun runId => (resolveRepoName repo,runId)
  | _ => none

-- Digits, the letters up to f, and dashes.
def runByte (b : UInt8) : Bool := b == 45 || (48 ≤ b && b ≤ 57) || (97 ≤ b && b ≤ 102)

-- The text of a UUID, as far as a URL goes.
def RunId (id : String) : Prop := id ≠ "" ∧ (bytesOf id).all runByte = true

instance : DecidablePred RunId := fun _ => instDecidableAnd

def detailRun (run : RunRow) : RunPage.DetailRun :=
  ⟨run.outcome,run.sha,run.refName,run.createdAt,run.dispatchedAt,run.resolvedAt⟩

section Texts
variable {name : RepoName} {id : String}

-- Bytes that no step of a URL's way touches.
def tame (b : UInt8) : Bool := b == 45 || (48 ≤ b && b ≤ 57) || (97 ≤ b && b ≤ 122)

theorem tame_plain (b : UInt8) : tame b = true → slash b = false ∧ tabNewline b = false ∧ (b != 63 && b != 35) = true ∧
    c0Space b = false ∧ (b == 46 || b == percent) = false := by
  have all := every_byte (fun b => !tame b || (!slash b && !tabNewline b && (b != 63 && b != 35) && !c0Space b && !(b == 46 || b == percent)))
    (by decide +kernel) b
  intro plain
  simpa [plain,and_assoc] using all

theorem runByte_tame (b : UInt8) (plain : runByte b = true) : tame b = true := by
  have all := every_byte (fun b => !runByte b || tame b) (by decide +kernel) b
  simpa [plain] using all

theorem tame_escapes {bytes : Bytes} (plain : ∀ b ∈ bytes, tame b = true) : escapes bytes = false := by
  induction bytes with
  | nil => rfl
  | cons c rest ih =>
    obtain ⟨first,later⟩ := List.forall_mem_cons.mp plain
    have other : c ≠ percent := by
      rintro rfl
      exact absurd (tame_plain percent first).2.2.2.2 (by decide)
    have none : escapeAt (c :: rest) = none := by
      match rest with
      | [] | [_] => rfl
      | a :: b :: rest => rw [escapeAt,if_neg other]
    rw [escapes_cons,none,ih later]
    rfl

-- Dots are written with dots and percent signs.
theorem tame_dots {bytes : Bytes} (plain : ∀ b ∈ bytes, tame b = true) : doubleDot bytes = false ∧ singleDot bytes = false := by
  have marked : (dot ++ dot.flatMap fun one => dot.map (one ++ ·)).all (fun piece => piece.any fun b => b == 46 || b == percent) = true := by
    decide
  have apart : bytes ∉ dot ++ dot.flatMap fun one => dot.map (one ++ ·) := by
    intro member
    obtain ⟨b,inside,mark⟩ := List.any_eq_true.mp (List.all_eq_true.mp marked bytes member)
    exact absurd mark (Bool.eq_false_iff.mp (tame_plain b (plain b inside)).2.2.2.2)
  rw [List.mem_append,not_or] at apart
  exact ⟨by simpa [doubleDot] using apart.2,by simpa [singleDot] using apart.1⟩

theorem tame_unchanged {text : String} (full : text ≠ "") (plain : ∀ b ∈ bytesOf text, tame b = true) : Unchanged (bytesOf text) := by
  refine ⟨⟨bytes_full full,⟨?_,tame_dots plain⟩,?_⟩,tame_escapes plain⟩
  · intro b member
    obtain ⟨first,second,third,_⟩ := tame_plain b (plain b member)
    exact ⟨first,second,third⟩
  · intro b last
    exact (tame_plain b (plain b (List.mem_of_getLast? last))).2.2.2.1

theorem runId_unchanged (runId : RunId id) : Unchanged (bytesOf id) :=
  tame_unchanged runId.1 fun b member => runByte_tame b (List.all_eq_true.mp runId.2 b member)

theorem ci_bytes : bytesOf "/ci" = 47 :: bytesOf "ci" ∧ bytesOf "/ci/" = 47 :: (bytesOf "ci" ++ [47]) := by decide

theorem ci_unchanged : Unchanged (bytesOf "ci") ∧ encode (bytesOf "ci") = bytesOf "ci" ∧ decode (bytesOf "ci") = bytesOf "ci" :=
  ⟨tame_unchanged (by decide) (List.all_eq_true.mp (by decide)),by decide,by decide⟩

theorem ciLink_bytes (repo : String) : bytesOf (ciLink repo) = base [bytesOf repo] ++ 47 :: bytesOf "ci" := by
  rw [ciLink,bytes_append,bytes_append,bytes_slash,ci_bytes.1]
  simp [base]

theorem runLink_bytes (repo id : String) : bytesOf (runLink repo id) = base [bytesOf repo,bytesOf "ci"] ++ 47 :: bytesOf id := by
  rw [runLink,bytes_append,bytes_append,bytes_append,bytes_slash,ci_bytes.2]
  simp [base]

-- The request of a link behind whole segments.
theorem visited_behind {link : String} {first text : Bytes} {more : List Bytes} (bytes : bytesOf link = base (first :: more) ++ 47 :: text)
    (full : first ≠ []) (plain : ∀ piece ∈ first :: more, Settled piece) (unchanged : Unchanged text) :
    visited link = some ((first :: more).map encode ++ [encode text]) := by
  rw [visited,bytes,stays_behind full plain,if_neg Bool.false_ne_true,(segments_unchanged plain unchanged).2.2]

theorem ciLink_request {front : String} (some : front ≠ "") (kept : Kept (bytesOf front)) :
    visited (ciLink front) = Option.some [encode (bytesOf front),bytesOf "ci"] := by
  rw [visited_behind (ciLink_bytes front) (bytes_full some) (by simpa using kept.1) ci_unchanged.1,ci_unchanged.2.1]
  rfl

theorem runLink_request {front : String} (some : front ≠ "") (kept : Kept (bytesOf front)) (runId : RunId id) :
    visited (runLink front id) = Option.some [encode (bytesOf front),bytesOf "ci",encode (bytesOf id)] := by
  rw [visited_behind (runLink_bytes front id) (bytes_full some) (by simpa using ⟨kept.1,ci_unchanged.1.1.2.1⟩) (runId_unchanged runId)]
  rw [List.map_cons,List.map_cons,ci_unchanged.2.1]
  rfl

theorem runId_decoded (runId : RunId id) : decode (encode (bytesOf id)) = bytesOf id := by
  rw [decode_encode,decode_plain _ (runId_unchanged runId).2]

theorem runOpened_plain (repo : RepoPlain name) (runId : RunId id) : runOpened (runLink (listedName name) id) = some (name.text,id) := by
  obtain ⟨front,text,once,full,kept⟩ := repo
  rw [listed_front text once,runOpened,runLink_request full kept runId,Option.bind_some,
    runDetail_dispatch (encode_full (bytes_full full)) (encode_full (bytes_full runId.1))]
  dsimp only
  rw [kept_decoded kept,textOf_bytes,Option.bind_some,runId_decoded runId,textOf_bytes,Option.map_some,resolved_front text once]

-- What arrives is as long as the link, so nothing was lost on the way.
theorem plain_runOpened (runId : RunId id) (opened : runOpened (runLink (listedName name) id) = some (name.text,id)) : RepoPlain name := by
  unfold runOpened at opened
  split at opened
  · rename_i repo run found
    obtain ⟨path,request,routed⟩ := Option.bind_eq_some_iff.mp found
    obtain ⟨_,full,⟨other,_,_⟩ | ⟨_,some,_,rfl,same⟩⟩ := guarded_captured routed rfl
    · cases other
    · cases same
      obtain ⟨slug,readRepo,opened⟩ := Option.bind_eq_some_iff.mp opened
      obtain ⟨text,readRun,same⟩ := Option.map_eq_some_iff.mp opened
      obtain ⟨resolved,rfl⟩ := Prod.mk.inj same
      have decodedRepo := bytes_of_text readRepo
      have decodedRun := bytes_of_text readRun
      have sent : segments (bytesOf (runLink (listedName name) text)) = [repo,bytesOf "ci",run] := by
        rw [visited] at request
        split at request
        · cases request
        · exact Option.some.inj request
      have arrived := arrived_length (bytesOf (runLink (listedName name) text))
      have linkSize : (bytesOf (runLink (listedName name) text)).length =
          (bytesOf (listedName name)).length + 1 + ((bytesOf "ci").length + 1) + ((bytesOf text).length + 1) := by
        rw [runLink_bytes]
        simp [base]
        omega
      have arrivedSize : (base ([repo,bytesOf "ci",run].map decode)).length =
          (bytesOf slug).length + 1 + ((bytesOf "ci").length + 1) + ((bytesOf text).length + 1) := by
        rw [List.map_cons,List.map_cons,List.map_cons,ci_unchanged.2.2,decodedRepo,decodedRun]
        simp [base]
        omega
      rw [sent,arrivedSize,linkSize] at arrived
      obtain ⟨rfl,text',once⟩ := slug_listed resolved (by omega)
      obtain ⟨cut,whole,_⟩ := intact (by rw [sent,arrivedSize,linkSize] : (bytesOf (runLink (listedName name) text)).length ≤ _)
      rw [sent] at cut
      obtain ⟨one,_,pieces,rfl,_⟩ := List.map_eq_cons_iff.mp cut.symm
      rw [pieces] at whole
      have keptRepo : Kept one := (List.forall_mem_cons.mp whole).1
      rw [kept_decoded keptRepo] at decodedRepo
      refine ⟨listedName name,text',once,?_,decodedRepo ▸ keptRepo⟩
      intro empty
      rw [empty,bytes_empty] at decodedRepo
      rw [decodedRepo] at full
      exact full rfl
  · cases opened

end Texts

section Pages
variable {site : Site} {user : Option Bytes} {db : Db} {name : RepoName} {front id : String}

theorem trim_once (once : endsWith front ".git" = false) : trimEndMatches front ".git" = front := by
  have stop : ".git".toList.reverse.isPrefixOf front.toList.reverse = false := once
  rw [trimEndMatches,trim_stopped _ _ _ stop,List.reverse_reverse,String.ofList_toList]

theorem inRepo_present {next : String → Repo → Response} (text : name.text = front ++ ".git") (once : endsWith front ".git" = false)
    (present : Present site.quire site.dirs name) : inRepo site front next = next front (Repo.new site.quire.reposDir name) := by
  rw [inRepo,resolved_front text once,repo_present present,trim_once once]

theorem respond_runList (admits : admitted user = true) (some : front ≠ "") (kept : Kept (bytesOf front)) :
    respond site ⟨[encode (bytesOf front),bytesOf "ci"],user⟩ = runList site front := by
  rw [respond,runList_dispatch (encode_full (bytes_full some))]
  dsimp only
  rw [admits,List.mapM_cons,kept_decoded kept,textOf_bytes]
  rfl

theorem respond_runDetail (admits : admitted user = true) (some : front ≠ "") (kept : Kept (bytesOf front)) (runId : RunId id) :
    respond site ⟨[encode (bytesOf front),bytesOf "ci",encode (bytesOf id)],user⟩ = runDetail site front id := by
  rw [respond,runDetail_dispatch (encode_full (bytes_full some)) (encode_full (bytes_full runId.1))]
  dsimp only
  rw [admits,List.mapM_cons,List.mapM_cons,kept_decoded kept,runId_decoded runId,textOf_bytes,textOf_bytes]
  rfl

-- The row of a run, asked for by its id and its repository.
theorem run_found {run : RunRow} (member : run ∈ db.runs.rows) :
    db.runs.rows.find? (fun row => row.id == run.id && row.repo == run.repo) = some run := by
  have only : ∀ row ∈ db.runs.rows, (row.id == run.id && row.repo == run.repo) = (row.id == run.id) := by
    intro row inTable
    by_cases same : row.id = run.id
    · rw [List.inj_on_of_nodup_map db.runs.keyed inTable member same]
      simp
    · simp [same]
  rw [← List.head?_filter,List.filter_congr only,List.head?_filter]
  exact find?_of_nodup db.runs.keyed member

theorem follow_runList (admits : admitted user = true) (database : site.database = some db) (repo : RepoPlain name)
    (present : Present site.quire site.dirs name) : follow site user (ciLink (listedName name)) =
      some (.ok (.runList (navSections (listedName name) "ci" true) ⟨listedName name,(loadRuns db name.text).map runListRow⟩)) := by
  obtain ⟨front,text,once,full,kept⟩ := repo
  rw [listed_front text once,follow,ciLink_request full kept,Option.map_some,respond_runList admits full kept,runList,
    inRepo_present text once present,resolved_front text once,database]

theorem follow_runDetail (admits : admitted user = true) (database : site.database = some db) (repo : RepoPlain name)
    (present : Present site.quire site.dirs name) {run : RunRow} (member : run ∈ db.runs.rows) (owner : run.repo = name.text)
    (runId : RunId run.id) : ∃ detail, follow site user (runLink (listedName name) run.id) =
      some (.ok (.runDetail (navSections (listedName name) "ci" true) ⟨listedName name,detail⟩)) ∧ detail.run = detailRun run := by
  obtain ⟨front,text,once,full,kept⟩ := repo
  rw [listed_front text once,follow,runLink_request full kept runId,Option.map_some,respond_runDetail admits full kept runId,runDetail,
    inRepo_present text once present,resolved_front text once,database]
  dsimp only
  rw [RunPage.runDetail,RunPage.loadRunDetail,← owner,run_found member]
  exact ⟨_,rfl,rfl⟩

-- The newest runs of the repository, in order, as many as a page takes.
theorem loadRuns_newest (db : Db) (repo : String) :
    (loadRuns db repo).Pairwise (fun a b => b.createdAt ≤ a.createdAt) ∧ (loadRuns db repo).length ≤ 50 ∧
    (∀ run ∈ loadRuns db repo, run ∈ db.runs.rows ∧ run.repo = repo) ∧
    ∀ run ∈ db.runs.rows, run.repo = repo → run ∉ loadRuns db repo →
      (loadRuns db repo).length = 50 ∧ ∀ listed ∈ loadRuns db repo, run.createdAt ≤ listed.createdAt := by
  let sorted := (db.runs.rows.filter fun run => run.repo == repo).insertionSort fun a b => b.createdAt ≤ a.createdAt
  have total : Std.Total fun a b : RunRow => b.createdAt ≤ a.createdAt := ⟨fun a b => le_total b.createdAt a.createdAt⟩
  have trans : IsTrans RunRow fun a b => b.createdAt ≤ a.createdAt := ⟨fun _ _ _ first second => le_trans second first⟩
  have ordered : sorted.Pairwise fun a b => b.createdAt ≤ a.createdAt := List.pairwise_insertionSort _ _
  have mem : ∀ run, run ∈ sorted ↔ run ∈ db.runs.rows ∧ run.repo = repo := by
    intro run
    rw [(List.perm_insertionSort _ _).mem_iff,List.mem_filter,beq_iff_eq]
  refine ⟨ordered.sublist (List.take_sublist 50 sorted),List.length_take_le 50 sorted,?_,?_⟩
  · intro run listed
    exact (mem run).mp (List.mem_of_mem_take listed)
  · intro run member owner missing
    have whole : sorted.take 50 ++ sorted.drop 50 = sorted := List.take_append_drop 50 sorted
    have later : run ∈ sorted.drop 50 := by
      have inside : run ∈ sorted.take 50 ++ sorted.drop 50 := by rw [whole]; exact (mem run).mpr ⟨member,owner⟩
      exact (List.mem_append.mp inside).resolve_left missing
    constructor
    · have some : 0 < (sorted.drop 50).length := List.length_pos_of_mem later
      rw [List.length_drop] at some
      change (sorted.take 50).length = 50
      rw [List.length_take]
      omega
    · intro listed first
      rw [← whole] at ordered
      exact (List.pairwise_append.mp ordered).2.2 listed first run later

theorem inRepo_answer {next : String → Repo → Response} {body : Body} (answered : inRepo site front next = .ok body) :
    ∃ found, next (trimEndMatches front ".git") found = .ok body := by
  unfold inRepo at answered
  split at answered
  · rename_i error _
    cases error <;> cases answered
  · exact ⟨_,answered⟩

-- No other handler makes the page of a run.
theorem detail_handler {handler : Handler} (answered : handle site authed handler args = .ok (.runDetail sections page)) :
    ∃ slug runId, handler = .runDetail ∧ args = [slug,runId] ∧ runDetail site slug runId = .ok (.runDetail sections page) := by
  unfold handle at answered
  split at answered
  · cases answered
  · cases answered
  · cases answered
  · cases answered
  · obtain ⟨found,page⟩ := inRepo_answer answered
    dsimp only at page
    split at page
    · split at page <;> cases page
    · cases page
  · cases answered
  · unfold treeView treeOrFileAtPath at answered
    obtain ⟨found,page⟩ := inRepo_answer answered
    split at page <;> cases page
  · unfold treeViewPath treeOrFileAtPath at answered
    obtain ⟨found,page⟩ := inRepo_answer answered
    split at page <;> cases page
  · obtain ⟨found,page⟩ := inRepo_answer answered
    cases page
  · obtain ⟨found,page⟩ := inRepo_answer answered
    split at page <;> cases page
  · obtain ⟨found,page⟩ := inRepo_answer answered
    split at page <;> cases page
  · exact ⟨_,_,rfl,rfl,answered⟩
  · cases answered

theorem mapM_pair {α β : Type} {f : α → Option β} {a b : α} {c d : β} (read : [a,b].mapM f = some [c,d]) : f a = some c ∧ f b = some d := by
  rw [List.mapM_cons,List.mapM_cons] at read
  cases first : f a with
  | none => rw [first] at read; cases read
  | some x =>
    cases second : f b with
    | none => rw [first,second] at read; cases read
    | some y =>
      rw [first,second] at read
      cases read
      exact ⟨rfl,rfl⟩

-- The page of a run is that of a row of the repository it is asked for under.
theorem shown_run {path : List Bytes} {sections : List SectionLink} {page : RunDetailTemplate} (database : site.database = some db)
    (answered : respond site ⟨path,user⟩ = .ok (.runDetail sections page)) :
    ∃ repo runId slug, path = [repo,bytesOf "ci",runId] ∧ decode repo = bytesOf slug ∧
      ∃ run ∈ db.runs.rows, decode runId = bytesOf run.id ∧ run.repo = resolveRepoName slug ∧ page.detail.run = detailRun run := by
  unfold respond at answered
  split at answered
  · cases answered
  · rename_i handler captured routed
    split at answered
    · cases answered
    · split at answered
      · cases answered
      · rename_i args decoded
        obtain ⟨slug,id,rfl,rfl,shown⟩ := detail_handler answered
        obtain ⟨repo,_,⟨other,_,_⟩ | ⟨runId,_,_,rfl,rfl⟩⟩ := guarded_captured routed rfl
        · cases other
        · obtain ⟨readRepo,readRun⟩ := mapM_pair decoded
          obtain ⟨found,shown⟩ := inRepo_answer shown
          rw [database] at shown
          dsimp only at shown
          split at shown
          · cases shown
          · rename_i detail read
            cases shown
            obtain ⟨loaded,row,rfl⟩ := Option.map_eq_some_iff.mp read
            obtain ⟨run,stored,rfl⟩ := Option.map_eq_some_iff.mp row
            have asked := List.find?_some stored
            simp only [Bool.and_eq_true,beq_iff_eq] at asked
            refine ⟨repo,runId,slug,rfl,bytes_of_text readRepo,run,List.mem_of_find?_eq_some stored,?_,asked.2,rfl⟩
            rw [asked.1]
            exact bytes_of_text readRun

-- For a reader the layer lets through: a run of a repository is opened by its
-- link exactly where the name is plain, on a page that is of no other run; the
-- list has the newest ones.
theorem run_pages (admits : admitted user = true) (database : site.database = some db) (ids : ∀ run ∈ db.runs.rows, RunId run.id) :
    (∀ name, Present site.quire site.dirs name → ∀ run ∈ db.runs.rows, run.repo = name.text →
      (runOpened (runLink (listedName name) run.id) = some (name.text,run.id) ↔ RepoPlain name) ∧
      (RepoPlain name → ∃ detail, follow site user (runLink (listedName name) run.id) =
        some (.ok (.runDetail (navSections (listedName name) "ci" true) ⟨listedName name,detail⟩)) ∧ detail.run = detailRun run)) ∧
    (∀ name, Present site.quire site.dirs name → RepoPlain name →
      follow site user (ciLink (listedName name)) =
        some (.ok (.runList (navSections (listedName name) "ci" true) ⟨listedName name,(loadRuns db name.text).map runListRow⟩)) ∧
      ∀ run ∈ db.runs.rows, run.repo = name.text → run ∉ loadRuns db name.text →
        (loadRuns db name.text).length = 50 ∧ ∀ listed ∈ loadRuns db name.text, run.createdAt ≤ listed.createdAt) ∧
    ∀ path sections page, respond site ⟨path,user⟩ = .ok (.runDetail sections page) →
      ∃ repo runId slug, path = [repo,bytesOf "ci",runId] ∧ decode repo = bytesOf slug ∧
        ∃ run ∈ db.runs.rows, decode runId = bytesOf run.id ∧ run.repo = resolveRepoName slug ∧ page.detail.run = detailRun run := by
  refine ⟨?_,?_,fun _ _ _ answered => shown_run database answered⟩
  · intro name present run member owner
    have runId := ids run member
    exact ⟨⟨plain_runOpened runId,fun plain => runOpened_plain plain runId⟩,
      fun plain => follow_runDetail admits database plain present member owner runId⟩
  · intro name present plain
    exact ⟨follow_runList admits database plain present,(loadRuns_newest db name.text).2.2.2⟩

end Pages

def sampleName : RepoName := ⟨"shop.git",by decide,by decide,by decide,by decide⟩

theorem run_pages_shop : ∃ detail, follow busySite (some (bytesOf "ann")) "/shop/ci/0194f3a5" =
    some (.ok (.runDetail (navSections "shop" "ci" true) ⟨"shop",detail⟩)) ∧ detail.run = detailRun sampleRun := by
  have ids : ∀ run ∈ [sampleRun], RunId run.id := by
    intro run member
    obtain rfl := List.mem_singleton.mp member
    decide
  have unchanged : Unchanged (bytesOf "shop") := tame_unchanged (by decide) (List.all_eq_true.mp (by decide))
  have plain : RepoPlain sampleName := ⟨"shop",rfl,by decide,by decide,unchanged.1.2.1,unchanged.2⟩
  have admits : admitted (some (bytesOf "ann")) = true := by decide
  have present : Present busySite.quire busySite.dirs sampleName := by decide
  have listed : listedName sampleName = "shop" := by decide
  have pages := run_pages admits (rfl : busySite.database = some _) ids
  have opened := (pages.1 sampleName present sampleRun (List.mem_singleton_self _) rfl).2 plain
  rw [listed] at opened
  exact opened

end Quire.RunLinks
