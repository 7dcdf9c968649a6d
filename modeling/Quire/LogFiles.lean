import Quire.CiRuntime
import Quire.RepoPaths
import Quire.TextLines

namespace Quire.LogFiles
open Text TextLines RepoNames RepoPaths JobPipeline CiRuntime

def isSafePathSegment (s : String) : Bool :=
  s ≠ "" && !s.toList.contains '/' && !s.toList.contains '\\' && !s.toList.contains '\x00' && s ≠ "." && s ≠ ".."

def shLogName (n : Nat) : String := "sh-" ++ toString n ++ ".log"

-- The path `Runtime::sh` writes the log of the n-th recorded call to.
def writtenLog (logDir : PathBuf) (jobId : String) (n : Nat) : PathBuf :=
  ((logDir.join "jobs").join jobId).join (shLogName n)

-- The path `run_detail` reads for the n-th entry, if it reads one.
def readLog (runDir : PathBuf) (jobId : String) (n : Nat) : Option PathBuf :=
  if isSafePathSegment jobId then some (((runDir.join "jobs").join jobId).join (shLogName n)) else none

-- `Run::path`, which quire-ci is given as its out-dir.
def outDir (repo : Repo) (runId : String) : PathBuf := (Repo.runsBase repo).join runId

-- The directory of a run as `run_detail` makes it up.
def runDir (quire : Quire) (repoName runId : String) : PathBuf := ((quire.baseDir.join "runs").join repoName).join runId

-- The file a path names, as far as its text tells: `..` leads up.
def resolveStep (absolute : Bool) (settled : List String) (part : String) : List String :=
  if part = ".." then
    if settled = [] ∨ settled.getLast? = some ".." then (if absolute then settled else settled ++ [part])
    else settled.dropLast
  else settled ++ [part]

def PathBuf.resolved (self : PathBuf) : PathBuf := ⟨self.absolute,self.parts.foldl (resolveStep self.absolute) []⟩

-- A file of one segment inside jobs.
def InJobs (dir path : PathBuf) : Prop :=
  path.absolute = dir.absolute ∧ ∃ segment file, path.parts = dir.parts ++ ["jobs",segment,file] ∧
    segment ≠ ".." ∧ file ≠ ".."

-- What the claim asks of the log of one call of one job, among the jobs registered.
structure Found {Vm : Type} (quire : Quire) (name : RepoName) (runId : String) (registration : Registration Vm)
    (job : Job Vm) (n : Nat) : Prop where
  inside : InJobs (outDir (Repo.new quire.reposDir name) runId) (writtenLog (outDir (Repo.new quire.reposDir name) runId) job.id n)
  apart : ∀ other ∈ registration.jobs, ∀ m, (job.id,n) ≠ (other.id,m) →
    PathBuf.resolved (writtenLog (outDir (Repo.new quire.reposDir name) runId) job.id n) ≠
      PathBuf.resolved (writtenLog (outDir (Repo.new quire.reposDir name) runId) other.id m)
  read : readLog (runDir quire name.text runId) job.id n =
    some (writtenLog (outDir (Repo.new quire.reposDir name) runId) job.id n)

theorem isSafe_iff (s : String) : isSafePathSegment s = true ↔
    s ≠ "" ∧ '/' ∉ s.toList ∧ '\\' ∉ s.toList ∧ '\x00' ∉ s.toList ∧ s ≠ "." ∧ s ≠ ".." := by
  simp [isSafePathSegment,and_assoc]

theorem outDir_runDir (quire : Quire) (name : RepoName) (runId : String) :
    outDir (Repo.new quire.reposDir name) runId = runDir quire name.text runId := by
  have repos : PathBuf.parse "repos" = ⟨false,["repos"]⟩ := by decide
  simp [outDir,Repo.runsBase,Repo.new,runDir,Quire.reposDir,PathBuf.join,PathBuf.parent,repos]

theorem relative_of_free {s : String} (free : '/' ∉ s.toList) : isAbsolute s = false := by
  apply Bool.eq_false_iff.mpr
  intro absolute
  obtain ⟨rest,opens⟩ := List.head?_eq_some_iff.mp (beq_iff_eq.mp absolute)
  exact free (by rw [opens]; exact List.mem_cons_self)

theorem parse_word {s : String} (free : '/' ∉ s.toList) (plain : skipped s = false) : PathBuf.parse s = ⟨false,[s]⟩ := by
  have kept : s ≠ "" ∧ s ≠ "." := by simpa [skipped] using plain
  rw [PathBuf.parse,relative_of_free free,split_single free]
  simp [kept]

theorem parse_skipped {s : String} (skip : skipped s = true) : PathBuf.parse s = ⟨false,[]⟩ := by
  have either : s = "" ∨ s = "." := by simpa [skipped] using skip
  rcases either with rfl | rfl <;> decide

-- A slashless id adds itself to the path, if it is not skipped.
theorem join_id (dir : PathBuf) {s : String} (free : '/' ∉ s.toList) :
    dir.join s = ⟨dir.absolute,dir.parts ++ if skipped s then [] else [s]⟩ := by
  cases skip : skipped s with
  | true =>
    rw [PathBuf.join,parse_skipped skip]
    rfl
  | false =>
    rw [PathBuf.join,parse_word free skip]
    rfl

theorem logName_chars (n : Nat) : (shLogName n).toList = 's' :: 'h' :: '-' :: (n.repr.toList ++ ".log".toList) := by
  simp [shLogName]

theorem logName_plain (n : Nat) : '/' ∉ (shLogName n).toList ∧ skipped (shLogName n) = false ∧ shLogName n ≠ ".." := by
  obtain ⟨_,digit⟩ := numeral_digits n
  have other : ∀ s : String, s.toList.head? ≠ some 's' → shLogName n ≠ s := by
    rintro s different rfl
    rw [logName_chars] at different
    exact different rfl
  refine ⟨?_,?_,other ".." (by decide)⟩
  · rw [logName_chars]
    intro slash
    simp only [List.mem_cons,List.mem_append] at slash
    rcases slash with one | two | three | inside | ending
    · cases one
    · cases two
    · cases three
    · cases digit '/' inside
    · exact absurd ending (by decide)
  · rw [skipped,beq_false_of_ne (other "" (by decide)),beq_false_of_ne (other "." (by decide))]
    rfl

theorem logName_inj {n m : Nat} (same : shLogName n = shLogName m) : n = m := by
  have chars := congrArg String.toList same
  rw [logName_chars,logName_chars] at chars
  simp only [List.cons.injEq,true_and] at chars
  have digits := List.append_cancel_right chars
  rw [Nat.toList_repr,Nat.toList_repr] at digits
  have value := congrArg (fun chars => Nat.ofDigitChars 10 chars 0) digits
  simpa using value

theorem written_parts (dir : PathBuf) {id : String} (free : '/' ∉ id.toList) (n : Nat) :
    writtenLog dir id n = ⟨dir.absolute,dir.parts ++ ["jobs"] ++ (if skipped id then [] else [id]) ++ [shLogName n]⟩ := by
  have jobs : PathBuf.parse "jobs" = ⟨false,["jobs"]⟩ := by decide
  obtain ⟨nameFree,plain,_⟩ := logName_plain n
  rw [writtenLog,join_word _ jobs,join_id _ free,join_id _ nameFree,plain]
  rfl

-- Where the logs of a job are, from the run directory.
def place (id : String) : List String := if skipped id then ["jobs"] else if id = ".." then [] else ["jobs",id]

theorem resolve_plain (absolute : Bool) (settled : List String) {part : String} (plain : part ≠ "..") :
    resolveStep absolute settled part = settled ++ [part] := if_neg plain

theorem resolved_written (dir : PathBuf) {id : String} (free : '/' ∉ id.toList) (n : Nat) :
    PathBuf.resolved (writtenLog dir id n) = ⟨dir.absolute,(PathBuf.resolved dir).parts ++ place id ++ [shLogName n]⟩ := by
  obtain ⟨_,_,name⟩ := logName_plain n
  rw [written_parts dir free n,PathBuf.resolved,PathBuf.resolved]
  simp only [List.foldl_append,List.foldl_cons,List.foldl_nil]
  rw [resolve_plain _ _ name,resolve_plain _ _ (by decide)]
  cases skip : skipped id with
  | true => simp [place,skip]
  | false =>
    by_cases up : id = ".."
    · subst up
      simp [place,skip,resolveStep]
    · simp [place,skip,up,resolveStep]

theorem safe_plain {id : String} (safe : isSafePathSegment id = true) : '/' ∉ id.toList ∧ skipped id = false ∧ id ≠ ".." := by
  obtain ⟨full,free,_,_,dot,dots⟩ := (isSafe_iff id).mp safe
  exact ⟨free,by simp [skipped,full,dot],dots⟩

theorem place_apart {id other : String} (safe : isSafePathSegment id = true) (n m : Nat) (different : (id,n) ≠ (other,m)) :
    place id ++ [shLogName n] ≠ place other ++ [shLogName m] := by
  obtain ⟨_,kept,plain⟩ := safe_plain safe
  have own : place id = ["jobs",id] := by simp [place,kept,plain]
  rw [own]
  intro same
  cases skip : skipped other with
  | true => simp [place,skip] at same
  | false =>
    by_cases up : other = ".."
    · have none : place ".." = [] := by decide
      rw [up,none] at same
      simp at same
    · simp only [place,skip,up,if_false,Bool.false_eq_true,List.cons_append,List.nil_append,List.cons.injEq,true_and,
        and_true] at same
      exact different (by rw [same.1,logName_inj same.2])

theorem split_slash (left right : String) : split (left ++ "/" ++ right) '/' = split left '/' ++ split right '/' := by
  have text : (left ++ "/" ++ right).toList = left.toList ++ '/' :: right.toList := by simp
  rw [split,text,List.splitOn_append_cons_self,List.map_append]
  rfl

theorem parse_joined {dir : String} (full : dir ≠ "") {name : String} (free : '/' ∉ name.toList) :
    PathBuf.parse (joinPath dir name) = (PathBuf.parse dir).join name := by
  have absolute : isAbsolute (joinPath dir name) = isAbsolute dir := by
    have some : dir.toList ≠ [] := fun empty => full (String.toList_eq_nil_iff.mp empty)
    rw [isAbsolute,isAbsolute,joinPath,String.toList_append,String.toList_append,List.append_assoc,List.head?_append_of_ne_nil _ some]
  rw [PathBuf.parse,absolute,joinPath,split_slash,List.filter_append,PathBuf.join,PathBuf.parse,PathBuf.parse,
    relative_of_free free]
  rfl

-- The text of the path that `recordSh` writes to.
theorem written_text {logDir : String} (full : logDir ≠ "") {id : String} (free : '/' ∉ id.toList) (n : Nat) :
    PathBuf.parse (joinPath (joinPath (joinPath logDir "jobs") id) ("sh-" ++ toString n ++ ".log")) =
      writtenLog (PathBuf.parse logDir) id n := by
  have joined : ∀ dir name : String, joinPath dir name ≠ "" := by
    intro dir name empty
    have none := congrArg String.toList empty
    simp [joinPath] at none
  change PathBuf.parse (joinPath (joinPath (joinPath logDir "jobs") id) (shLogName n)) = _
  rw [parse_joined (joined _ _) (logName_plain n).1,parse_joined (joined _ _) free,parse_joined full (by decide)]
  rfl

-- What the reader takes for a segment is the ids whose logs are where they
-- belong: of the registered jobs it finds these, and only these.
theorem log_files {Vm : Type} (quire : Quire) (name : RepoName) (runId : String) (registration : Registration Vm)
    (job : Job Vm) (registered : job ∈ registration.jobs) :
    (∀ n, Found quire name runId registration job n) ↔ isSafePathSegment job.id = true := by
  have free := registration.slashless
  constructor
  · intro found
    have read := (found 1).read
    unfold readLog at read
    split at read
    · assumption
    · cases read
  · intro safe n
    obtain ⟨_,kept,plain⟩ := safe_plain safe
    refine ⟨?_,?_,?_⟩
    · rw [written_parts _ (free job registered),kept]
      exact ⟨rfl,job.id,shLogName n,by simp,plain,(logName_plain n).2.2⟩
    · intro other listed m different same
      rw [resolved_written _ (free job registered),resolved_written _ (free other listed)] at same
      have parts := congrArg PathBuf.parts same
      dsimp only at parts
      rw [List.append_assoc,List.append_assoc] at parts
      exact place_apart safe n m different (List.append_cancel_left parts)
    · rw [readLog,if_pos safe,← outDir_runDir]
      rfl

def sampleQuire : Quire := ⟨⟨true,["var","quire"]⟩⟩
def sampleName : RepoName := ⟨"foo.git",by decide,by decide,by decide,by decide⟩

-- One job of each of these ids, as a script registers them.
def sampleRegistration (ids : List String) : Registration Unit :=
  ids.foldl (fun registration id => registration.registerJob id ["quire/push"] (fun vm => .done vm (.ok ())) 1 "") .empty

theorem log_files_word : ∃ job ∈ (sampleRegistration ["build","..",""]).jobs, job.id = "build" ∧
    ∀ n, Found sampleQuire sampleName "0195" (sampleRegistration ["build","..",""]) job n := by
  have registered : ((sampleRegistration ["build","..",""]).jobs.map Job.id) = ["build","..",""] := by decide
  obtain ⟨job,member,id⟩ := List.mem_map.mp (show "build" ∈ (sampleRegistration ["build","..",""]).jobs.map Job.id by
    rw [registered]; exact List.mem_cons_self)
  have safe : isSafePathSegment job.id = true := by
    rw [id]
    decide
  exact ⟨job,member,id,(log_files sampleQuire sampleName "0195" _ job member).mpr safe⟩

-- Registered ids whose logs lie outside jobs, fall together, or are not read.
theorem log_files_escape :
    (sampleRegistration ["..","",".","a\\b"]).jobs.map Job.id = ["..","",".","a\\b"] ∧
      (∃ job ∈ (sampleRegistration ["..","",".","a\\b"]).jobs,
        ¬ ∀ n, Found sampleQuire sampleName "0195" (sampleRegistration ["..","",".","a\\b"]) job n) ∧
      PathBuf.resolved (writtenLog (runDir sampleQuire "foo.git" "0195") ".." 1) =
        (runDir sampleQuire "foo.git" "0195").join "sh-1.log" ∧
      PathBuf.resolved (writtenLog (runDir sampleQuire "foo.git" "0195") "" 1) =
        PathBuf.resolved (writtenLog (runDir sampleQuire "foo.git" "0195") "." 1) ∧
      readLog (runDir sampleQuire "foo.git" "0195") "a\\b" 1 = none := by
  have registered : (sampleRegistration ["..","",".","a\\b"]).jobs.map Job.id = ["..","",".","a\\b"] := by decide
  refine ⟨registered,?_,by decide,by decide,by decide⟩
  obtain ⟨job,member,id⟩ := List.mem_map.mp (show ".." ∈ (sampleRegistration ["..","",".","a\\b"]).jobs.map Job.id by
    rw [registered]; exact List.mem_cons_self)
  refine ⟨job,member,?_⟩
  intro found
  have read := (found 1).read
  rw [id] at read
  exact absurd read (by simp [readLog,isSafePathSegment])

end Quire.LogFiles
