import Quire.JsonCut
import Quire.LogFiles
import Quire.PushEvents

namespace Quire.PushWire
open Text TextLines JsonText JsonTokens JsonTree PushEvents RepoNames RepoPaths

-- jiff's text of a timestamp, on the nanoseconds since the epoch, and its reading.
structure Stamps where
  inRange : Int → Prop
  print : Int → String
  parse : String → Option Int
  read : ∀ stamp, inRange stamp → parse (print stamp) = some stamp

def refTree (self : PushRef) : Tree :=
  .object [("ref",.string self.refName),("old_sha",.string self.oldSha),("new_sha",.string self.newSha)]

def eventTree (stamps : Stamps) (self : PushEvent) : Tree :=
  .object [("type",.string self.eventType),("repo",.string self.repo),("pushed_at",.string (stamps.print self.pushedAt)),
    ("refs",.array (self.refs.map refTree))]

def refOf (tree : Tree) : Option PushRef :=
  match fieldsOf [("ref",false),("old_sha",false),("new_sha",false)] tree with
  | some [.string refName,.string oldSha,.string newSha] => some ⟨refName,oldSha,newSha⟩
  | _ => none

def eventOf (stamps : Stamps) (tree : Tree) : Option PushEvent :=
  match fieldsOf [("type",false),("repo",false),("pushed_at",false),("refs",false)] tree with
  | some [.string eventType,.string repo,.string pushedAt,.array refs] => do
    let pushedAt ← stamps.parse pushedAt
    let refs ← refs.mapM refOf
    return ⟨eventType,repo,pushedAt,refs⟩
  | _ => none

-- `post_receive` on one line of its stdin: `<old-sha> <new-sha> <refname>`.
def pushRefOf (line : String) : Option PushRef :=
  match splitWhitespace line with
  | [oldSha,newSha,refName] => some ⟨refName,oldSha,newSha⟩
  | _ => none

-- Reading stdin as lines fails where it is no UTF-8.
def readRefs (stdin : List UInt8) : Option (List PushRef) := (textOf stdin).map fun text => (lines text).filterMap pushRefOf

def hasUpdates (refs : List PushRef) : Bool := refs.any fun pushRef => pushRef.newSha ≠ zeroSha

inductive HookError where
  | terminal
  | gitDirNotSet
  | unresolved (source : String)
  | unrecognized (error : FromPathError)
  | nonExistent (gitDir : String)
  | stdin
  | outsideRepos
  | connect (source : String)
  | write (source : String)
  deriving DecidableEq, Repr

-- What the system answers the hook. A write that fails has put some of the
-- bytes on the socket.
structure Surroundings where
  terminal : Bool
  gitDir : Option String
  canonicalize : String → Except String String
  isDir : PathBuf → Bool
  stdin : List UInt8
  now : Int
  socketExists : Bool
  connect : Except String Unit
  write : Except (Nat × String) Unit

-- The event of the push, if it updated a ref. A deletion is none by itself.
def hookEvent (quire : Quire) (around : Surroundings) : Except HookError (Option PushEvent) := do
  if around.terminal then throw .terminal
  let dir ← match around.gitDir with
    | none => throw .gitDirNotSet
    | some dir => (around.canonicalize dir).mapError .unresolved
  let repo ← (Repo.fromPath quire.reposDir dir).mapError .unrecognized
  if !repo.exists around.isDir then throw (.nonExistent dir)
  match readRefs around.stdin with
  | none => throw .stdin
  | some refs =>
    if !hasUpdates refs then return none
    match stripBase quire.reposDir (PathBuf.display repo.path) with
    | none => throw .outsideRepos
    | some repoName => return some ⟨"push",repoName,around.now,refs⟩

-- The bytes that reach the socket, if it was connected to, and the result.
def sendEvent (stamps : Stamps) (around : Surroundings) (event : PushEvent) : Option (List UInt8) × Except HookError Unit :=
  let line := writeTree (eventTree stamps event) ++ [lineFeed]
  if !around.socketExists then (none,.ok ())
  else match around.connect with
    | .error source => (none,.error (.connect source))
    | .ok () => match around.write with
      | .error (taken,source) => (some (line.take taken),.error (.write source))
      | .ok () => (some line,.ok ())

def postReceive (stamps : Stamps) (quire : Quire) (around : Surroundings) : Option (List UInt8) × Except HookError Unit :=
  match hookEvent quire around with
  | .error error => (none,.error error)
  | .ok none => (none,.ok ())
  | .ok (some event) => sendEvent stamps around event

-- AsyncBufReadExt::read_line, up to the newline or to the end.
def readLine (bytes : List UInt8) : List UInt8 :=
  bytes.takeWhile (· ≠ lineFeed) ++ (bytes.dropWhile (· ≠ lineFeed)).take 1

-- `handle_event_connection`: the event it hands to `ci::trigger` and then to
-- `mirror::trigger`, from all the bytes of a connection.
def handleEventConnection (stamps : Stamps) (bytes : List UInt8) : Option PushEvent :=
  let line := readLine bytes
  if line = [] then none
  else ((textOf line).bind fun text => (parse (bytesOf text)).bind (eventOf stamps)).filter fun event => event.eventType = "push"

theorem refOf_tree (self : PushRef) : refOf (refTree self) = some self := by
  simp [refOf,refTree,fieldsOf,member]

theorem eventOf_tree (stamps : Stamps) (self : PushEvent) (inRange : stamps.inRange self.pushedAt) :
    eventOf stamps (eventTree stamps self) = some self := by
  have refs : (self.refs.map refTree).mapM refOf = some self.refs := mapM_read self.refs fun pushRef _ => refOf_tree pushRef
  simp [eventOf,eventTree,fieldsOf,member,stamps.read _ inRange,refs]

theorem refTree_fits (self : PushRef) : Fits (depth+2) (refTree self) := by
  apply Fits.object
  simp [Fits.string]

theorem eventTree_fits (stamps : Stamps) (self : PushEvent) : Fits (depth+4) (eventTree stamps self) := by
  have refs : Fits (depth+3) (.array (self.refs.map refTree)) := by
    apply Fits.array
    intro item listed
    obtain ⟨pushRef,_,rfl⟩ := List.mem_map.mp listed
    exact refTree_fits pushRef
  apply Fits.object
  simp [Fits.string,refs]

-- The first line of what was sent is all of it.
theorem readLine_sent (free : lineFeed ∉ bytes) : readLine (bytes ++ [lineFeed]) = bytes ++ [lineFeed] ∧ readLine bytes = bytes := by
  have plain : ∀ byte ∈ bytes, (byte ≠ lineFeed : Bool) = true := by
    intro byte member
    simpa using fun same : byte = lineFeed => free (same ▸ member)
  have none := List.dropWhile_eq_nil_iff.mpr plain
  have all : bytes.takeWhile (· ≠ lineFeed) = bytes := List.takeWhile_eq_self_iff.mpr plain
  refine ⟨?_,by rw [readLine,none,all]; exact List.append_nil bytes⟩
  rw [readLine,List.takeWhile_append_of_pos plain,List.dropWhile_append_of_pos plain]
  simp

theorem handle_line (stamps : Stamps) {line : List UInt8} (whole : readLine line = line) (full : line ≠ []) (text : Textual line) :
    handleEventConnection stamps line = ((parse line).bind (eventOf stamps)).filter fun event => event.eventType = "push" := by
  obtain ⟨text,rfl⟩ := text
  rw [handleEventConnection,whole]
  simp only [full,if_false,textOf_bytes,Option.bind_some]

-- What the hook sends is what the server acts on, also when only the newline is
-- missing. A line that was cut short is dropped.
theorem handle_cut (stamps : Stamps) (self : PushEvent) (inRange : stamps.inRange self.pushedAt) (push : self.eventType = "push")
    (taken : Nat) : handleEventConnection stamps ((writeTree (eventTree stamps self) ++ [lineFeed]).take taken) =
      if taken < (writeTree (eventTree stamps self)).length then none else some self := by
  have fits : Fits depthLimit (eventTree stamps self) := eventTree_fits stamps self
  have free := write_line fits
  have opens : writeTree (eventTree stamps self) ≠ [] := List.cons_ne_nil _ _
  have text := write_textual fits
  have mark : Textual [lineFeed] := textual_ascii (by decide)
  have ended := textual_append text mark
  have stops : Stops [lineFeed] := stops_mark (by unfold Continues; decide)
  rcases Nat.lt_trichotomy taken (writeTree (eventTree stamps self)).length with short | exact | long
  · rw [if_pos short,List.take_append_of_le_length (Nat.le_of_lt short),handleEventConnection,
      (readLine_sent fun member => free (List.mem_of_mem_take member)).2]
    cases read : textOf ((writeTree (eventTree stamps self)).take taken) with
    | none => simp
    | some text =>
      have cut : parse (bytesOf text) = none := by
        rw [← bytes_of_text read]
        exact JsonCut.parse_cut fits taken short
      simp [cut]
  · rw [exact,if_neg (Nat.lt_irrefl _),List.take_left,handle_line stamps (readLine_sent free).2 opens text]
    have whole : parse (writeTree (eventTree stamps self) ++ []) = some (eventTree stamps self) := parse_write fits rfl stops_nil
    rw [List.append_nil] at whole
    simp [whole,eventOf_tree stamps self inRange,push]
  · rw [if_neg (Nat.lt_asymm long),List.take_of_length_le (by simpa using long),
      handle_line stamps (readLine_sent free).1 (by simp) ended,parse_write fits (by decide) stops]
    simp [eventOf_tree stamps self inRange,push]

-- A ref update as git names it: shas are hex, and a ref starts with `refs/` and
-- has no space and no control character. Other white space is allowed.
structure GitUpdate (update : PushRef) : Prop where
  oldSha : update.oldSha.toList ≠ [] ∧ ∀ c ∈ update.oldSha.toList, isWhitespace c = false
  newSha : update.newSha.toList ≠ [] ∧ ∀ c ∈ update.newSha.toList, isWhitespace c = false
  starts : "refs/".toList <+: update.refName.toList
  plain : ∀ c ∈ update.refName.toList, 32 < c.toNat ∧ c.toNat ≠ 127

def gitLine (update : PushRef) : String := update.oldSha ++ " " ++ update.newSha ++ " " ++ update.refName ++ "\n"

-- What git writes on the stdin of the hook.
def gitInput (updates : List PushRef) : List UInt8 := bytesOf (String.join (updates.map gitLine))

def Spaceless (refName : String) : Prop := ∀ c ∈ refName.toList, isWhitespace c = false

-- What the hook makes of an update: words are split at any white space, so that
-- a name may lose its end, or the line its shape.
def heard (update : PushRef) : Option PushRef :=
  match splitWhitespace update.refName with
  | [refName] => some ⟨refName,update.oldSha,update.newSha⟩
  | _ => none

theorem gitLine_words {update : PushRef} (git : GitUpdate update) :
    splitWhitespace (update.oldSha ++ " " ++ update.newSha ++ " " ++ update.refName) =
      update.oldSha :: update.newSha :: splitWhitespace update.refName := by
  have chars : (update.oldSha ++ " " ++ update.newSha ++ " " ++ update.refName).toList =
      update.oldSha.toList ++ ' ' :: (update.newSha.toList ++ ' ' :: update.refName.toList) := by simp
  rw [splitWhitespace,chars,wordsFrom_word git.oldSha.2 git.oldSha.1,wordsFrom_word git.newSha.2 git.newSha.1]
  simp [splitWhitespace]

theorem pushRefOf_line {update : PushRef} (git : GitUpdate update) :
    pushRefOf (update.oldSha ++ " " ++ update.newSha ++ " " ++ update.refName) = heard update := by
  rw [pushRefOf,gitLine_words git,heard]
  rcases splitWhitespace update.refName with _ | ⟨first,_ | ⟨second,rest⟩⟩ <;> rfl

theorem blank_wide {c : Char} (solid : isWhitespace c = false) : c ≠ '\n' ∧ c ≠ '\r' := by
  constructor <;> rintro rfl <;> cases solid

theorem gitLine_single {update : PushRef} (git : GitUpdate update) :
    '\n' ∉ (update.oldSha ++ " " ++ update.newSha ++ " " ++ update.refName).toList ∧
      ∀ c ∈ (update.oldSha ++ " " ++ update.newSha ++ " " ++ update.refName).toList.getLast?, c ≠ '\r' := by
  have low : ∀ c ∈ update.refName.toList, c ≠ '\n' ∧ c ≠ '\r' := by
    intro c member
    have wide := (git.plain c member).1
    constructor <;> rintro rfl <;> exact absurd wide (by decide)
  have free : ∀ c ∈ (update.oldSha ++ " " ++ update.newSha ++ " " ++ update.refName).toList, c ≠ '\n' ∧ c ≠ '\r' := by
    intro c member
    simp only [String.toList_append,List.mem_append] at member
    rcases member with (((old | blank) | new) | blank) | name
    · exact blank_wide (git.oldSha.2 c old)
    · rw [List.mem_singleton.mp blank]; decide
    · exact blank_wide (git.newSha.2 c new)
    · rw [List.mem_singleton.mp blank]; decide
    · exact low c name
  exact ⟨fun member => (free _ member).1 rfl,fun c last => (free c (List.mem_of_getLast? last)).2⟩

theorem lines_git (updates : List PushRef) (git : ∀ update ∈ updates, GitUpdate update) :
    lines (String.join (updates.map gitLine)) =
      updates.map fun update => update.oldSha ++ " " ++ update.newSha ++ " " ++ update.refName := by
  have chars : (String.join (updates.map gitLine)).toList =
      (updates.map fun update => (update.oldSha ++ " " ++ update.newSha ++ " " ++ update.refName).toList).flatMap (· ++ ['\n']) := by
    induction updates with
    | nil => rfl
    | cons update rest ih =>
      have behind := ih fun other listed => git other (List.mem_cons_of_mem _ listed)
      simp only [List.map_cons,String.join_cons,String.toList_append,List.flatMap_cons,behind,gitLine]
      rfl
  rw [lines,chars,linesFrom_terminated _ (by simpa using fun update listed => gitLine_single (git update listed)),List.map_map]
  exact List.map_congr_left fun update _ => String.ofList_toList

-- What the hook reads of what git writes.
theorem readRefs_git (updates : List PushRef) (git : ∀ update ∈ updates, GitUpdate update) :
    readRefs (gitInput updates) = some (updates.filterMap heard) := by
  rw [readRefs,gitInput,textOf_bytes,Option.map_some,lines_git updates git,List.filterMap_map]
  exact congrArg some (List.filterMap_congr fun update listed => pushRefOf_line (git update listed))

theorem wordsFrom_solid {reversed : List Char} (solid : ∀ c ∈ reversed, isWhitespace c = false) (chars : List Char) :
    ∀ word ∈ wordsFrom reversed chars, ∀ c ∈ word, isWhitespace c = false := by
  induction chars generalizing reversed with
  | nil =>
    intro word member
    unfold wordsFrom at member
    split at member
    · cases member
    · rw [List.mem_singleton.mp member]
      simpa using solid
  | cons c rest ih =>
    intro word member
    unfold wordsFrom at member
    split at member
    · have none : ∀ c ∈ ([] : List Char), isWhitespace c = false := by simp
      have later := ih none word
      split at member
      · exact later member
      · rcases List.mem_cons.mp member with rfl | behind
        · simpa using solid
        · exact later behind
    · rename_i plain
      exact ih (List.forall_mem_cons.mpr ⟨Bool.eq_false_iff.mpr plain,solid⟩) word member

theorem heard_same {update : PushRef} (git : GitUpdate update) : heard update = some update ↔ Spaceless update.refName := by
  constructor
  · intro same
    unfold heard at same
    split at same
    · rename_i refName word
      have kept : refName = update.refName := congrArg PushRef.refName (Option.some.inj same)
      have listed : update.refName.toList ∈ wordsFrom [] update.refName.toList := by
        have member : update.refName ∈ splitWhitespace update.refName := by rw [word,kept]; exact List.mem_singleton_self _
        obtain ⟨chars,inside,text⟩ := List.mem_map.mp member
        have chosen : chars = update.refName.toList := by rw [← text,String.toList_ofList]
        rwa [chosen] at inside
      exact wordsFrom_solid (by simp) _ _ listed
    · cases same
  · intro solid
    have full : update.refName.toList ≠ [] := fun empty => by simpa [empty] using git.starts
    have word : splitWhitespace update.refName = [update.refName] := by
      rw [splitWhitespace,wordsFrom_last solid full,List.map_singleton,String.ofList_toList]
    rw [heard,word]

theorem filterMap_all {α : Type} {f : α → Option α} {items : List α} :
    items.filterMap f = items ↔ ∀ item ∈ items, f item = some item := by
  induction items with
  | nil => simp
  | cons item rest ih =>
    cases kept : f item with
    | none =>
      have shorter := List.length_filterMap_le f rest
      simp only [List.filterMap_cons,kept,List.forall_mem_cons,reduceCtorEq,false_and,iff_false]
      intro same
      rw [same,List.length_cons] at shorter
      omega
    | some other => simp [kept,ih]

-- The hook of a repository, run by git.
structure Hosted (quire : Quire) (name : RepoName) (around : Surroundings) : Prop where
  piped : around.terminal = false
  dir : ∃ dir, around.gitDir = some dir ∧
    around.canonicalize dir = .ok (PathBuf.display (Repo.new quire.reposDir name).path)
  present : around.isDir (Repo.new quire.reposDir name).path = true

-- The repos directory, as the text of a path.
theorem repos_text {base : String} (absolute : isAbsolute base = true) : ∃ text, isAbsolute text = true ∧
    (PathBuf.parse text).parts.getLast? = some "repos" ∧ (⟨PathBuf.parse base⟩ : Quire).reposDir = PathBuf.parse text := by
  have full : base ≠ "" := by
    rintro rfl
    cases absolute
  have text : PathBuf.parse (CiRuntime.joinPath base "repos") = (PathBuf.parse base).join "repos" :=
    LogFiles.parse_joined full (by decide)
  have joined : (PathBuf.parse base).join "repos" = ⟨(PathBuf.parse base).absolute,(PathBuf.parse base).parts ++ ["repos"]⟩ :=
    join_word _ (by decide)
  have start : isAbsolute (CiRuntime.joinPath base "repos") = isAbsolute base := by
    have some : base.toList ≠ [] := fun empty => full (String.toList_eq_nil_iff.mp empty)
    rw [isAbsolute,isAbsolute,CiRuntime.joinPath,String.toList_append,String.toList_append,List.append_assoc,
      List.head?_append_of_ne_nil _ some]
  exact ⟨CiRuntime.joinPath base "repos",start.trans absolute,by rw [text,joined]; simp,text.symm⟩

theorem hookEvent_hosted {base : String} (absolute : isAbsolute base = true) {name : RepoName} {around : Surroundings}
    (hosted : Hosted ⟨PathBuf.parse base⟩ name around) {updates : List PushRef} (git : ∀ update ∈ updates, GitUpdate update)
    (input : around.stdin = gitInput updates) : hookEvent ⟨PathBuf.parse base⟩ around =
      .ok (if hasUpdates (updates.filterMap heard) then some ⟨"push",name.text,around.now,updates.filterMap heard⟩ else none) := by
  obtain ⟨dir,gitDir,canonical⟩ := hosted.dir
  obtain ⟨text,start,last,same⟩ := repos_text absolute
  have found := fromPath_name start last name
  have relative := strip_name start last name
  have present : (Repo.new (PathBuf.parse text) name).exists around.isDir = true := by
    rw [Repo.exists,← same]
    exact hosted.present
  rw [same] at canonical
  rw [hookEvent,hosted.piped,gitDir,input,readRefs_git updates git,same]
  cases told : hasUpdates (updates.filterMap heard) <;>
    simp [canonical,found,present,told,relative,Except.mapError,bind,Except.bind,pure,Except.pure]

-- What the server makes of what the hook has sent: all of the event or nothing,
-- and the event when the hook has found a socket and reports no error.
theorem sendEvent_handled (stamps : Stamps) (around : Surroundings) {event : PushEvent} (inRange : stamps.inRange event.pushedAt)
    (push : event.eventType = "push") :
    ((sendEvent stamps around event).1.bind (handleEventConnection stamps) = none ∨
      (sendEvent stamps around event).1.bind (handleEventConnection stamps) = some event) ∧
    (around.socketExists = true → (sendEvent stamps around event).2 = .ok () →
      (sendEvent stamps around event).1.bind (handleEventConnection stamps) = some event) := by
  have line := fun taken => handle_cut stamps event inRange push taken
  have whole := line ((writeTree (eventTree stamps event)).length + 1)
  rw [List.take_of_length_le (by simp),if_neg (by omega)] at whole
  unfold sendEvent
  cases around.socketExists with
  | false => exact ⟨.inl rfl,nofun⟩
  | true =>
    rcases around.connect with source | connected
    · exact ⟨.inl rfl,nofun⟩
    · rcases around.write with ⟨taken,source⟩ | written
      · refine ⟨?_,nofun⟩
        simp only [Bool.not_true,Bool.false_eq_true,if_false,Option.bind_some,line taken]
        split
        · exact .inl rfl
        · exact .inr rfl
      · exact ⟨.inr whole,fun _ _ => whole⟩

-- A clock that stands at the epoch.
def epoch : Stamps where
  inRange stamp := stamp = 0
  print _ := "1970-01-01T00:00:00Z"
  parse text := if text = "1970-01-01T00:00:00Z" then some 0 else none
  read := by rintro _ rfl; rfl

def sampleRepo : RepoName := ⟨"push.git",by decide,by decide,by decide,by decide⟩

def samplePush : PushRef := ⟨"refs/heads/main",zeroSha,"4b825dc642cb6eb9a060e54bf8d69288fbee4904"⟩

def sampleHook : Surroundings where
  terminal := false
  gitDir := some "."
  canonicalize _ := .ok "/srv/repos/push.git"
  isDir _ := true
  stdin := gitInput [samplePush]
  now := 0
  socketExists := true
  connect := .ok ()
  write := .ok ()

end Quire.PushWire
