import Quire.JsonTokens
import Quire.RepoPaths
import Quire.Routes

namespace Quire.RepoLinks
open Text JsonTokens RepoNames RepoPaths UrlPath Routes

def resolveRepoName (slug : String) : String := if endsWith slug ".git" then slug else slug ++ ".git"

-- What repo_list shows of a name, and the target of its link.
def listedName (name : RepoName) : String := trimEndMatches name.text ".git"

def listedLink (name : RepoName) : String := "/" ++ listedName name

inductive Page where
  | stylesheet | fileViewScript | config | repoList
  | repoHome | repoHomeSlash | treeView | treeViewPath | logView | commitView
  deriving DecidableEq, Repr

def literal (text : String) : Part := .literal (bytesOf text)

-- `public_router`, the literals before the captures.
def publicRoutes : List (Route × Page) := [
  ([literal "style.css"],.stylesheet),
  ([literal "file-view.js"],.fileViewScript),
  ([literal "config"],.config),
  ([literal ""],.repoList),
  ([.capture],.repoHome),
  ([.capture,literal ""],.repoHomeSlash),
  ([.capture,literal "tree"],.treeView),
  ([.capture,literal "tree",.rest],.treeViewPath),
  ([.capture,literal "log"],.logView),
  ([.capture,literal "commits",.capture],.commitView)]

-- The routes that take a single segment away from the repositories.
def taken : List String := ["style.css","file-view.js","config"]

-- Two slashes in front lead to another host.
def abroad (link : Bytes) : Bool :=
  match clean link with
  | first :: second :: _ => slash first && slash second
  | _ => false

-- The path that is asked for where the link is followed.
def visited (link : String) : Option (List Bytes) :=
  if abroad (bytesOf link) then none else some (segments (bytesOf link))

-- The repository whose home page opens.
def opened (link : String) : Option String :=
  match (visited link).bind (dispatch publicRoutes) with
  | some (.repoHome,[segment]) => (textOf (decode segment)).map resolveRepoName
  | _ => none

def Reached (name : RepoName) : Prop := opened (listedLink name) = some name.text

-- One suffix, behind one segment that URL parsing and decoding leave alone and
-- that is no page of its own.
def LinkPlain (name : RepoName) : Prop :=
  ∃ front, name.text = front ++ ".git" ∧ endsWith front ".git" = false ∧ Unchanged (bytesOf front) ∧ front ∉ taken

theorem trim_stopped (ending : List Char) (fuel : Nat) (reversed : List Char) (stop : ending.isPrefixOf reversed = false) :
    trimEndMatchesChars ending fuel reversed = reversed := by
  cases fuel with
  | zero => rfl
  | succ fuel => rw [trimEndMatchesChars,if_neg (Bool.eq_false_iff.mp stop)]

theorem trim_suffix (ending : List Char) (fuel : Nat) (reversed : List Char) :
    trimEndMatchesChars ending fuel reversed <:+ reversed := by
  induction fuel generalizing reversed with
  | zero => exact List.suffix_rfl
  | succ fuel ih =>
    rw [trimEndMatchesChars]
    split
    · exact (ih _).trans (List.drop_suffix _ _)
    · exact List.suffix_rfl

-- One suffix is taken off, and then the rest is looked at.
theorem trimEnd_step (front : String) : trimEndMatches (front ++ ".git") ".git" =
    String.ofList (trimEndMatchesChars ".git".toList.reverse (front.length + 3) front.toList.reverse).reverse := by
  have reversed : (front ++ ".git").toList.reverse = ".git".toList.reverse ++ front.toList.reverse := by simp
  have size : (front ++ ".git").length = front.length + 3 + 1 := String.length_append _ _
  have first : ".git".toList.reverse.isPrefixOf (".git".toList.reverse ++ front.toList.reverse) = true := by simp
  have dropped : (".git".toList.reverse ++ front.toList.reverse).drop ".git".toList.reverse.length = front.toList.reverse := by simp
  rw [trimEndMatches,reversed,size,trimEndMatchesChars,if_pos first,dropped]

theorem trimEnd_once {front : String} (once : endsWith front ".git" = false) : trimEndMatches (front ++ ".git") ".git" = front := by
  have stop : ".git".toList.reverse.isPrefixOf front.toList.reverse = false := once
  rw [trimEnd_step,trim_stopped _ _ _ stop,List.reverse_reverse,String.ofList_toList]

theorem trimEnd_shape {s : String} (ends : endsWith s ".git" = true) : ∃ more, s = trimEndMatches s ".git" ++ more ++ ".git" := by
  obtain ⟨chars,split⟩ := List.isSuffixOf_iff_suffix.mp ends
  obtain ⟨front,rfl⟩ : ∃ front, s = front ++ ".git" := ⟨String.ofList chars,String.toList_inj.mp (by simp [← split])⟩
  obtain ⟨more,text⟩ := trim_suffix ".git".toList.reverse (front.length + 3) front.toList.reverse
  refine ⟨String.ofList more.reverse,?_⟩
  rw [trimEnd_step]
  have whole := congrArg List.reverse text
  rw [List.reverse_append,List.reverse_reverse] at whole
  rw [← String.ofList_append,whole,String.ofList_toList]

theorem dispatch_listed {table : List (Route × Page)} (found : dispatch table path = some (page,captured)) :
    ∃ route, (route,page) ∈ table ∧ Route.captures route path = some captured := by
  obtain ⟨entry,member,capture⟩ := List.exists_of_findSome?_eq_some found
  obtain ⟨route,handler⟩ := entry
  obtain ⟨_,matched,same⟩ := Option.map_eq_some_iff.mp capture
  cases same
  exact ⟨route,member,matched⟩

-- The home page is opened by one segment that is no page of its own.
theorem home_segment (found : dispatch publicRoutes path = some (.repoHome,captured)) :
    ∃ segment, segment ≠ [] ∧ path = [segment] ∧ captured = [segment] ∧ segment ∉ taken.map bytesOf := by
  obtain ⟨route,listed,matched⟩ := dispatch_listed found
  have only : route = [Part.capture] := by
    simp only [publicRoutes,List.mem_cons,Prod.mk.injEq] at listed
    simpa using listed
  subst only
  have behind : Route.captures (([] : List Bytes).map Part.literal ++ [Part.capture]) path = some captured := matched
  obtain ⟨segment,full,rfl,rfl⟩ := captures_last behind
  refine ⟨segment,full,rfl,rfl,?_⟩
  have other : ∀ name ∈ taken, dispatch publicRoutes [bytesOf name] ≠ some (.repoHome,[bytesOf name]) := by decide
  intro member
  obtain ⟨name,listed,rfl⟩ := List.mem_map.mp member
  exact other name listed found

theorem segment_home {segment : Bytes} (full : segment ≠ []) (free : segment ∉ taken.map bytesOf) :
    dispatch publicRoutes [segment] = some (.repoHome,[segment]) := by
  simp only [taken,List.map_cons,List.map_nil,List.mem_cons,List.not_mem_nil,not_or] at free
  simp [dispatch,publicRoutes,literal,Route.captures,free,bytes_empty,full]

-- Behind one slash that starts the path there are no whole segments yet.
theorem none_settled : ∀ segment ∈ ([] : List Bytes), Settled segment := fun _ member => absurd member List.not_mem_nil

theorem bytes_slash : bytesOf "/" = [47] := by decide

theorem link_bytes (name : RepoName) : bytesOf (listedLink name) = base [] ++ 47 :: bytesOf (listedName name) := by
  rw [listedLink,bytes_append,bytes_slash]
  rfl

-- A link whose first segment is not empty stays on the host.
theorem stays {front : Bytes} (whole : Whole front) : abroad (base [] ++ 47 :: front) = false := by
  rw [abroad,clean_base none_settled,whole_clean whole]
  cases front with
  | nil => rfl
  | cons b rest =>
    have other : slash b = false := (whole.2.1.1 b List.mem_cons_self).1
    exact Bool.and_eq_false_iff.mpr (.inr other)

-- Encoding does not make a name into one that is taken.
theorem plain_taken {front : String} (free : front ∉ taken) (unchanged : Unchanged (bytesOf front)) :
    encode (bytesOf front) ∉ taken.map bytesOf := by
  have kept : ∀ name ∈ taken, decode (bytesOf name) = bytesOf name := by decide
  intro member
  obtain ⟨name,listed,same⟩ := List.mem_map.mp member
  have decoded := congrArg decode same
  rw [kept name listed,decode_encode,decode_plain _ unchanged.2] at decoded
  have equal := congrArg textOf decoded
  rw [textOf_bytes,textOf_bytes] at equal
  cases equal
  exact free listed

theorem listed_front {name : RepoName} (text : name.text = front ++ ".git") (once : endsWith front ".git" = false) :
    listedName name = front := by rw [listedName,text,trimEnd_once once]

theorem resolved_front {name : RepoName} (text : name.text = front ++ ".git") (once : endsWith front ".git" = false) :
    resolveRepoName front = name.text := by rw [resolveRepoName,if_neg (Bool.eq_false_iff.mp once),text]

theorem reached_plain {name : RepoName} (plain : LinkPlain name) : Reached name := by
  obtain ⟨front,text,once,unchanged,free⟩ := plain
  have listed := listed_front text once
  obtain ⟨full,decoded,path⟩ := segments_unchanged none_settled unchanged
  have request : visited (listedLink name) = some [encode (bytesOf front)] := by
    rw [visited,link_bytes,listed,path]
    exact if_neg (Bool.eq_false_iff.mp (stays unchanged.1))
  have home := segment_home full (plain_taken free unchanged)
  rw [Reached,opened,request,Option.bind_some,home]
  dsimp only
  rw [decoded,textOf_bytes,Option.map_some,resolved_front text once]

-- What arrives is no longer than what is left of the name, so one suffix was
-- taken off and nothing else was changed.
theorem slug_listed {name : RepoName} {slug : String} (resolved : resolveRepoName slug = name.text)
    (short : (bytesOf slug).length ≤ (bytesOf (listedName name)).length) :
    slug = listedName name ∧ name.text = slug ++ ".git" ∧ endsWith slug ".git" = false := by
  obtain ⟨more,text⟩ : ∃ more, name.text = listedName name ++ more ++ ".git" := trimEnd_shape name.suffixed
  have suffix : (bytesOf ".git").length = 4 := by decide
  have size : (bytesOf name.text).length = (bytesOf (listedName name)).length + (bytesOf more).length + 4 := by
    rw [← suffix,← List.length_append,← bytes_append,← List.length_append,← bytes_append,← text]
  unfold resolveRepoName at resolved
  split at resolved
  · rw [← resolved] at size
    omega
  · rename_i once
    have longer : (bytesOf name.text).length = (bytesOf slug).length + 4 := by
      rw [← suffix,← List.length_append,← bytes_append,resolved]
    have nothing : more = "" := by
      have empty : (bytesOf more).length = 0 := by omega
      simpa [bytesOf] using empty
    rw [nothing,String.append_empty,← resolved] at text
    exact ⟨(String.append_left_inj _).mp text,resolved.symm,Bool.eq_false_iff.mpr once⟩

theorem plain_reached {name : RepoName} (reached : Reached name) : LinkPlain name := by
  unfold Reached opened at reached
  split at reached
  · rename_i segment found
    obtain ⟨path,request,home⟩ := Option.bind_eq_some_iff.mp found
    obtain ⟨_,full,rfl,same,free⟩ := home_segment home
    cases same
    obtain ⟨slug,read,resolved⟩ := Option.map_eq_some_iff.mp reached
    have arrived : segments (base [] ++ 47 :: bytesOf (listedName name)) = [].map encode ++ [segment] := by
      rw [visited,link_bytes] at request
      split at request
      · cases request
      · exact Option.some.inj request
    have short := segment_short none_settled full arrived
    have decoded := bytes_of_text read
    rw [decoded] at short
    obtain ⟨rfl,text,once⟩ := slug_listed resolved short
    have unchanged := unchanged_of_segments none_settled full arrived decoded
    refine ⟨listedName name,text,once,unchanged,?_⟩
    intro listed
    have kept : ∀ name ∈ taken, encode (bytesOf name) = bytesOf name := by decide
    rw [(segments_unchanged none_settled unchanged).2.2,kept _ listed] at arrived
    cases arrived
    exact free (List.mem_map_of_mem listed)
  · cases reached

theorem name_text {one two : RepoName} (same : one.text = two.text) : one = two := by
  cases one
  cases two
  cases same
  rfl

-- Reached by its link is a repository exactly where its name is plain, and the
-- links of two such repositories differ.
theorem repo_linked (name : RepoName) : (Reached name ↔ LinkPlain name) ∧
    ∀ other, LinkPlain name → LinkPlain other → listedLink name = listedLink other → name = other := by
  refine ⟨⟨plain_reached,reached_plain⟩,?_⟩
  intro other first second same
  have reachedOne : opened (listedLink name) = some name.text := reached_plain first
  have reachedTwo : opened (listedLink other) = some other.text := reached_plain second
  rw [same,reachedTwo] at reachedOne
  exact name_text (Option.some.inj reachedOne).symm

-- Blanks, letters of any kind and a dot in front stay in a link.
example : opened "/.my café" = some ".my café.git" := by decide

-- A page of its own, and a suffix that was taken off twice.
example : opened "/config" = none ∧ opened ("/" ++ trimEndMatches "a.git.git" ".git") = some "a.git" := by decide

def groupedName : RepoName := ⟨"work/foo.git",by decide +kernel,by decide +kernel,by decide +kernel,by decide +kernel⟩

def server : Quire := ⟨⟨true,["srv"]⟩⟩

-- No route takes the two segments of a group.
theorem group_unreached : server.repo (fun _ => true) "work/foo.git" = .ok (Repo.new server.reposDir groupedName) ∧
    listedLink groupedName = "/work/foo" ∧ ¬ Reached groupedName := by
  refine ⟨?_,by decide,?_⟩
  · have accepted : RepoName.fromStr "work/foo.git" = .ok groupedName := fromStr_text groupedName
    rw [Quire.repo,accepted]
    rfl
  · have lost : opened (listedLink groupedName) = none := by decide
    rw [Reached,lost]
    exact Option.some_ne_none _ ∘ Eq.symm

end Quire.RepoLinks
