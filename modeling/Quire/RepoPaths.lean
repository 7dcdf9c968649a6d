import Mathlib.Data.List.Basic
import Mathlib.Tactic.SplitIfs
import Quire.RepoNames

namespace Quire.RepoPaths
open Text TextReplace RepoNames

-- What a segment of a name is, over all strings.
def Segment (seg : String) : Prop :=
  seg ≠ "" ∧ '/' ∉ seg.toList ∧ ¬ ['.','.'] <:+: seg.toList ∧ seg ≠ "." ∧ seg ≠ ".git"

def Grammar (s : String) : Prop :=
  (Segment s ∨ ∃ group seg, Segment group ∧ Segment seg ∧ s = group ++ "/" ++ seg) ∧ ".git".toList <:+ s.toList

def Repo.runsBase (self : Repo) : PathBuf := (self.quireRoot.join "runs").join self.name.text

-- Path::display, of a path whose separators are single.
def PathBuf.display (self : PathBuf) : String := (if self.absolute then "/" else "") ++ join "/" self.parts

def skipped (part : String) : Bool := part == "" || part == "."

-- Path::strip_prefix on the pieces between the slashes: what is left keeps its
-- text, less the empty pieces and the dots at its ends.
def stripParts : List String → List String → Option (List String)
  | [],pieces => some ((pieces.dropWhile skipped).reverse.dropWhile skipped).reverse
  | _ :: _,[] => none
  | part :: parts,piece :: pieces =>
    if skipped piece then stripParts (part :: parts) pieces
    else if piece = part then stripParts parts pieces
    else none

def stripBase (base : PathBuf) (path : String) : Option String :=
  if isAbsolute path = base.absolute then (stripParts base.parts (split path '/')).map (join "/") else none

inductive FromPathError where
  | pathOutsideBase (path : String)
  | repoName (error : RepoNameError)
  deriving DecidableEq, Repr

def Repo.fromPath (reposBase : PathBuf) (path : String) : Except FromPathError Repo :=
  match stripBase reposBase path with
  | none => .error (.pathOutsideBase path)
  | some relative => match RepoName.fromStr relative with
    | .error error => .error (.repoName error)
    | .ok name => .ok (Repo.new reposBase name)

-- Inside a directory, so many names down.
def InsideAt (depth : Nat) (dir path : PathBuf) : Prop := Inside dir path ∧ path.parts.length = dir.parts.length + depth

theorem contains_iff {s needle : String} : contains s needle = true ↔ needle.toList <:+: s.toList := infix_iff_suffixes.symm

theorem endsWith_iff {s ending : String} : endsWith s ending = true ↔ ending.toList <:+ s.toList :=
  List.isSuffixOf_iff_suffix

theorem join_toList (separator : String) (parts : List String) :
    (join separator parts).toList = separator.toList.intercalate (parts.map String.toList) := by
  induction parts with
  | nil => rfl
  | cons first rest ih =>
    cases rest with
    | nil => simp [join]
    | cons second rest =>
      rw [List.map_cons] at ih
      rw [join,String.toList_append,String.toList_append,ih,List.map_cons,List.map_cons,List.intercalate_cons_cons]
      exact fun nonempty => List.cons_ne_nil _ _ nonempty

theorem join_pieces {separator : String} (single : separator.toList = [c]) (s : String) : join separator (split s c) = s := by
  apply String.toList_inj.mp
  rw [join_toList,split,List.map_map,single]
  have plain : String.toList ∘ String.ofList = id := funext fun chars => String.toList_ofList
  rw [plain,List.map_id]
  exact List.intercalate_splitOn c

theorem join_split (s : String) : join "/" (split s '/') = s := join_pieces rfl s

theorem split_join {parts : List String} (nonempty : parts ≠ []) (free : ∀ part ∈ parts, '/' ∉ part.toList) :
    split (join "/" parts) '/' = parts := by
  have pieces : ∀ chars ∈ parts.map String.toList, '/' ∉ chars := by
    intro chars member
    obtain ⟨part,listed,rfl⟩ := List.mem_map.mp member
    exact free part listed
  have read := List.splitOn_intercalate '/' pieces (by simpa using nonempty)
  have plain : String.ofList ∘ String.toList = id := funext fun s => String.ofList_toList
  rw [split,join_toList]
  change List.map String.ofList ((['/'].intercalate (parts.map String.toList)).splitOn '/') = parts
  rw [read,List.map_map,plain,List.map_id]

theorem split_single {s : String} (free : '/' ∉ s.toList) : split s '/' = [s] := by
  have whole : split (join "/" [s]) '/' = [s] := split_join (List.cons_ne_nil s []) (by simpa using free)
  exact whole

theorem split_pair {group seg : String} (left : '/' ∉ group.toList) (right : '/' ∉ seg.toList) :
    split (group ++ "/" ++ seg) '/' = [group,seg] := by
  have whole : split (join "/" [group,seg]) '/' = [group,seg] :=
    split_join (List.cons_ne_nil group [seg]) (by simp [left,right])
  exact whole

theorem intercalate_within (separator : List Char) (pieces : List (List Char)) :
    ∀ piece ∈ pieces, piece <:+: separator.intercalate pieces := by
  induction pieces with
  | nil => intro piece member; cases member
  | cons first rest ih =>
    intro piece member
    cases rest with
    | nil =>
      obtain rfl := List.mem_singleton.mp member
      simp
    | cons second rest =>
      rw [List.intercalate_cons_cons,List.append_assoc]
      rcases List.mem_cons.mp member with rfl | later
      · exact (List.prefix_append _ _).isInfix
      · have inner := (ih piece later).trans (List.suffix_append separator _).isInfix
        exact inner.trans (List.suffix_append first _).isInfix

theorem split_within (s : String) (separator : Char) : ∀ piece ∈ split s separator, piece.toList <:+: s.toList := by
  intro piece member
  obtain ⟨chars,listed,rfl⟩ := List.mem_map.mp member
  rw [String.toList_ofList]
  have inside := intercalate_within [separator] _ chars listed
  rwa [List.intercalate_splitOn] at inside

-- Two separators in a row enclose an empty piece.
theorem split_doubled {s : String} (doubled : contains s "//" = true) : "" ∈ split s '/' := by
  obtain ⟨left,right,inside⟩ := contains_iff.mp doubled
  have text : s.toList = left ++ '/' :: '/' :: right := by rw [← inside]; simp
  have pieces : s.toList.splitOn '/' = left.splitOn '/' ++ [] :: right.splitOn '/' := by
    rw [text,List.splitOn_append_cons_self,List.splitOn_cons_eq_if_modifyHead,if_pos (beq_self_eq_true '/')]
  rw [Text.split,pieces]
  simp

theorem fromStr_text (name : RepoName) : RepoName.fromStr name.text = .ok name := by
  have full : name.text ≠ "" := fun empty => name.plain "" (by simp [empty,split]) (.inl rfl)
  have single : ¬ contains name.text "//" = true := fun doubled => name.plain "" (split_doubled doubled) (.inl rfl)
  rw [RepoName.fromStr,if_neg full,dif_neg (Bool.eq_false_iff.mp name.straight),dif_pos name.suffixed,if_neg single,
    dif_neg (Nat.not_lt_of_le name.grouped),dif_pos name.plain]

theorem fromStr_accepts {s : String} {name : RepoName} (accepted : RepoName.fromStr s = .ok name) : name.text = s := by
  unfold RepoName.fromStr at accepted
  split_ifs at accepted
  cases accepted
  rfl

theorem name_segments (name : RepoName) : ∀ seg ∈ split name.text '/', Segment seg := by
  intro seg member
  have plain := name.plain seg member
  simp only [Reserved,not_or] at plain
  refine ⟨plain.1,split_free name.text '/' seg member,?_,plain.2.1,plain.2.2.2⟩
  intro dots
  have within := split_within name.text '/' seg member
  exact Bool.eq_false_iff.mp name.straight (contains_iff.mpr (dots.trans within))

theorem segment_plain {seg : String} (segment : Segment seg) : ¬ Reserved seg := by
  obtain ⟨full,_,straight,other,git⟩ := segment
  rintro (empty | dot | dots | reserved)
  · exact full empty
  · exact other dot
  · exact straight (by rw [dots]; exact List.infix_rfl)
  · exact git reserved

-- The dots of a pair of segments lie in one of them.
theorem pair_straight {group seg : String} (left : Segment group) (right : Segment seg) :
    contains (group ++ "/" ++ seg) ".." = false := by
  apply Bool.eq_false_iff.mpr
  intro dots
  have apart : ¬ Touches ['.','.'] ['/'] := by decide
  have found : ['.','.'] <:+: group.toList ++ (['/'] ++ seg.toList) := by simpa using contains_iff.mp dots
  rcases infix_beside apart found with inGroup | inSeg
  · exact left.2.2.1 inGroup
  · exact right.2.2.1 inSeg

theorem grammar_of_name (name : RepoName) : Grammar name.text := by
  refine ⟨?_,endsWith_iff.mp name.suffixed⟩
  have segments := name_segments name
  have text := join_split name.text
  have grouped := name.grouped
  match pieces : split name.text '/' with
  | [] => exact absurd pieces (by simp [split])
  | [seg] =>
    rw [pieces] at segments text
    left
    rw [← text]
    exact segments seg (List.mem_singleton_self seg)
  | [group,seg] =>
    rw [pieces] at segments text
    exact .inr ⟨group,seg,segments group (by simp),segments seg (by simp),text.symm⟩
  | _ :: _ :: _ :: rest =>
    rw [pieces] at grouped
    simp at grouped

theorem grammar_accepted {s : String} (grammar : Grammar s) : ∃ name, RepoName.fromStr s = .ok name := by
  obtain ⟨shape,suffixed⟩ := grammar
  rcases shape with segment | ⟨group,seg,left,right,rfl⟩
  · have pieces := split_single segment.2.1
    have straight : contains s ".." = false := Bool.eq_false_iff.mpr fun dots => segment.2.2.1 (contains_iff.mp dots)
    let name : RepoName :=
      ⟨s,straight,endsWith_iff.mpr suffixed,by simp [pieces],by simpa [pieces] using segment_plain segment⟩
    exact ⟨name,fromStr_text name⟩
  · have pieces := split_pair left.2.1 right.2.1
    let name : RepoName := ⟨group ++ "/" ++ seg,pair_straight left right,endsWith_iff.mpr suffixed,by simp [pieces],
      by simpa [pieces] using ⟨segment_plain left,segment_plain right⟩⟩
    exact ⟨name,fromStr_text name⟩

theorem fromStr_grammar (s : String) : (∃ name, RepoName.fromStr s = .ok name) ↔ Grammar s := by
  constructor
  · rintro ⟨name,accepted⟩
    rw [← fromStr_accepts accepted]
    exact grammar_of_name name
  · exact grammar_accepted

section Joining
variable {text : String} {name : RepoName}

theorem parse_parts (text : String) : ∀ part ∈ (PathBuf.parse text).parts, skipped part = false ∧ '/' ∉ part.toList := by
  intro part member
  obtain ⟨piece,kept⟩ := List.mem_filter.mp member
  exact ⟨by simpa [skipped] using kept,split_free text '/' part piece⟩

theorem name_parts (name : RepoName) : ∀ part ∈ split name.text '/', skipped part = false ∧ '/' ∉ part.toList := by
  intro part member
  obtain ⟨full,free,_,plain,_⟩ := name_segments name part member
  exact ⟨by simp [skipped,full,plain],free⟩

theorem join_word (dir : PathBuf) (plain : PathBuf.parse word = ⟨false,[word]⟩) :
    dir.join word = ⟨dir.absolute,dir.parts ++ [word]⟩ := by
  rw [PathBuf.join,plain]
  rfl

theorem repo_root (absolute : isAbsolute text = true) (last : (PathBuf.parse text).parts.getLast? = some "repos")
    (name : RepoName) :
    (Repo.new (PathBuf.parse text) name).quireRoot = ⟨true,(PathBuf.parse text).parts.dropLast⟩ := by
  have nonempty : (PathBuf.parse text).parts ≠ [] := fun empty => by simp [empty] at last
  rw [Repo.new,PathBuf.parent,if_neg nonempty,Option.getD_some,PathBuf.parse,absolute]

theorem base_parts (last : (PathBuf.parse text).parts.getLast? = some "repos") :
    (PathBuf.parse text).parts.dropLast ++ ["repos"] = (PathBuf.parse text).parts :=
  List.dropLast_append_getLast? "repos" last

theorem path_parts (absolute : isAbsolute text = true) (last : (PathBuf.parse text).parts.getLast? = some "repos")
    (name : RepoName) :
    (Repo.new (PathBuf.parse text) name).path = (PathBuf.parse text).join name.text := by
  have repos : PathBuf.parse "repos" = ⟨false,["repos"]⟩ := by decide
  have base : PathBuf.parse text = ⟨true,(PathBuf.parse text).parts⟩ := by rw [PathBuf.parse,absolute]
  rw [Repo.path,repo_root absolute last,join_word _ repos,base_parts last,← base]
  rfl

theorem runs_parts (absolute : isAbsolute text = true) (last : (PathBuf.parse text).parts.getLast? = some "repos")
    (name : RepoName) : Repo.runsBase (Repo.new (PathBuf.parse text) name) =
      (PathBuf.mk true ((PathBuf.parse text).parts.dropLast ++ ["runs"])).join name.text := by
  have runs : PathBuf.parse "runs" = ⟨false,["runs"]⟩ := by decide
  rw [Repo.runsBase,repo_root absolute last,join_word _ runs]
  rfl

theorem split_nonempty (s : String) (separator : Char) : split s separator ≠ [] := by simp [split]

theorem join_depth (dir : PathBuf) (name : RepoName) :
    InsideAt 1 dir (dir.join name.text) ∨ InsideAt 2 dir (dir.join name.text) := by
  have inside := join_inside dir name
  have some : 0 < (split name.text '/').length := List.length_pos_iff.mpr (split_nonempty _ _)
  have parts : (dir.join name.text).parts.length = dir.parts.length + (split name.text '/').length := by
    rw [join_name,List.length_append]
  have few : (split name.text '/').length = 1 ∨ (split name.text '/').length = 2 := by
    have most := name.grouped
    omega
  rcases few with one | two
  · exact .inl ⟨inside,by rw [parts,one]⟩
  · exact .inr ⟨inside,by rw [parts,two]⟩

theorem stripParts_append (parts : List String) (plain : ∀ part ∈ parts, skipped part = false) (rest : List String) :
    stripParts parts (parts ++ rest) = stripParts [] rest := by
  induction parts with
  | nil => rfl
  | cons part parts ih =>
    obtain ⟨kept,later⟩ := List.forall_mem_cons.mp plain
    calc stripParts (part :: parts) (part :: (parts ++ rest))
        = stripParts parts (parts ++ rest) := by rw [stripParts,if_neg (Bool.eq_false_iff.mp kept),if_pos rfl]
      _ = stripParts [] rest := ih later

theorem dropWhile_kept (pieces : List String) (plain : ∀ piece ∈ pieces, skipped piece = false) :
    pieces.dropWhile skipped = pieces := by
  cases pieces with
  | nil => rfl
  | cons piece rest => rw [List.dropWhile_cons,plain piece (by simp)]; rfl

theorem stripParts_kept (pieces : List String) (plain : ∀ piece ∈ pieces, skipped piece = false) :
    stripParts [] pieces = some pieces := by
  have reversed : ∀ piece ∈ pieces.reverse, skipped piece = false := fun piece member =>
    plain piece (List.mem_reverse.mp member)
  rw [stripParts,dropWhile_kept pieces plain,dropWhile_kept _ reversed,List.reverse_reverse]

theorem display_pieces {parts : List String} (nonempty : parts ≠ []) (free : ∀ part ∈ parts, '/' ∉ part.toList) :
    split (PathBuf.display ⟨true,parts⟩) '/' = "" :: parts := by
  have opened : PathBuf.display ⟨true,parts⟩ = join "/" ("" :: parts) := by
    cases parts with
    | nil => exact absurd rfl nonempty
    | cons part rest => simp [PathBuf.display,join]
  rw [opened]
  apply split_join (List.cons_ne_nil _ _)
  intro part member
  rcases List.mem_cons.mp member with rfl | listed
  · simp
  · exact free part listed

theorem display_absolute (parts : List String) : isAbsolute (PathBuf.display ⟨true,parts⟩) = true := by
  simp [isAbsolute,PathBuf.display]

-- What is stripped off the path of a repository leaves its name.
theorem strip_name (absolute : isAbsolute text = true) (last : (PathBuf.parse text).parts.getLast? = some "repos")
    (name : RepoName) :
    stripBase (PathBuf.parse text) (PathBuf.display (Repo.new (PathBuf.parse text) name).path) = some name.text := by
  have base : PathBuf.parse text = ⟨true,(PathBuf.parse text).parts⟩ := by rw [PathBuf.parse,absolute]
  have plain := parse_parts text
  have segments := name_parts name
  rw [path_parts absolute last,join_name,base]
  generalize (PathBuf.parse text).parts = parts at *
  have free : ∀ part ∈ parts ++ split name.text '/', '/' ∉ part.toList := by
    intro part member
    rcases List.mem_append.mp member with inBase | inName
    · exact (plain part inBase).2
    · exact (segments part inName).2
  have nonempty : parts ≠ [] := fun empty => by simp [empty] at last
  have pieces := display_pieces (List.append_ne_nil_of_left_ne_nil nonempty _) free
  have rest := stripParts_append parts (fun part member => (plain part member).1) (split name.text '/')
  have kept := stripParts_kept (split name.text '/') fun part member => (segments part member).1
  have leading : stripParts parts ("" :: (parts ++ split name.text '/')) = stripParts parts (parts ++ split name.text '/') := by
    cases parts with
    | nil => exact absurd rfl nonempty
    | cons part parts => rw [stripParts,if_pos (by rfl)]
  rw [stripBase,if_pos (display_absolute _),pieces,leading,rest,kept,Option.map_some,join_split]

theorem fromPath_name (absolute : isAbsolute text = true) (last : (PathBuf.parse text).parts.getLast? = some "repos")
    (name : RepoName) :
    Repo.fromPath (PathBuf.parse text) (PathBuf.display (Repo.new (PathBuf.parse text) name).path) =
      .ok (Repo.new (PathBuf.parse text) name) := by
  rw [Repo.fromPath,strip_name absolute last]
  dsimp only
  rw [fromStr_text]

end Joining

-- A name is accepted when it has the grammar, its two paths are one or two names
-- inside the repos and the runs directory, and its path is read back as the name.
theorem repo_names :
    (∀ s, (∃ name, RepoName.fromStr s = .ok name) ↔ Grammar s) ∧
      ∀ text, isAbsolute text = true → (PathBuf.parse text).parts.getLast? = some "repos" →
        ∀ s name, RepoName.fromStr s = .ok name →
          let base := PathBuf.parse text
          let runs : PathBuf := ⟨true,base.parts.dropLast ++ ["runs"]⟩
          let repo := Repo.new base name
          name.text = s ∧ (InsideAt 1 base repo.path ∨ InsideAt 2 base repo.path) ∧
            (InsideAt 1 runs (Repo.runsBase repo) ∨ InsideAt 2 runs (Repo.runsBase repo)) ∧
            ∃ found, Repo.fromPath base (PathBuf.display repo.path) = .ok found ∧ found.name = name ∧
              found.path = repo.path := by
  refine ⟨fromStr_grammar,?_⟩
  intro text absolute last s name accepted base runs repo
  have path : repo.path = base.join name.text := path_parts absolute last name
  have runsPath : Repo.runsBase repo = runs.join name.text := runs_parts absolute last name
  refine ⟨fromStr_accepts accepted,?_,?_,repo,fromPath_name absolute last name,rfl,rfl⟩
  · rw [path]
    exact join_depth base name
  · rw [runsPath]
    exact join_depth runs name

theorem repo_names_grouped : ∃ name, RepoName.fromStr "work/foo.git" = .ok name ∧ name.text = "work/foo.git" ∧
    ∃ found, Repo.fromPath (PathBuf.parse "/var/quire/repos")
      (PathBuf.display (Repo.new (PathBuf.parse "/var/quire/repos") name).path) = .ok found ∧ found.name = name := by
  have grammar : Grammar "work/foo.git" := by
    refine ⟨.inr ⟨"work","foo.git",?_,?_,by decide⟩,by decide⟩ <;>
      exact ⟨by decide,by decide,by rw [infix_iff_suffixes]; decide,by decide,by decide⟩
  obtain ⟨name,accepted⟩ := (repo_names.1 "work/foo.git").mpr grammar
  obtain ⟨text,_,_,found,read,same,_⟩ :=
    repo_names.2 "/var/quire/repos" (by decide) (by decide) "work/foo.git" name accepted
  exact ⟨name,accepted,text,found,read,same⟩

end Quire.RepoPaths
