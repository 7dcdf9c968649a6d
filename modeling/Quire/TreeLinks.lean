import Quire.RepoLinks
import Quire.TreeListing
import Quire.UrlIntact

namespace Quire.TreeLinks
open Text TextLines JsonTokens RepoNames RepoPaths UrlPath UrlIntact Routes GitQuoting GitViews RepoLinks TreeListing

-- `path.rfind('/')` and what stands before it.
def beforeLast (path : String) : Option String :=
  match path.toList.reverse.span (fun c => c != '/') with
  | (_,[]) => none
  | (_,_ :: front) => some (String.ofList front.reverse)

def parentUrl (repo path : String) : String :=
  if path = "" then "/" ++ repo
  else match beforeLast path with
    | some front => "/" ++ repo ++ "/tree/" ++ front
    | none => "/" ++ repo ++ "/tree"

def dirEntryUrl (repo path name : String) : String :=
  if path = "" then "/" ++ repo ++ "/tree/" ++ name else "/" ++ repo ++ "/tree/" ++ path ++ "/" ++ name

structure Crumb where
  label : String
  href : String
  deriving DecidableEq, Repr

def pathCrumbs (repo path : String) : List Crumb :=
  if path = "" then []
  else (split path '/').zipIdx.map fun (seg,i) => ⟨seg,"/" ++ repo ++ "/tree/" ++ join "/" ((split path '/').take (i + 1))⟩

-- The source has the same body twice.
def buildTreeCrumbs (repo path : String) : List Crumb := pathCrumbs repo path
def buildFileCrumbs (repo path : String) : List Crumb := pathCrumbs repo path

-- The repository and the path in it that a link opens. The template escapes the
-- link and the browser reads it back, so it arrives as it was built.
def treeOpened (link : String) : Option (String × String) :=
  match (visited link).bind (dispatch publicRoutes) with
  | some (.treeView,[repo]) => (textOf (decode repo)).map fun repo => (resolveRepoName repo,"")
  | some (.treeViewPath,[repo,path]) =>
    (textOf (decode repo)).bind fun repo => (textOf (decode path)).map fun path => (resolveRepoName repo,path)
  | _ => none

def filePath (names : List FileName) : String := join "/" (names.map FileName.text)

-- What the links of a page lead to: that of an entry by the name that is shown,
-- those of its crumbs, and the one up from it.
structure Linked (name : RepoName) (dir : List FileName) (entry : FileName) (shown : Option (TreeEntryKind × String)) : Prop where
  opens : ∃ kind raw, shown = some (kind,raw) ∧
    treeOpened (dirEntryUrl (listedName name) (filePath dir) raw) = some (name.text,filePath (dir ++ [entry]))
  crumbs : ∀ build ∈ [buildTreeCrumbs,buildFileCrumbs],
    (build (listedName name) (filePath (dir ++ [entry]))).map (fun crumb => treeOpened crumb.href) =
      (List.range (dir ++ [entry]).length).map fun i => some (name.text,filePath ((dir ++ [entry]).take (i + 1)))
  returns : treeOpened (parentUrl (listedName name) (filePath (dir ++ [entry]))) = some (name.text,filePath dir)

-- A segment that parsing and decoding leave alone, wherever it stands.
def Kept (bytes : Bytes) : Prop := Settled bytes ∧ escapes bytes = false

def RepoPlain (name : RepoName) : Prop :=
  ∃ front, name.text = front ++ ".git" ∧ endsWith front ".git" = false ∧ front ≠ "" ∧ Kept (bytesOf front)

structure Plain (name : RepoName) (dir : List FileName) (entry : FileName) : Prop where
  repo : RepoPlain name
  path : ∀ segment ∈ dir ++ [entry], Unchanged (bytesOf segment.text)
  usual : ∀ b ∈ bytesOf entry.text, unusual b = false

def treeLink (repo : String) (names : List FileName) : String := "/" ++ repo ++ "/tree/" ++ filePath names

section Texts
variable {name : RepoName} {names dir : List FileName} {entry : FileName} {repo : String}

theorem slash_byte {s : String} (inside : '/' ∈ s.toList) : 47 ∈ bytesOf s := char_byte (by decide) inside

theorem filePath_cons (first : FileName) (names : List FileName) :
    bytesOf (filePath (first :: names)) = bytesOf first.text ++ base (names.map fun name => bytesOf name.text) := by
  induction names generalizing first with
  | nil => simp [filePath,join,base]
  | cons next names ih =>
    have shape : filePath (first :: next :: names) = first.text ++ "/" ++ filePath (next :: names) := rfl
    rw [shape,bytes_append,bytes_append,bytes_slash,ih]
    simp [base]

theorem filePath_base (some : names ≠ []) : base (names.map fun name => bytesOf name.text) = 47 :: bytesOf (filePath names) := by
  obtain ⟨first,more,rfl⟩ := List.exists_cons_of_ne_nil some
  rw [filePath_cons]
  rfl

theorem tree_bytes : bytesOf "/tree/" = 47 :: (bytesOf "tree" ++ [47]) := by decide

theorem link_bytes (repo : String) (first : FileName) (names : List FileName) : bytesOf (treeLink repo (first :: names)) =
    base (bytesOf repo :: bytesOf "tree" :: (first :: names).map fun name => bytesOf name.text) := by
  rw [treeLink,bytes_append,bytes_append,bytes_append,bytes_slash,tree_bytes,filePath_cons]
  simp [base]

theorem filePath_split (some : names ≠ []) : split (filePath names) '/' = names.map FileName.text := by
  apply split_join (by simpa using some)
  intro text member
  obtain ⟨name,_,rfl⟩ := List.mem_map.mp member
  exact fun inside => name.free.1 (slash_byte inside)

theorem filePath_full (some : names ≠ []) : filePath names ≠ "" := by
  intro empty
  obtain ⟨first,more,rfl⟩ := List.exists_cons_of_ne_nil some
  have bytes := filePath_cons first more
  rw [empty,bytes_empty] at bytes
  exact bytes_full first.full (List.append_eq_nil_iff.mp bytes.symm).1

theorem filePath_snoc (some : dir ≠ []) (entry : FileName) : filePath (dir ++ [entry]) = filePath dir ++ "/" ++ entry.text := by
  induction dir with
  | nil => exact absurd rfl some
  | cons first dir ih =>
    cases dir with
    | nil => rfl
    | cons next dir =>
      have shape : ∀ names, filePath (first :: next :: names) = first.text ++ "/" ++ filePath (next :: names) := fun _ => rfl
      have later := ih (List.cons_ne_nil _ _)
      rw [List.cons_append] at later
      rw [List.cons_append,List.cons_append,shape,shape,later]
      simp only [String.append_assoc]

theorem beforeLast_name (entry : FileName) : beforeLast entry.text = none := by
  have free : ∀ c ∈ entry.text.toList.reverse, (c != '/') = true := by
    intro c member
    simp only [bne_iff_ne,ne_eq]
    rintro rfl
    exact entry.free.1 (slash_byte (List.mem_reverse.mp member))
  rw [beforeLast,List.span_eq_takeWhile_dropWhile,List.dropWhile_eq_nil_iff.mpr free]

theorem beforeLast_snoc (front : String) (entry : FileName) : beforeLast (front ++ "/" ++ entry.text) = some front := by
  have free : '/' ∉ entry.text.toList.reverse := fun member => entry.free.1 (slash_byte (List.mem_reverse.mp member))
  have shape : (front ++ "/" ++ entry.text).toList.reverse = entry.text.toList.reverse ++ '/' :: front.toList.reverse := by simp
  rw [beforeLast,shape,span_field free]
  simp

theorem parent_root (repo : String) (entry : FileName) : parentUrl repo (filePath [entry]) = "/" ++ repo ++ "/tree" := by
  have whole : filePath [entry] = entry.text := rfl
  rw [parentUrl,if_neg (filePath_full (List.cons_ne_nil _ _)),whole,beforeLast_name]

theorem parent_link (some : dir ≠ []) (repo : String) (entry : FileName) :
    parentUrl repo (filePath (dir ++ [entry])) = treeLink repo dir := by
  rw [parentUrl,if_neg (filePath_full (List.append_ne_nil_of_right_ne_nil _ (List.cons_ne_nil _ _))),filePath_snoc some,beforeLast_snoc]
  rfl

theorem entry_link (repo : String) (dir : List FileName) (entry : FileName) :
    dirEntryUrl repo (filePath dir) entry.text = treeLink repo (dir ++ [entry]) := by
  by_cases some : dir = []
  · subst some
    rfl
  · rw [dirEntryUrl,if_neg (filePath_full some),treeLink,filePath_snoc some]
    simp only [String.append_assoc]

theorem entry_bytes (repo : String) (dir : List FileName) (raw : String) : bytesOf (dirEntryUrl repo (filePath dir) raw) =
    base (bytesOf repo :: bytesOf "tree" :: dir.map fun name => bytesOf name.text) ++ 47 :: bytesOf raw := by
  cases dir with
  | nil =>
    have empty : filePath [] = "" := rfl
    rw [dirEntryUrl,if_pos empty,bytes_append,bytes_append,bytes_append,bytes_slash,tree_bytes]
    simp [base]
  | cons first dir =>
    rw [dirEntryUrl,if_neg (filePath_full (List.cons_ne_nil _ _)),bytes_append,bytes_append]
    change bytesOf (treeLink repo (first :: dir)) ++ _ ++ _ = _
    rw [link_bytes,bytes_slash]
    simp

theorem crumb_links (some : names ≠ []) (repo : String) : (pathCrumbs repo (filePath names)).map Crumb.href =
    (List.range names.length).map fun i => treeLink repo (names.take (i + 1)) := by
  rw [pathCrumbs,if_neg (filePath_full some),filePath_split some,List.map_map]
  have hrefs : (Crumb.href ∘ fun (seg,i) => ⟨seg,"/" ++ repo ++ "/tree/" ++ join "/" ((names.map FileName.text).take (i + 1))⟩) =
      (fun i => treeLink repo (names.take (i + 1))) ∘ Prod.snd := by
    funext ⟨seg,i⟩
    simp only [Function.comp_apply,treeLink,filePath,List.map_take]
  rw [hrefs,← List.map_map,List.zipIdx_map_snd,List.length_map,List.range_eq_range']

end Texts

-- The two routes of the tree, by what they take of a path.
theorem tree_dispatch {first : Bytes} (full : first ≠ []) : dispatch publicRoutes [first,bytesOf "tree"] = some (.treeView,[first]) := by
  have other : bytesOf "tree" ≠ [] := bytes_full (by decide)
  simp [dispatch,publicRoutes,literal,Route.captures,full,bytes_empty,other]

theorem treePath_dispatch {first segment : Bytes} (full : first ≠ []) (some : segment ≠ []) (more : List Bytes) :
    dispatch publicRoutes (first :: bytesOf "tree" :: segment :: more) = Option.some (.treeViewPath,[first,segment ++ base more]) := by
  have other : bytesOf "tree" ≠ [] := bytes_full (by decide)
  have path : segment ++ base more ≠ [] := List.append_ne_nil_of_left_ne_nil some _
  simp [dispatch,publicRoutes,literal,Route.captures,full,bytes_empty,other,joined,path]

theorem treePath_captures {path captured : List Bytes} (found : dispatch publicRoutes path = some (.treeViewPath,captured)) :
    ∃ first segment more, first ≠ [] ∧ path = first :: bytesOf "tree" :: segment :: more ∧ captured = [first,segment ++ base more] := by
  obtain ⟨route,listed,matched⟩ := dispatch_listed found
  have only : route = [Part.capture,literal "tree",.rest] := by
    simp only [publicRoutes,List.mem_cons,Prod.mk.injEq] at listed
    simpa using listed
  subst only
  cases path with
  | nil => cases matched
  | cons first path =>
    rw [Route.captures] at matched
    split at matched
    · cases matched
    · rename_i full
      obtain ⟨behind,later,rfl⟩ := Option.map_eq_some_iff.mp matched
      cases path with
      | nil => cases later
      | cons second path =>
        rw [literal,Route.captures] at later
        split at later
        · rename_i same
          cases path with
          | nil => cases later
          | cons segment more =>
            rw [Route.captures,joined] at later
            split at later
            · cases later
            · cases later
              exact ⟨first,segment,more,full,by rw [same],rfl⟩
        · cases later

-- What a link opens with the path that it has in the table.
theorem opened_path {link repo path : String} (opened : treeOpened link = some (repo,path)) (some : path ≠ "") :
    ∃ first segment more slug, visited link = Option.some (first :: bytesOf "tree" :: segment :: more) ∧ first ≠ [] ∧
      decode first = bytesOf slug ∧ resolveRepoName slug = repo ∧ decode segment ++ base (more.map decode) = bytesOf path := by
  unfold treeOpened at opened
  split at opened
  · obtain ⟨_,_,same⟩ := Option.map_eq_some_iff.mp opened
    cases same
    exact absurd rfl some
  · rename_i repoSegment pathSegments found
    obtain ⟨asked,request,routed⟩ := Option.bind_eq_some_iff.mp found
    obtain ⟨first,segment,more,full,rfl,same⟩ := treePath_captures routed
    cases same
    obtain ⟨slug,readRepo,opened⟩ := Option.bind_eq_some_iff.mp opened
    obtain ⟨text,readPath,same⟩ := Option.map_eq_some_iff.mp opened
    cases same
    refine ⟨_,segment,more,slug,request,full,bytes_of_text readRepo,rfl,?_⟩
    rw [← decode_behind]
    exact bytes_of_text readPath
  · cases opened

theorem kept_decoded {piece : Bytes} (kept : Kept piece) : decode (encode piece) = piece := by
  rw [decode_encode,decode_plain piece kept.2]

theorem kept_free {piece : Bytes} (kept : Kept piece) : 47 ∉ piece := fun inside =>
  absurd (kept.1.1 47 inside).1 (by decide)

theorem kept_read {pieces : List Bytes} (kept : ∀ piece ∈ pieces, Kept piece) : (pieces.map encode).map decode = pieces := by
  rw [List.map_map]
  exact (List.map_congr_left fun piece member => kept_decoded (kept piece member)).trans (List.map_id pieces)

theorem names_read {names : List FileName} (kept : ∀ name ∈ names, Kept (bytesOf name.text)) :
    (names.map fun name => bytesOf name.text).map decode = names.map fun name => bytesOf name.text := by
  rw [List.map_map]
  exact List.map_congr_left fun name member => decode_plain _ (kept name member).2

section Arrived
variable {name : RepoName} {first : FileName} {names more : List FileName} {repo segment front : Bytes} {rest others : List Bytes}
  {slug : String}

-- What arrives under the name of the repository is as long as the link, so
-- nothing was lost on the way.
theorem link_whole (sent : segments (bytesOf (treeLink (listedName name) (first :: more))) = repo :: bytesOf "tree" :: segment :: rest)
    (decodedRepo : decode repo = bytesOf slug) (resolved : resolveRepoName slug = name.text)
    (decodedPath : decode segment ++ base (rest.map decode) = bytesOf (filePath (first :: more))) :
    (slug = listedName name ∧ name.text = slug ++ ".git" ∧ endsWith slug ".git" = false) ∧
      (bytesOf (treeLink (listedName name) (first :: more))).length ≤
        (base ((segments (bytesOf (treeLink (listedName name) (first :: more)))).map decode)).length := by
  have tree : decode (bytesOf "tree") = bytesOf "tree" := by decide
  have arrived := arrived_length (bytesOf (treeLink (listedName name) (first :: more)))
  have pathSize := congrArg List.length decodedPath
  rw [filePath_cons,List.length_append,List.length_append] at pathSize
  have linkSize : (bytesOf (treeLink (listedName name) (first :: more))).length = (bytesOf (listedName name)).length + 1 +
      ((bytesOf "tree").length + 1 + ((bytesOf first.text).length + 1 + (base (more.map fun name => bytesOf name.text)).length)) := by
    rw [link_bytes,base_cons,base_cons,List.map_cons,base_cons]
  have arrivedSize : (base ((repo :: bytesOf "tree" :: segment :: rest).map decode)).length = (bytesOf slug).length + 1 +
      ((bytesOf "tree").length + 1 + ((decode segment).length + 1 + (base (rest.map decode)).length)) := by
    rw [List.map_cons,List.map_cons,List.map_cons,base_cons,base_cons,base_cons,decodedRepo,tree]
  rw [sent,arrivedSize] at arrived ⊢
  have listed := slug_listed resolved (by omega)
  obtain ⟨rfl,_⟩ := id listed
  exact ⟨listed,by omega⟩

theorem arrived_names (some : names ≠ []) (kept : ∀ piece ∈ front :: others, Kept piece)
    (decodedPath : decode (encode front) ++ base ((others.map encode).map decode) = bytesOf (filePath names)) :
    front :: others = names.map fun name => bytesOf name.text := by
  apply base_injective
  · exact fun piece member => kept_free (kept piece member)
  · intro piece member
    obtain ⟨name,_,rfl⟩ := List.mem_map.mp member
    exact name.free.1
  · obtain ⟨first,later⟩ := List.forall_mem_cons.mp kept
    rw [kept_decoded first,kept_read later] at decodedPath
    rw [filePath_base some,← decodedPath]
    rfl

-- A name that was taken apart as it is, and what that says of it.
theorem arrived_plain (some : names ≠ [])
    (opened : treeOpened (treeLink (listedName name) names) = Option.some (name.text,filePath names)) :
    RepoPlain name ∧ (∀ segment ∈ names, Kept (bytesOf segment.text)) ∧
      ∀ b ∈ (bytesOf (treeLink (listedName name) names)).getLast?, c0Space b = false := by
  obtain ⟨first,more,rfl⟩ := List.exists_cons_of_ne_nil some
  obtain ⟨repo,segment,rest,slug,request,full,decodedRepo,resolved,decodedPath⟩ := opened_path opened (filePath_full some)
  have sent : segments (bytesOf (treeLink (listedName name) (first :: more))) = repo :: bytesOf "tree" :: segment :: rest := by
    rw [visited] at request
    split at request
    · cases request
    · exact Option.some.inj request
  obtain ⟨⟨rfl,text,once⟩,long⟩ := link_whole sent decodedRepo resolved decodedPath
  obtain ⟨cut,whole,ending⟩ := intact long
  rw [sent] at cut
  -- the pieces of the link are the segments that arrived
  obtain ⟨one,_,pieces,first_eq,cut⟩ := List.map_eq_cons_iff.mp cut.symm
  obtain ⟨two,_,rfl,_,cut⟩ := List.map_eq_cons_iff.mp cut
  obtain ⟨three,others,rfl,rfl,rfl⟩ := List.map_eq_cons_iff.mp cut
  subst first_eq
  rw [pieces] at whole
  obtain ⟨keptRepo,_,keptPath⟩ : Kept one ∧ Kept two ∧ ∀ piece ∈ three :: others, Kept piece := by
    rw [List.forall_mem_cons,List.forall_mem_cons] at whole
    exact whole
  rw [kept_decoded keptRepo] at decodedRepo
  have same := arrived_names some keptPath decodedPath
  refine ⟨⟨listedName name,text,once,?_,decodedRepo ▸ keptRepo⟩,?_,ending⟩
  · intro empty
    rw [empty,bytes_empty] at decodedRepo
    rw [decodedRepo] at full
    exact full rfl
  · intro segment member
    apply keptPath
    rw [same]
    exact List.mem_map_of_mem member

end Arrived

section Whole
variable {name : RepoName} {front raw : String} {dir : List FileName} {segment : Bytes} {more : List Bytes}

-- A link with a repository in front stays on the host.
theorem stays_behind {first : Bytes} (full : first ≠ []) (plain : ∀ piece ∈ first :: more, Settled piece) (text : Bytes) :
    abroad (base (first :: more) ++ 47 :: text) = false := by
  obtain ⟨b,rest,rfl⟩ := List.exists_cons_of_ne_nil full
  have other : slash b = false := ((plain _ List.mem_cons_self).1 b List.mem_cons_self).1
  rw [abroad,clean_base plain]
  exact Bool.and_eq_false_iff.mpr (.inr other)

theorem tree_settled : Settled (bytesOf "tree") := by decide

theorem tree_encoded : encode (bytesOf "tree") = bytesOf "tree" := by decide

-- The last part of a link may be cut into pieces of its own; all that are no dots arrive.
theorem entry_opened (text : name.text = front ++ ".git") (once : endsWith front ".git" = false) (some : front ≠ "")
    (keptRepo : Kept (bytesOf front)) (keptDir : ∀ parent ∈ dir, Kept (bytesOf parent.text))
    (all : (dir.map fun parent => bytesOf parent.text) ++ pieces (bytesOf raw) = segment :: more) (full : segment ≠ [])
    (dots : ∀ piece ∈ pieces (bytesOf raw), doubleDot piece = false ∧ singleDot piece = false) :
    treeOpened (dirEntryUrl (listedName name) (filePath dir) raw) =
      (textOf (decode segment ++ base (more.map decode))).map fun path => (name.text,path) := by
  have listed := listed_front text once
  have plain : ∀ piece ∈ bytesOf front :: bytesOf "tree" :: dir.map fun parent => bytesOf parent.text, Settled piece := by
    rw [List.forall_mem_cons,List.forall_mem_cons]
    refine ⟨keptRepo.1,tree_settled,?_⟩
    intro piece member
    obtain ⟨parent,within,rfl⟩ := List.mem_map.mp member
    exact (keptDir parent within).1
  have repoFull : bytesOf front ≠ [] := bytes_full some
  have request : visited (dirEntryUrl (listedName name) (filePath dir) raw) =
      Option.some (encode (bytesOf front) :: bytesOf "tree" :: encode segment :: more.map encode) := by
    rw [visited,entry_bytes,listed,stays_behind repoFull plain,if_neg Bool.false_ne_true,segments_base plain,resolve_plain _ dots,
      List.cons_append,List.cons_append,all,List.map_cons,List.map_cons,List.map_cons,tree_encoded]
  have decoded : (more.map encode).map decode = more.map decode := by
    rw [List.map_map]
    exact List.map_congr_left fun piece _ => decode_encode piece
  rw [treeOpened,request,Option.bind_some,treePath_dispatch (encode_full repoFull) (encode_full full)]
  dsimp only
  rw [kept_decoded keptRepo,textOf_bytes,Option.bind_some,decode_behind,decode_encode,decoded,resolved_front text once]

end Whole

variable {name : RepoName} {dir : List FileName} {entry : FileName}

theorem link_last (repo : String) (dir : List FileName) (entry : FileName) :
    (bytesOf (treeLink repo (dir ++ [entry]))).getLast? = (bytesOf entry.text).getLast? := by
  have behind : (47 :: bytesOf entry.text).getLast? = (bytesOf entry.text).getLast? :=
    List.getLast?_append_of_ne_nil [47] (bytes_full entry.full)
  rw [← entry_link,entry_bytes,List.getLast?_append_of_ne_nil _ (List.cons_ne_nil _ _),behind]

-- The link to a path leads there exactly where nothing in it means anything to a URL.
theorem link_iff (name : RepoName) (dir : List FileName) (entry : FileName) :
    treeOpened (treeLink (listedName name) (dir ++ [entry])) = some (name.text,filePath (dir ++ [entry])) ↔
      RepoPlain name ∧ (∀ parent ∈ dir, Kept (bytesOf parent.text)) ∧ Unchanged (bytesOf entry.text) := by
  constructor
  · intro opened
    obtain ⟨repo,kept,ending⟩ := arrived_plain (List.append_ne_nil_of_right_ne_nil _ (List.cons_ne_nil _ _)) opened
    obtain ⟨parents,last⟩ := List.forall_mem_append.mp kept
    obtain ⟨settled,none⟩ := last entry List.mem_cons_self
    rw [link_last] at ending
    exact ⟨repo,parents,⟨bytes_full entry.full,settled,ending⟩,none⟩
  · rintro ⟨⟨front,text,once,some,keptRepo⟩,parents,whole,none⟩
    have alone := whole_pieces whole
    have kept : ∀ part ∈ dir ++ [entry], Kept (bytesOf part.text) := by
      rw [List.forall_mem_append]
      refine ⟨parents,fun part member => ?_⟩
      obtain rfl := List.mem_singleton.mp member
      exact ⟨whole.2.1,none⟩
    obtain ⟨first,more,shape⟩ := List.exists_cons_of_ne_nil (List.append_ne_nil_of_right_ne_nil dir (List.cons_ne_nil entry []))
    have all : (dir.map fun parent => bytesOf parent.text) ++ pieces (bytesOf entry.text) =
        bytesOf first.text :: more.map fun part => bytesOf part.text := by
      rw [alone,← List.map_cons (f := fun part : FileName => bytesOf part.text),← shape,List.map_append]
      rfl
    have dots : ∀ piece ∈ pieces (bytesOf entry.text), doubleDot piece = false ∧ singleDot piece = false := by
      rw [alone]
      intro piece member
      obtain rfl := List.mem_singleton.mp member
      exact whole.2.1.2
    rw [shape] at kept
    obtain ⟨keptFirst,keptMore⟩ := List.forall_mem_cons.mp kept
    rw [← entry_link,entry_opened text once some keptRepo parents all (bytes_full first.full) dots,decode_plain _ keptFirst.2,
      names_read keptMore,← filePath_cons,textOf_bytes,shape]
    rfl

theorem root_opened (repo : RepoPlain name) : treeOpened ("/" ++ listedName name ++ "/tree") = some (name.text,"") := by
  obtain ⟨front,text,once,some,keptRepo⟩ := repo
  have listed := listed_front text once
  have plain : ∀ piece ∈ [bytesOf front], Settled piece := fun piece member => List.mem_singleton.mp member ▸ keptRepo.1
  have whole : Whole (bytesOf "tree") := by
    refine ⟨bytes_full (by decide),tree_settled,fun b last => ?_⟩
    obtain rfl : 101 = b := Option.some.inj last
    rfl
  have link : bytesOf ("/" ++ front ++ "/tree") = base [bytesOf front] ++ 47 :: bytesOf "tree" := by
    have ending : bytesOf "/tree" = 47 :: bytesOf "tree" := by decide
    rw [bytes_append,bytes_append,bytes_slash,ending]
    simp [base]
  have request : visited ("/" ++ front ++ "/tree") = Option.some [encode (bytesOf front),bytesOf "tree"] := by
    rw [visited,link,stays_behind (bytes_full some) plain,if_neg Bool.false_ne_true,segments_whole plain whole,List.map_append,
      List.map_singleton,List.map_singleton,tree_encoded]
    rfl
  rw [treeOpened,listed,request,Option.bind_some,tree_dispatch (encode_full (bytes_full some))]
  dsimp only
  rw [kept_decoded keptRepo,textOf_bytes,Option.map_some,resolved_front text once]

-- The backslashes of a quoted name cut its link.
theorem quoted_lost (repo : RepoPlain name) (parents : ∀ parent ∈ dir, Kept (bytesOf parent.text)) (unchanged : Unchanged (bytesOf entry.text))
    (odd : ∃ b ∈ bytesOf entry.text, unusual b = true) :
    treeOpened (dirEntryUrl (listedName name) (filePath dir) (quoteName entry.text)) ≠ some (name.text,filePath (dir ++ [entry])) := by
  obtain ⟨front,text,once,some,keptRepo⟩ := repo
  have clear : Clear (bytesOf entry.text) := fun b member => ⟨(unchanged.1.2.1.1 b member).1,(unchanged.1.2.1.1 b member).2.2⟩
  obtain ⟨first,second,others,cut,dots⟩ := quoted_pieces clear odd
  rw [← quoteName_bytes odd] at cut dots
  have whole : (dir.map fun parent => bytesOf parent.text) ++ pieces (bytesOf (quoteName entry.text)) ≠ [] := by
    rw [cut]
    exact List.append_ne_nil_of_right_ne_nil _ (List.cons_ne_nil _ _)
  obtain ⟨segment,more,all⟩ := List.exists_cons_of_ne_nil whole
  have full : segment ≠ [] := by
    cases dir with
    | nil =>
      rw [cut] at all
      cases all
      exact List.cons_ne_nil _ _
    | cons parent dir =>
      cases all
      exact bytes_full parent.full
  intro opened
  rw [entry_opened text once some keptRepo parents all full dots] at opened
  obtain ⟨path,read,same⟩ := Option.map_eq_some_iff.mp opened
  cases same
  have decoded := bytes_of_text read
  have arrived : base ((segment :: more).map decode) = base ((dir ++ [entry]).map fun part => bytesOf part.text) := by
    rw [filePath_base (List.append_ne_nil_of_right_ne_nil _ (List.cons_ne_nil _ _)),← decoded]
    rfl
  -- behind the directory there are a slash too many
  have behind : base ((pieces (bytesOf (quoteName entry.text))).map decode) = base [bytesOf entry.text] := by
    rw [← all,List.map_append,List.map_append,names_read parents,base,base,List.flatMap_append,List.flatMap_append] at arrived
    exact List.append_cancel_left arrived
  rw [cut] at behind
  have split : decode (34 :: first) ++ 47 :: (decode second ++ base (others.map decode)) = bytesOf entry.text ++ [] :=
    (List.cons_eq_cons.mp behind).2
  apply entry.free.1
  rw [← List.append_nil (bytesOf entry.text),← split]
  simp

theorem crumbs_iff {names : List FileName} (full : names ≠ []) :
    (∀ build ∈ [buildTreeCrumbs,buildFileCrumbs],
      (build (listedName name) (filePath names)).map (fun crumb => treeOpened crumb.href) =
        (List.range names.length).map fun i => some (name.text,filePath (names.take (i + 1)))) ↔
      ∀ i < names.length, treeOpened (treeLink (listedName name) (names.take (i + 1))) = some (name.text,filePath (names.take (i + 1))) := by
  have each := congrArg (List.map treeOpened) (crumb_links full (listedName name))
  simp only [List.map_map,Function.comp_def] at each
  have both : ∀ holds : (String → String → List Crumb) → Prop, (∀ build ∈ [buildTreeCrumbs,buildFileCrumbs], holds build) ↔ holds pathCrumbs := by
    intro holds
    rw [List.forall_mem_cons,List.forall_mem_singleton]
    exact and_self_iff
  rw [both,each,List.map_inj_left]
  simp only [List.mem_range]

-- The links to the beginnings of a path, the whole path included.
theorem prefixes_iff {names : List FileName} (full : names ≠ []) :
    (∀ i < names.length, treeOpened (treeLink (listedName name) (names.take (i + 1))) = some (name.text,filePath (names.take (i + 1)))) ↔
      RepoPlain name ∧ ∀ part ∈ names, Unchanged (bytesOf part.text) := by
  constructor
  · intro opened
    have plain : ∀ (i : Nat) (within : i < names.length), RepoPlain name ∧ Unchanged (bytesOf names[i].text) := by
      intro i within
      have link := opened i within
      rw [List.take_succ_eq_append_getElem within] at link
      obtain ⟨repo,_,unchanged⟩ := (link_iff name (names.take i) names[i]).mp link
      exact ⟨repo,unchanged⟩
    refine ⟨(plain 0 (List.length_pos_iff.mpr full)).1,?_⟩
    intro part member
    obtain ⟨i,within,rfl⟩ := List.mem_iff_getElem.mp member
    exact (plain i within).2
  · rintro ⟨repo,unchanged⟩ i within
    rw [List.take_succ_eq_append_getElem within]
    apply (link_iff name (names.take i) names[i]).mpr
    refine ⟨repo,?_,unchanged _ (List.getElem_mem within)⟩
    intro parent member
    have kept := unchanged parent (List.mem_of_mem_take member)
    exact ⟨kept.1.2.1,kept.2⟩

theorem parent_opened (repo : RepoPlain name) (unchanged : ∀ parent ∈ dir, Unchanged (bytesOf parent.text)) (entry : FileName) :
    treeOpened (parentUrl (listedName name) (filePath (dir ++ [entry]))) = some (name.text,filePath dir) := by
  by_cases top : dir = []
  · subst top
    rw [List.nil_append,parent_root]
    exact root_opened repo
  · have links := (prefixes_iff top).mpr ⟨repo,unchanged⟩
    have size : dir.length - 1 + 1 = dir.length := Nat.sub_add_cancel (List.length_pos_iff.mpr top)
    have whole := links (dir.length - 1) (by omega)
    rw [size,List.take_length] at whole
    rw [parent_link top,whole]

-- Where a link of the tree leads to its entry, and all on the page to where they say.
theorem tree_linked (name : RepoName) (dir : List FileName) (before after : List ListedEntry) (listed : ListedEntry) :
    Linked name dir listed.name (rows (trim (lsTree (before ++ listed :: after))))[before.length]? ↔ Plain name dir listed.name := by
  have full : dir ++ [listed.name] ≠ [] := List.append_ne_nil_of_right_ne_nil _ (List.cons_ne_nil _ _)
  constructor
  · rintro ⟨⟨kind,raw,shown,opened⟩,crumbs,_⟩
    obtain ⟨repo,unchanged⟩ := (prefixes_iff full).mp ((crumbs_iff full).mp crumbs)
    refine ⟨repo,unchanged,?_⟩
    obtain ⟨parents,last⟩ := List.forall_mem_append.mp unchanged
    rcases quoteName_cases listed.name.text with odd | usual
    · obtain ⟨_,row⟩ := rows_listed before after listed (quoteName_quoted odd)
      rw [row] at shown
      cases shown
      exact absurd opened (quoted_lost repo (fun parent member => ⟨(parents parent member).1.2.1,(parents parent member).2⟩)
        (last _ List.mem_cons_self) odd)
    · exact usual
  · rintro ⟨repo,unchanged,usual⟩
    obtain ⟨parents,last⟩ := List.forall_mem_append.mp unchanged
    have whole := (last _ List.mem_cons_self).1
    obtain ⟨kind,row⟩ := rows_listed before after listed (quoteName_solid usual whole.2.2)
    rw [quoteName_usual usual] at row
    refine ⟨⟨kind,_,row,?_⟩,(crumbs_iff full).mpr ((prefixes_iff full).mpr ⟨repo,unchanged⟩),parent_opened repo parents listed.name⟩
    rw [entry_link]
    exact (link_iff name dir listed.name).mpr
      ⟨repo,fun parent member => ⟨(parents parent member).1.2.1,(parents parent member).2⟩,last _ List.mem_cons_self⟩

def site : RepoName := ⟨"site.git",by decide,by decide,by decide,by decide⟩

def menu : ListedEntry := ⟨"100644","blob","9c1f",⟨"café",by decide,by decide⟩,by decide⟩

-- The name is shown as git prints it, and its backslashes are slashes to a browser.
theorem menu_lost : rows (trim (lsTree [menu])) = [(.file,"\"caf\\303\\251\"")] ∧
    treeOpened (dirEntryUrl (listedName site) (filePath []) "\"caf\\303\\251\"") = some ("site.git","\"caf/303/251\"") ∧
    ¬ Linked site [] menu.name (rows (trim (lsTree [menu])))[0]? := by
  have shown : rows (trim (lsTree [menu])) = [(.file,"\"caf\\303\\251\"")] := by decide
  have opened : treeOpened (dirEntryUrl (listedName site) (filePath []) "\"caf\\303\\251\"") = some ("site.git","\"caf/303/251\"") := by decide
  refine ⟨shown,opened,?_⟩
  rintro ⟨⟨kind,raw,row,link⟩,_,_⟩
  rw [shown] at row
  cases row
  rw [opened] at link
  have other : ("site.git","\"caf/303/251\"") ≠ (site.text,filePath [menu.name]) := by decide
  exact other (Option.some.inj link)

-- A name that is a fragment to a browser, and one that it decodes.
example : treeOpened (dirEntryUrl "site" "src" "a#b") = some ("site.git","src/a") ∧
    treeOpened (dirEntryUrl "site" "" "100%25") = some ("site.git","100%") := by decide

end Quire.TreeLinks
