import Quire.ByteOffsets
import Quire.GitViews

namespace Quire.DisplayIds
open Text ByteOffsets GitViews

-- `&s[start..stop]`: it panics unless both are boundaries, in that order.
def slice (s : String) (start stop : Nat) : Option String :=
  if start ≤ stop then (cut stop s.toList).bind fun (front,_) => (cut start front).map fun (_,shown) => String.ofList shown
  else none

def display (self : CommitId) : String := self.changeId.getD self.sha

def head (self : CommitId) : Option String :=
  let s := display self
  slice s 0 (min s.utf8ByteSize 4)

def tail (self : CommitId) : Option String :=
  let s := display self
  let start := min s.utf8ByteSize 4
  slice s start (min s.utf8ByteSize 8)

def shaShort (self : CommitId) : Option String := slice self.sha 0 (min self.sha.utf8ByteSize 8)

-- What `commit_view` puts into its template of the two ids of a commit.
def pageShaShort (info : CommitInfo) : Option String :=
  if 8 ≤ info.sha.utf8ByteSize then slice info.sha 0 8 else some info.sha

def navId (info : CommitInfo) : String := if info.changeId = "" then info.sha else info.changeId

def pageShaHead (info : CommitInfo) : Option String := slice (navId info) 0 (min (navId info).utf8ByteSize 4)

def pageShaTail (info : CommitInfo) : Option String :=
  slice (navId info) (min (navId info).utf8ByteSize 4) (min (navId info).utf8ByteSize 8)

def changeIdHead (info : CommitInfo) : Option String := slice info.changeId 0 (min info.changeId.utf8ByteSize 12)

def changeIdTail (info : CommitInfo) : Option String :=
  slice info.changeId (min info.changeId.utf8ByteSize 12) info.changeId.utf8ByteSize

variable {s : String} {start stop : Nat}

theorem slice_iff : slice s start stop = some shown ↔ ∃ front back, s.toList = front ++ shown.toList ++ back ∧
    bytes front = start ∧ bytes front + bytes shown.toList = stop := by
  rw [slice]
  constructor
  · intro found
    split at found
    · obtain ⟨⟨upto,back⟩,cutStop,inner⟩ := Option.bind_eq_some_iff.mp found
      obtain ⟨⟨front,shownChars⟩,cutStart,same⟩ := Option.map_eq_some_iff.mp inner
      obtain ⟨whole,size⟩ := cut_inv cutStop
      obtain ⟨rfl,opens⟩ := cut_inv cutStart
      cases same
      rw [String.toList_ofList]
      rw [bytes_append] at size
      exact ⟨front,back,whole,opens,size⟩
    · cases found
  · rintro ⟨front,back,whole,rfl,rfl⟩
    rw [if_pos (Nat.le_add_right _ _),whole,← bytes_append,cut_append,Option.bind_some]
    change (cut (bytes front) (front ++ shown.toList)).map _ = _
    rw [cut_append]
    exact congrArg some String.ofList_toList

theorem slice_some : (∃ shown, slice s start stop = some shown) ↔ start ≤ stop ∧ Boundary start s.toList ∧ Boundary stop s.toList := by
  constructor
  · rintro ⟨shown,found⟩
    obtain ⟨front,back,whole,rfl,rfl⟩ := slice_iff.mp found
    refine ⟨Nat.le_add_right _ _,?_,?_⟩
    · rw [whole,List.append_assoc]
      exact boundary_append _ _
    · rw [whole,← bytes_append]
      exact boundary_append _ _
  · rintro ⟨order,opens,closes⟩
    obtain ⟨⟨upto,back⟩,cutStop⟩ := Option.isSome_iff_exists.mp closes
    obtain ⟨⟨front,rest⟩,cutStart⟩ := Option.isSome_iff_exists.mp opens
    obtain ⟨whole,stopAt⟩ := cut_inv cutStop
    obtain ⟨again,startAt⟩ := cut_inv cutStart
    obtain ⟨shown,rfl⟩ := prefix_within ⟨rest,again.symm⟩ ⟨back,whole.symm⟩ (by omega)
    rw [bytes_append] at stopAt
    refine ⟨String.ofList shown,slice_iff.mpr ⟨front,back,?_,startAt,?_⟩⟩
    · rw [String.toList_ofList,whole]
    · rw [String.toList_ofList,stopAt]

-- The first characters of a text, by the bytes wanted of it.
theorem start_some (s : String) (wanted : Nat) :
    (∃ shown, slice s 0 (min s.utf8ByteSize wanted) = some shown) ↔ ¬ Straddled wanted s.toList := by
  have zero : Boundary 0 s.toList := boundary_append [] s.toList
  rw [slice_some,bytes_string,← boundary_min,and_iff_right (Nat.zero_le _),and_iff_right zero]

theorem between_some (s : String) (first second : Nat) (order : first ≤ second) :
    (∃ shown, slice s (min s.utf8ByteSize first) (min s.utf8ByteSize second) = some shown) ↔
      ¬ Straddled first s.toList ∧ ¬ Straddled second s.toList := by
  have ordered : min (bytes s.toList) first ≤ min (bytes s.toList) second := by omega
  rw [slice_some,bytes_string,boundary_min,boundary_min,and_iff_right ordered]

-- Adjacent slices from the start are a beginning of the text.
theorem slices_begin (first : slice s 0 start = some front) (second : slice s start stop = some back) :
    front.toList ++ back.toList <+: s.toList := by
  obtain ⟨none,rest,whole,zero,size⟩ := slice_iff.mp first
  obtain ⟨before,behind,again,startAt,_⟩ := slice_iff.mp second
  have empty : none = [] := List.length_eq_zero_iff.mp (Nat.le_zero.mp (zero ▸ length_le_bytes none))
  subst empty
  rw [List.nil_append] at whole
  rw [bytes_nil,Nat.zero_add] at size
  have same : front.toList = before := prefix_eq ⟨rest,whole.symm⟩ ⟨_,by rw [again,List.append_assoc]⟩ (by omega)
  rw [same]
  exact ⟨behind,again.symm⟩

theorem pageShaShort_some (info : CommitInfo) : (∃ shown, pageShaShort info = some shown) ↔ ¬ Straddled 8 info.sha.toList := by
  rw [pageShaShort]
  split
  · rename_i long
    rw [← start_some,Nat.min_eq_right long]
  · rename_i short
    rw [bytes_string] at short
    refine ⟨fun _ => ?_,fun _ => ⟨_,rfl⟩⟩
    rintro ⟨left,c,right,whole,_,behind⟩
    rw [whole,bytes_append,bytes_cons] at short
    omega

theorem rest_some (s : String) (wanted : Nat) :
    (∃ shown, slice s (min s.utf8ByteSize wanted) s.utf8ByteSize = some shown) ↔ ¬ Straddled wanted s.toList := by
  have whole : Boundary (bytes s.toList) s.toList := by simpa using boundary_append s.toList []
  rw [slice_some,bytes_string,boundary_min,and_iff_right (Nat.min_le_left _ _),and_iff_left whole]

theorem badge_shortened (id : CommitId) :
    (∃ front back short, head id = some front ∧ tail id = some back ∧ shaShort id = some short ∧
      front.toList ++ back.toList <+: (display id).toList) ↔
      ¬ Straddled 4 (display id).toList ∧ ¬ Straddled 8 (display id).toList ∧ ¬ Straddled 8 id.sha.toList := by
  have front := start_some (display id) 4
  have back := between_some (display id) 4 8 (by decide)
  have sha := start_some id.sha 8
  constructor
  · rintro ⟨_,_,_,first,second,short,_⟩
    exact ⟨front.mp ⟨_,first⟩,(back.mp ⟨_,second⟩).2,sha.mp ⟨_,short⟩⟩
  · rintro ⟨four,eight,short⟩
    obtain ⟨_,first⟩ := front.mpr four
    obtain ⟨_,second⟩ := back.mpr ⟨four,eight⟩
    obtain ⟨_,third⟩ := sha.mpr short
    exact ⟨_,_,_,first,second,third,slices_begin first second⟩

theorem page_shortened (info : CommitInfo) :
    (∃ short front back changeFront changeBack, pageShaShort info = some short ∧
      pageShaHead info = some front ∧ pageShaTail info = some back ∧ front.toList ++ back.toList <+: (navId info).toList ∧
      changeIdHead info = some changeFront ∧ changeIdTail info = some changeBack ∧
      changeFront.toList ++ changeBack.toList <+: info.changeId.toList) ↔
      ¬ Straddled 8 info.sha.toList ∧ ¬ Straddled 4 (navId info).toList ∧ ¬ Straddled 8 (navId info).toList ∧
        ¬ Straddled 12 info.changeId.toList := by
  have sha := pageShaShort_some info
  have front := start_some (navId info) 4
  have back := between_some (navId info) 4 8 (by decide)
  have changeFront := start_some info.changeId 12
  have changeBack := rest_some info.changeId 12
  constructor
  · rintro ⟨_,_,_,_,_,short,first,second,_,third,_⟩
    exact ⟨sha.mp ⟨_,short⟩,front.mp ⟨_,first⟩,(back.mp ⟨_,second⟩).2,changeFront.mp ⟨_,third⟩⟩
  · rintro ⟨short,four,eight,twelve⟩
    obtain ⟨_,shown⟩ := sha.mpr short
    obtain ⟨_,first⟩ := front.mpr four
    obtain ⟨_,second⟩ := back.mpr ⟨four,eight⟩
    obtain ⟨_,third⟩ := changeFront.mpr twelve
    obtain ⟨_,fourth⟩ := changeBack.mpr twelve
    exact ⟨_,_,_,_,_,shown,first,second,slices_begin first second,third,fourth,slices_begin third fourth⟩

-- The comments say characters and the slices count bytes.
theorem ids_shortened (id : CommitId) (info : CommitInfo) :
    ((∃ front back short, head id = some front ∧ tail id = some back ∧ shaShort id = some short ∧
      front.toList ++ back.toList <+: (display id).toList) ↔
      ¬ Straddled 4 (display id).toList ∧ ¬ Straddled 8 (display id).toList ∧ ¬ Straddled 8 id.sha.toList) ∧
    ((∃ short front back changeFront changeBack, pageShaShort info = some short ∧
      pageShaHead info = some front ∧ pageShaTail info = some back ∧ front.toList ++ back.toList <+: (navId info).toList ∧
      changeIdHead info = some changeFront ∧ changeIdTail info = some changeBack ∧
      changeFront.toList ++ changeBack.toList <+: info.changeId.toList) ↔
      ¬ Straddled 8 info.sha.toList ∧ ¬ Straddled 4 (navId info).toList ∧ ¬ Straddled 8 (navId info).toList ∧
        ¬ Straddled 12 info.changeId.toList) :=
  ⟨badge_shortened id,page_shortened info⟩

-- A commit that is one letter and two accented ones to its author.
def accented : Git := fun argv =>
  if argv = ["cat-file","-p","9c1f"] then some "tree 4b82\nauthor a <a@b> 0 +0000\nchange-id aéé\n\nfirst\n" else none

theorem head_panics : (RepoView.changeId accented "9c1f").value = some "aéé" ∧ head ⟨"9c1f",some "aéé"⟩ = none := by decide

end Quire.DisplayIds
