import Quire.LineFraming
import Quire.TextReplace

namespace Quire.Provenance
open TextReplace LineFraming

-- An element and its place in the input; what was put in later has none.
abbrev Tracked (α : Type) := α × Option Nat

variable {α : Type}

def erase (tracked : List (Tracked α)) : List α := tracked.map Prod.fst

def track (text : List α) : List (Tracked α) := text.zipIdx.map fun (c,place) => (c,some place)

def insertion (marker : List α) : List (Tracked α) := marker.map fun c => (c,none)

def survives (c : Tracked α) : Bool := c.2.isSome

variable [DecidableEq α] {pattern marker text : List α} {tracked run : List (Tracked α)}

-- `replaceFrom`, with the places kept.
def replaceTrackedFrom (pattern marker : List α) : Nat → List (Tracked α) → List (Tracked α)
  | _,[] => []
  | 0,c :: rest =>
    if pattern.isPrefixOf (erase (c :: rest)) then insertion marker ++ replaceTrackedFrom pattern marker (pattern.length - 1) rest
    else c :: replaceTrackedFrom pattern marker 0 rest
  | skip + 1,_ :: rest => replaceTrackedFrom pattern marker skip rest

def replaceTracked (pattern marker : List α) (tracked : List (Tracked α)) : List (Tracked α) :=
  replaceTrackedFrom pattern marker 0 tracked

-- The matches it takes out.
def takenFrom (pattern : List α) : Nat → List (Tracked α) → List (List (Tracked α))
  | _,[] => []
  | 0,c :: rest =>
    if pattern.isPrefixOf (erase (c :: rest)) then
      (c :: rest).take pattern.length :: takenFrom pattern (pattern.length - 1) rest
    else takenFrom pattern 0 rest
  | skip + 1,_ :: rest => takenFrom pattern skip rest

def taken (pattern : List α) (tracked : List (Tracked α)) : List (List (Tracked α)) := takenFrom pattern 0 tracked

def replaceEachTracked (entries : List (List α × List α)) (tracked : List (Tracked α)) : List (Tracked α) :=
  entries.foldl (fun tracked entry => replaceTracked entry.1 entry.2 tracked) tracked

section scan

theorem replaceTrackedFrom_drop (skip : Nat) (tracked : List (Tracked α)) :
    replaceTrackedFrom pattern marker skip tracked = replaceTracked pattern marker (tracked.drop skip) := by
  induction tracked generalizing skip with
  | nil => cases skip <;> rfl
  | cons c rest ih =>
    cases skip with
    | zero => rfl
    | succ skip => exact ih skip

theorem takenFrom_drop (skip : Nat) (tracked : List (Tracked α)) : takenFrom pattern skip tracked = taken pattern (tracked.drop skip) := by
  induction tracked generalizing skip with
  | nil => cases skip <;> rfl
  | cons c rest ih =>
    cases skip with
    | zero => rfl
    | succ skip => exact ih skip

omit [DecidableEq α] in
-- Behind a match the scan goes on with what follows it.
theorem drop_behind (nonempty : pattern ≠ []) (c : Tracked α) (rest : List (Tracked α)) :
    rest.drop (pattern.length - 1) = (c :: rest).drop pattern.length := by
  obtain ⟨size,length⟩ := Nat.exists_eq_succ_of_ne_zero fun empty => nonempty (List.eq_nil_of_length_eq_zero empty)
  rw [length]
  rfl

theorem replaceTracked_match (nonempty : pattern ≠ []) (start : pattern <+: erase tracked) :
    replaceTracked pattern marker tracked = insertion marker ++ replaceTracked pattern marker (tracked.drop pattern.length) := by
  cases tracked with
  | nil => exact absurd (List.prefix_nil.mp start) nonempty
  | cons c rest =>
    rw [replaceTracked,replaceTrackedFrom,if_pos (List.isPrefixOf_iff_prefix.mpr start),replaceTrackedFrom_drop,drop_behind nonempty c]

theorem replaceTracked_skip (other : ¬ pattern <+: erase (c :: tracked)) :
    replaceTracked pattern marker (c :: tracked) = c :: replaceTracked pattern marker tracked := by
  rw [replaceTracked,replaceTrackedFrom,if_neg fun found => other (List.isPrefixOf_iff_prefix.mp found)]
  rfl

theorem taken_match (nonempty : pattern ≠ []) (start : pattern <+: erase tracked) :
    taken pattern tracked = tracked.take pattern.length :: taken pattern (tracked.drop pattern.length) := by
  cases tracked with
  | nil => exact absurd (List.prefix_nil.mp start) nonempty
  | cons c rest =>
    rw [taken,takenFrom,if_pos (List.isPrefixOf_iff_prefix.mpr start),takenFrom_drop,drop_behind nonempty c]

theorem taken_skip (other : ¬ pattern <+: erase (c :: tracked)) : taken pattern (c :: tracked) = taken pattern tracked := by
  rw [taken,takenFrom,if_neg fun found => other (List.isPrefixOf_iff_prefix.mp found)]
  rfl

omit [DecidableEq α] in
theorem match_split (start : pattern <+: erase tracked) :
    erase (tracked.take pattern.length) = pattern ∧ erase tracked = pattern ++ erase (tracked.drop pattern.length) := by
  have front : erase (tracked.take pattern.length) = pattern := by
    rw [erase,List.map_take]
    exact (List.prefix_iff_eq_take.mp start).symm
  refine ⟨front,?_⟩
  conv_lhs => rw [← List.take_append_drop pattern.length tracked]
  rw [erase,List.map_append]
  exact congrArg (· ++ _) front

-- Without the places it is the plain replacement.
theorem erase_replaceTracked (nonempty : pattern ≠ []) (tracked : List (Tracked α)) :
    erase (replaceTracked pattern marker tracked) = replaceAll pattern marker (erase tracked) := by
  induction tracked using scan_induction (fun t => pattern <+: erase t) (List.length_pos_iff.mpr nonempty) with
  | nil => rfl
  | matched text start ih =>
    rw [replaceTracked_match nonempty start,(match_split start).2,replaceAll_match nonempty,← ih]
    simp [erase,insertion,Function.comp_def]
  | skipped c rest other ih =>
    rw [replaceTracked_skip other]
    exact (congrArg (c.1 :: ·) ih).trans (replaceAll_skip other).symm

end scan

section reading

variable {c : α} {place : Nat}

-- The places that are left stand in the order of the input.
theorem survivors_sublist (nonempty : pattern ≠ []) (tracked : List (Tracked α)) :
    ((replaceTracked pattern marker tracked).filter survives).Sublist (tracked.filter survives) := by
  induction tracked using scan_induction (fun t => pattern <+: erase t) (List.length_pos_iff.mpr nonempty) with
  | nil => exact List.Sublist.refl _
  | matched text start ih =>
    have none : (insertion marker).filter survives = [] := by simp [insertion,survives,List.filter_eq_nil_iff]
    rw [replaceTracked_match nonempty start,List.filter_append,none,List.nil_append]
    exact ih.trans ((List.drop_sublist _ _).filter _)
  | skipped c rest other ih =>
    rw [replaceTracked_skip other]
    by_cases kept : survives c = true
    · rw [List.filter_cons_of_pos kept,List.filter_cons_of_pos kept]
      exact ih.cons_cons c
    · rw [List.filter_cons_of_neg kept,List.filter_cons_of_neg kept]
      exact ih

-- A stretch without an insertion was one before the replacement, and the
-- pattern is not in it.
theorem stretch_front (nonempty : pattern ≠ []) (marked : marker ≠ []) (tracked : List (Tracked α))
    (kept : ∀ c ∈ run, survives c = true) (found : run <+: replaceTracked pattern marker tracked) : run <+: tracked := by
  induction tracked using scan_induction (fun t => pattern <+: erase t) (List.length_pos_iff.mpr nonempty) generalizing run with
  | nil => exact found
  | matched text start ih =>
    rw [replaceTracked_match nonempty start] at found
    cases run with
    | nil => exact List.nil_prefix
    | cons first rest =>
      obtain ⟨c,front,rfl⟩ := List.exists_cons_of_ne_nil marked
      obtain ⟨same,_⟩ := List.cons_prefix_cons.mp found
      have inserted := kept first List.mem_cons_self
      rw [same] at inserted
      cases inserted
  | skipped c rest other ih =>
    rw [replaceTracked_skip other] at found
    rcases List.prefix_cons_iff.mp found with rfl | ⟨tail,rfl,inner⟩
    · exact List.nil_prefix
    · exact List.cons_prefix_cons.mpr ⟨rfl,ih (fun d member => kept d (List.mem_cons_of_mem _ member)) inner⟩

theorem stretch_infix (nonempty : pattern ≠ []) (marked : marker ≠ []) (tracked : List (Tracked α)) (started : run ≠ [])
    (kept : ∀ c ∈ run, survives c = true) (found : run <:+: replaceTracked pattern marker tracked) :
    run <:+: tracked ∧ ¬ pattern <:+: erase run := by
  induction tracked using scan_induction (fun t => pattern <+: erase t) (List.length_pos_iff.mpr nonempty) generalizing run with
  | nil => exact absurd (List.infix_nil.mp found) started
  | matched text start ih =>
    rw [replaceTracked_match nonempty start] at found
    have beyond := infix_beyond (fun c => ¬ survives c = true) started (fun c member outside => outside (kept c member))
      (by simp [insertion,survives]) found
    obtain ⟨inside,free⟩ := ih started kept beyond
    exact ⟨inside.trans (List.drop_suffix _ _).isInfix,free⟩
  | skipped c rest other ih =>
    rw [replaceTracked_skip other] at found
    rcases List.infix_cons_iff.mp found with front | later
    · rcases List.prefix_cons_iff.mp front with rfl | ⟨tail,rfl,inner⟩
      · exact absurd rfl started
      · have within : ∀ d ∈ tail, survives d = true := fun d member => kept d (List.mem_cons_of_mem _ member)
        have whole : c :: tail <+: c :: rest :=
          List.cons_prefix_cons.mpr ⟨rfl,stretch_front nonempty marked rest within inner⟩
        refine ⟨whole.isInfix,fun inside => ?_⟩
        rcases List.infix_cons_iff.mp inside with first | deeper
        · exact other (first.trans (whole.map Prod.fst))
        · have full : tail ≠ [] := by
            intro empty
            subst empty
            exact nonempty (List.infix_nil.mp deeper)
          exact (ih full within inner.isInfix).2 deeper
    · obtain ⟨inside,free⟩ := ih started kept later
      exact ⟨List.infix_cons inside,free⟩

-- An element stays, or it is in a match.
theorem stays_or_taken (nonempty : pattern ≠ []) (tracked : List (Tracked α)) (member : (c,some place) ∈ tracked) :
    (c,some place) ∈ replaceTracked pattern marker tracked ∨ ∃ found ∈ taken pattern tracked, (c,some place) ∈ found := by
  induction tracked using scan_induction (fun t => pattern <+: erase t) (List.length_pos_iff.mpr nonempty) with
  | nil => cases member
  | matched text start ih =>
    rw [replaceTracked_match nonempty start,taken_match nonempty start]
    rw [← List.take_append_drop pattern.length text] at member
    rcases List.mem_append.mp member with front | later
    · exact .inr ⟨_,List.mem_cons_self,front⟩
    · rcases ih later with stays | ⟨found,listed,inside⟩
      · exact .inl (List.mem_append_right _ stays)
      · exact .inr ⟨found,List.mem_cons_of_mem _ listed,inside⟩
  | skipped d rest other ih =>
    rw [replaceTracked_skip other,taken_skip other]
    rcases List.mem_cons.mp member with rfl | later
    · exact .inl List.mem_cons_self
    · exact (ih later).imp_left (List.mem_cons_of_mem _)

-- A match is a stretch of the text, and spells the pattern.
theorem taken_stretch (nonempty : pattern ≠ []) (tracked : List (Tracked α)) (listed : run ∈ taken pattern tracked) :
    run <:+: tracked ∧ erase run = pattern := by
  induction tracked using scan_induction (fun t => pattern <+: erase t) (List.length_pos_iff.mpr nonempty) with
  | nil => cases listed
  | matched text start ih =>
    rw [taken_match nonempty start] at listed
    rcases List.mem_cons.mp listed with rfl | later
    · exact ⟨(List.take_prefix _ _).isInfix,(match_split start).1⟩
    · obtain ⟨inside,spelled⟩ := ih later
      exact ⟨inside.trans (List.drop_suffix _ _).isInfix,spelled⟩
  | skipped d rest other ih =>
    rw [taken_skip other] at listed
    obtain ⟨inside,spelled⟩ := ih listed
    exact ⟨List.infix_cons inside,spelled⟩

theorem stayed (nonempty : pattern ≠ []) (member : (c,some place) ∈ replaceTracked pattern marker tracked) : (c,some place) ∈ tracked := by
  have kept : (c,some place) ∈ (replaceTracked pattern marker tracked).filter survives := List.mem_filter.mpr ⟨member,rfl⟩
  exact (List.mem_filter.mp ((survivors_sublist nonempty tracked).subset kept)).1

-- No place of the input is there twice.
def Numbered (tracked : List (Tracked α)) : Prop := (tracked.filterMap Prod.snd).Nodup

omit [DecidableEq α] in
theorem places_survivors (tracked : List (Tracked α)) : (tracked.filter survives).filterMap Prod.snd = tracked.filterMap Prod.snd := by
  rw [List.filterMap_filter]
  apply List.filterMap_congr
  intro c _
  obtain ⟨_,_ | place⟩ := c <;> rfl

omit [DecidableEq α] in
theorem Numbered.sublist {before after : List (Tracked α)} (numbered : Numbered before)
    (fewer : (after.filter survives).Sublist (before.filter survives)) : Numbered after := by
  rw [Numbered,← places_survivors] at numbered ⊢
  exact numbered.sublist (fewer.filterMap _)

omit [DecidableEq α] in
theorem Numbered.apart {left right : List (Tracked α)} {d : α} (numbered : Numbered (left ++ right)) (first : (c,some place) ∈ left) :
    (d,some place) ∉ right := by
  intro second
  rw [Numbered,List.filterMap_append,List.nodup_append] at numbered
  exact numbered.2.2 place (List.mem_filterMap.mpr ⟨_,first,rfl⟩) place (List.mem_filterMap.mpr ⟨_,second,rfl⟩) rfl

omit [DecidableEq α] in
theorem Numbered.right {left right : List (Tracked α)} (numbered : Numbered (left ++ right)) : Numbered right := by
  rw [Numbered,List.filterMap_append] at numbered
  exact numbered.sublist (List.sublist_append_right _ _)

-- What is in a match is gone.
theorem taken_gone {d : α} (nonempty : pattern ≠ []) (tracked : List (Tracked α)) (numbered : Numbered tracked)
    (listed : run ∈ taken pattern tracked) (member : (c,some place) ∈ run) : (d,some place) ∉ replaceTracked pattern marker tracked := by
  induction tracked using scan_induction (fun t => pattern <+: erase t) (List.length_pos_iff.mpr nonempty) with
  | nil => cases listed
  | matched text start ih =>
    rw [replaceTracked_match nonempty start]
    rw [taken_match nonempty start] at listed
    rw [← List.take_append_drop pattern.length text] at numbered
    intro left
    rcases List.mem_append.mp left with inserted | later
    · simp [insertion] at inserted
    · rcases List.mem_cons.mp listed with rfl | behind
      · exact numbered.apart member (stayed nonempty later)
      · exact ih numbered.right behind later
  | skipped e rest other ih =>
    rw [replaceTracked_skip other]
    rw [taken_skip other] at listed
    intro left
    rcases List.mem_cons.mp left with rfl | later
    · exact Numbered.apart (show Numbered ([(d,some place)] ++ rest) from numbered) List.mem_cons_self
        ((taken_stretch nonempty rest listed).1.subset member)
    · exact ih (Numbered.right (show Numbered ([e] ++ rest) from numbered)) listed later

end reading

section each

variable {entries : List (List α × List α)} {c : α} {place : Nat}

-- Every replacement has something to look for and leaves a mark.
def Marking (entries : List (List α × List α)) : Prop := ∀ entry ∈ entries, entry.1 ≠ [] ∧ entry.2 ≠ []

omit [DecidableEq α] in
theorem Marking.rest {entry : List α × List α} (marking : Marking (entry :: entries)) : Marking entries :=
  fun other member => marking other (List.mem_cons_of_mem _ member)

omit [DecidableEq α] in
theorem Marking.first {entry : List α × List α} (marking : Marking (entry :: entries)) : entry.1 ≠ [] ∧ entry.2 ≠ [] :=
  marking entry List.mem_cons_self

theorem replaceEachTracked_cons (entry : List α × List α) (entries : List (List α × List α)) (tracked : List (Tracked α)) :
    replaceEachTracked (entry :: entries) tracked = replaceEachTracked entries (replaceTracked entry.1 entry.2 tracked) := rfl

theorem erase_each (marking : Marking entries) (tracked : List (Tracked α)) :
    erase (replaceEachTracked entries tracked) = replaceEach entries (erase tracked) := by
  induction entries generalizing tracked with
  | nil => rfl
  | cons entry rest ih =>
    rw [replaceEachTracked_cons,ih marking.rest,erase_replaceTracked marking.first.1]
    rfl

theorem each_survivors (marking : Marking entries) (tracked : List (Tracked α)) :
    ((replaceEachTracked entries tracked).filter survives).Sublist (tracked.filter survives) := by
  induction entries generalizing tracked with
  | nil => exact List.Sublist.refl _
  | cons entry rest ih => exact (ih marking.rest _).trans (survivors_sublist marking.first.1 tracked)

theorem each_stayed (marking : Marking entries) (member : (c,some place) ∈ replaceEachTracked entries tracked) : (c,some place) ∈ tracked := by
  have kept : (c,some place) ∈ (replaceEachTracked entries tracked).filter survives := List.mem_filter.mpr ⟨member,rfl⟩
  exact (List.mem_filter.mp ((each_survivors marking tracked).subset kept)).1

-- A stretch that no replacement has touched has none of their patterns in it.
theorem each_stretch (marking : Marking entries) (tracked : List (Tracked α)) (started : run ≠ []) (kept : ∀ c ∈ run, survives c = true)
    (found : run <:+: replaceEachTracked entries tracked) : run <:+: tracked ∧ ∀ entry ∈ entries, ¬ entry.1 <:+: erase run := by
  induction entries generalizing tracked with
  | nil => exact ⟨found,fun _ member => nomatch member⟩
  | cons entry rest ih =>
    obtain ⟨middle,free⟩ := ih marking.rest _ found
    obtain ⟨inside,absent⟩ := stretch_infix marking.first.1 marking.first.2 tracked started kept middle
    exact ⟨inside,fun other member => (List.mem_cons.mp member).elim (fun same => same ▸ absent) (free other)⟩

-- What was put in is of a marker.
theorem inserted_marker (nonempty : pattern ≠ []) (member : (c,none) ∈ replaceTracked pattern marker tracked) :
    (c,none) ∈ tracked ∨ c ∈ marker := by
  induction tracked using scan_induction (fun t => pattern <+: erase t) (List.length_pos_iff.mpr nonempty) with
  | nil => exact .inl member
  | matched text start ih =>
    rw [replaceTracked_match nonempty start] at member
    rcases List.mem_append.mp member with inserted | later
    · exact .inr (by simpa [insertion] using inserted)
    · exact (ih later).imp_left fun old => (List.drop_subset _ _) old
  | skipped d rest other ih =>
    rw [replaceTracked_skip other] at member
    rcases List.mem_cons.mp member with same | later
    · exact .inl (List.mem_cons.mpr (.inl same))
    · exact (ih later).imp_left (List.mem_cons_of_mem _)

theorem each_inserted (marking : Marking entries) (member : (c,none) ∈ replaceEachTracked entries tracked) :
    (c,none) ∈ tracked ∨ ∃ entry ∈ entries, c ∈ entry.2 := by
  induction entries generalizing tracked with
  | nil => exact .inl member
  | cons entry rest ih =>
    rcases ih marking.rest member with middle | ⟨other,listed,inside⟩
    · rcases inserted_marker marking.first.1 middle with old | new
      · exact .inl old
      · exact .inr ⟨entry,List.mem_cons_self,new⟩
    · exact .inr ⟨other,List.mem_cons_of_mem _ listed,inside⟩

-- The turn at which a place of the input went.
def TakenAt (entries : List (List α × List α)) (tracked : List (Tracked α)) (turn : Nat) (found : List (Tracked α)) : Prop :=
  ∃ entry, entries[turn]? = some entry ∧ found ∈ taken entry.1 (replaceEachTracked (entries.take turn) tracked)

theorem each_taken (marking : Marking entries) (member : (c,some place) ∈ tracked) (gone : (c,some place) ∉ replaceEachTracked entries tracked) :
    ∃ turn found, TakenAt entries tracked turn found ∧ (c,some place) ∈ found := by
  induction entries generalizing tracked with
  | nil => exact absurd member gone
  | cons entry rest ih =>
    rcases stays_or_taken marking.first.1 tracked member with stays | ⟨found,listed,inside⟩
    · obtain ⟨turn,found,⟨other,present,listed⟩,inside⟩ := ih marking.rest stays gone
      exact ⟨turn + 1,found,⟨other,present,listed⟩,inside⟩
    · exact ⟨0,found,⟨entry,rfl,listed⟩,inside⟩

theorem each_gone {d : α} {turn : Nat} (marking : Marking entries) (numbered : Numbered tracked) (took : TakenAt entries tracked turn run)
    (member : (c,some place) ∈ run) : (d,some place) ∉ replaceEachTracked entries tracked := by
  obtain ⟨entry,present,listed⟩ := took
  induction entries generalizing tracked turn with
  | nil => cases present
  | cons first rest ih =>
    cases turn with
    | zero =>
      cases present
      intro left
      exact taken_gone marking.first.1 tracked numbered listed member (each_stayed marking.rest left)
    | succ turn =>
      have fewer : ((replaceTracked first.1 first.2 tracked).filter survives).Sublist (tracked.filter survives) :=
        survivors_sublist marking.first.1 tracked
      exact ih marking.rest (numbered.sublist fewer) present listed

end each

section input

variable {entries : List (List α × List α)} {c : α} {place : Nat}

omit [DecidableEq α] in
theorem track_getElem? (text : List α) (place : Nat) : (track text)[place]? = text[place]?.map fun c => (c,some place) := by
  simp [track,Function.comp_def]

omit [DecidableEq α] in
theorem erase_track (text : List α) : erase (track text) = text := by
  simp [erase,track,Function.comp_def]

omit [DecidableEq α] in
theorem track_survives (text : List α) : (track text).filter survives = track text := by
  rw [List.filter_eq_self]
  intro c member
  obtain ⟨_,_,rfl⟩ := List.mem_map.mp member
  rfl

omit [DecidableEq α] in
theorem track_numbered (text : List α) : Numbered (track text) := by
  have places : (track text).filterMap Prod.snd = List.range text.length := by
    rw [track,List.filterMap_map,List.range_eq_range',← List.zipIdx_map_snd]
    exact congrFun List.filterMap_eq_map _
  rw [Numbered,places]
  exact List.nodup_range

-- An occurrence of the word in the text takes in the place.
def Covers (word text : List α) (place : Nat) : Prop :=
  ∃ start, word <+: text.drop start ∧ start ≤ place ∧ place < start + word.length

def Covered (entries : List (List α × List α)) (text : List α) (place : Nat) : Prop := ∃ entry ∈ entries, Covers entry.1 text place

omit [DecidableEq α] in
-- A stretch of the input itself is an occurrence of what it spells.
theorem stretch_covers (inside : run <:+: track text) (member : (c,some place) ∈ run) : Covers (erase run) text place := by
  obtain ⟨left,right,split⟩ := inside
  have spelled : text = erase left ++ erase run ++ erase right := by
    rw [← erase_track text,← split]
    simp [erase]
  obtain ⟨offset,bound,here⟩ := List.getElem_of_mem member
  have stands : (track text)[left.length + offset]? = some (c,some place) := by
    rw [← split,List.append_assoc,List.getElem?_append_right (Nat.le_add_right _ _),Nat.add_sub_cancel_left,
      List.getElem?_append_left bound,List.getElem?_eq_getElem bound,here]
  rw [track_getElem?] at stands
  obtain ⟨_,_,same⟩ := Option.map_eq_some_iff.mp stands
  obtain rfl : left.length + offset = place := Option.some.inj (congrArg Prod.snd same)
  have size : (erase left).length = left.length := List.length_map _
  refine ⟨left.length,?_,Nat.le_add_right _ _,?_⟩
  · rw [spelled,List.append_assoc,← size,List.drop_left]
    exact List.prefix_append _ _
  · rw [erase,List.length_map]
    exact Nat.add_lt_add_left bound _

-- The output read as the input with stretches taken out and marker text put in.
structure Reading (entries : List (List α × List α)) (text output : List α) (tracked : List (Tracked α)) : Prop where
  output : erase tracked = output
  inOrder : (tracked.filter survives).Sublist (track text)
  inserted : ∀ c, (c,none) ∈ tracked → ∃ entry ∈ entries, c ∈ entry.2
  hidden : ∀ run, run <:+: tracked → run ≠ [] → (∀ c ∈ run, survives c = true) → ∀ entry ∈ entries, ¬ entry.1 <:+: erase run
  deleted : ∀ c place, (c,some place) ∈ track text → (c,some place) ∉ tracked → Covered entries text place

-- A match that takes in marker text takes in no input but what occurrences have.
def MarkersTakeCovered (entries : List (List α × List α)) (text : List α) : Prop :=
  ∀ turn found, TakenAt entries (track text) turn found → (∃ c, (c,none) ∈ found) →
    ∀ c place, (c,some place) ∈ found → Covered entries text place

theorem deleted_covered (marking : Marking entries) (harmless : MarkersTakeCovered entries text) (member : (c,some place) ∈ track text)
    (gone : (c,some place) ∉ replaceEachTracked entries (track text)) : Covered entries text place := by
  obtain ⟨turn,found,took,inside⟩ := each_taken marking member gone
  by_cases mixed : ∃ d, (d,none) ∈ found
  · exact harmless turn found took mixed c place inside
  · obtain ⟨entry,present,listed⟩ := took
    have known : entry ∈ entries := List.mem_of_getElem? present
    have earlier : Marking (entries.take turn) := fun other member => marking other (List.mem_of_mem_take member)
    obtain ⟨within,spelled⟩ := taken_stretch (marking entry known).1 _ listed
    have kept : ∀ d ∈ found, survives d = true := by
      intro d listed
      obtain ⟨d,_ | place⟩ := d
      · exact absurd ⟨d,listed⟩ mixed
      · rfl
    have stretch := (each_stretch earlier (track text) (List.ne_nil_of_mem inside) kept within).1
    exact ⟨entry,known,spelled ▸ stretch_covers stretch inside⟩

theorem reading_iff (marking : Marking entries) (text : List α) :
    Reading entries text (replaceEach entries text) (replaceEachTracked entries (track text)) ↔ MarkersTakeCovered entries text := by
  constructor
  · intro reading turn found took _ c place inside
    have member : (c,some place) ∈ track text := by
      obtain ⟨entry,present,listed⟩ := took
      have earlier : Marking (entries.take turn) := fun other member => marking other (List.mem_of_mem_take member)
      have within := (taken_stretch (marking entry (List.mem_of_getElem? present)).1 _ listed).1
      exact each_stayed earlier (within.subset inside)
    exact reading.deleted c place member (each_gone marking (track_numbered text) took inside)
  · intro harmless
    refine ⟨?_,?_,?_,?_,?_⟩
    · rw [erase_each marking,erase_track]
    · have fewer := each_survivors marking (track text)
      rwa [track_survives] at fewer
    · intro c member
      apply (each_inserted marking member).resolve_left
      intro old
      simp [track] at old
    · exact fun run inside started kept => (each_stretch marking (track text) started kept inside).2
    · exact fun c place => deleted_covered marking harmless

end input

end Quire.Provenance
