namespace Quire.TextReplace
variable {α : Type} [DecidableEq α] {pattern marker text word : List α}

-- Matches are taken from the left and do not overlap. The counter is what is
-- left to drop of the last one.
def replaceFrom (pattern marker : List α) : Nat → List α → List α
  | _,[] => []
  | 0,c :: rest =>
    if pattern.isPrefixOf (c :: rest) then marker ++ replaceFrom pattern marker (pattern.length - 1) rest
    else c :: replaceFrom pattern marker 0 rest
  | skip + 1,_ :: rest => replaceFrom pattern marker skip rest

def replaceAll (pattern marker text : List α) : List α := replaceFrom pattern marker 0 text

theorem replaceFrom_drop (pattern marker : List α) (skip : Nat) (text : List α) :
    replaceFrom pattern marker skip text = replaceAll pattern marker (text.drop skip) := by
  induction text generalizing skip with
  | nil => cases skip <;> rfl
  | cons c rest ih =>
    cases skip with
    | zero => rfl
    | succ skip => exact ih skip

theorem replaceAll_match (nonempty : pattern ≠ []) :
    replaceAll pattern marker (pattern ++ text) = marker ++ replaceAll pattern marker text := by
  cases pattern with
  | nil => exact absurd rfl nonempty
  | cons c rest =>
    have start : (c :: rest).isPrefixOf (c :: (rest ++ text)) = true :=
      List.isPrefixOf_iff_prefix.mpr ⟨text,rfl⟩
    rw [List.cons_append,replaceAll,replaceFrom,if_pos start,replaceFrom_drop,List.length_cons,
      Nat.add_sub_cancel,List.drop_left]

theorem replaceAll_skip (other : ¬ pattern <+: c :: text) :
    replaceAll pattern marker (c :: text) = c :: replaceAll pattern marker text := by
  have start : ¬ pattern.isPrefixOf (c :: text) = true := fun found =>
    other (List.isPrefixOf_iff_prefix.mp found)
  rw [replaceAll,replaceFrom,if_neg start,replaceAll]

theorem replaceAll_single (c : α) (marker text : List α) :
    replaceAll [c] marker text = text.flatMap fun d => if d = c then marker else [d] := by
  induction text with
  | nil => rfl
  | cons d text ih =>
    rw [List.flatMap_cons,← ih]
    by_cases same : d = c
    · have matched : replaceAll [c] marker ([c] ++ text) = marker ++ replaceAll [c] marker text :=
        replaceAll_match (List.cons_ne_nil c [])
      rw [List.singleton_append] at matched
      rw [same,matched,if_pos rfl]
    · have other : ¬ [c] <+: d :: text := fun start => same (List.cons_prefix_cons.mp start).1.symm
      rw [replaceAll_skip other,if_neg same,List.singleton_append]

-- What stands between the matches, first piece apart.
structure Pieces (pattern marker text result : List α) (first : List α) (rest : List (List α)) : Prop where
  before : text = first ++ rest.flatMap (pattern ++ ·)
  after : result = first ++ rest.flatMap (marker ++ ·)
  free : ∀ piece ∈ first :: rest, ¬ pattern <:+: piece

-- A scan from the left: a text that starts a match goes on behind it, any other
-- text behind its first element.
theorem scan_induction {β : Type} {holds : List β → Prop} {size : Nat} (starts : List β → Prop) (positive : 0 < size)
    (nil : holds []) (matched : ∀ text, starts text → holds (text.drop size) → holds text)
    (skipped : ∀ c rest, ¬ starts (c :: rest) → holds rest → holds (c :: rest)) (text : List β) : holds text := by
  induction length : text.length using Nat.strongRecOn generalizing text with
  | ind n ih =>
    cases text with
    | nil => exact nil
    | cons c rest =>
      have shorter : rest.length < n := by rw [← length]; exact Nat.lt_succ_self _
      by_cases start : starts (c :: rest)
      · refine matched _ start (ih _ ?_ _ rfl)
        rw [List.length_drop,length]
        have full : 0 < n := Nat.lt_of_le_of_lt (Nat.zero_le _) shorter
        omega
      · exact skipped c rest start (ih _ shorter rest rfl)

theorem replaceAll_pieces (marker : List α) (nonempty : pattern ≠ []) (text : List α) :
    ∃ first rest, Pieces pattern marker text (replaceAll pattern marker text) first rest := by
  have empty : ¬ pattern <:+: [] := fun found => nonempty (List.infix_nil.mp found)
  induction text using scan_induction (pattern <+: ·) (List.length_pos_iff.mpr nonempty) with
  | nil => exact ⟨[],[],rfl,rfl,by simpa using nonempty⟩
  | matched text start ih =>
    obtain ⟨tail,rfl⟩ := start
    rw [List.drop_left] at ih
    obtain ⟨first,rest,pieces⟩ := ih
    rw [replaceAll_match nonempty]
    refine ⟨[],first :: rest,?_,?_,?_⟩
    · simpa using pieces.before
    · simpa using pieces.after
    · intro piece member
      rcases List.mem_cons.mp member with rfl | later
      · exact empty
      · exact pieces.free piece later
  | skipped c text other ih =>
    obtain ⟨first,rest,pieces⟩ := ih
    rw [replaceAll_skip other]
    refine ⟨c :: first,rest,?_,?_,?_⟩
    · rw [List.cons_append,← pieces.before]
    · rw [List.cons_append,← pieces.after]
    · intro piece member
      rcases List.mem_cons.mp member with rfl | later
      · intro inside
        rcases List.infix_cons_iff.mp inside with start | deeper
        · apply other
          rw [pieces.before,← List.cons_append]
          exact start.trans (List.prefix_append _ _)
        · exact pieces.free first (by simp) deeper
      · exact pieces.free piece (by simp [later])

-- A word touches a marker when one contains the other or an end of the one is
-- a beginning of the other. Only then can an inserted marker complete the word.
def Touches (word marker : List α) : Prop :=
  word <:+: marker ∨ marker <:+: word ∨
    ∃ shared, shared ≠ [] ∧ ((shared <:+ word ∧ shared <+: marker) ∨ (shared <+: word ∧ shared <:+ marker))

def suffixes (word : List α) : List (List α) := (List.range (word.length + 1)).map word.drop

omit [DecidableEq α] in
theorem mem_suffixes : shared ∈ suffixes word ↔ shared <:+ word := by
  simp only [suffixes,List.mem_map,List.mem_range]
  constructor
  · intro listed
    obtain ⟨dropped,_,rfl⟩ := listed
    exact List.drop_suffix dropped word
  · intro ending
    obtain ⟨front,rfl⟩ := ending
    refine ⟨front.length,?_,List.drop_left⟩
    rw [List.length_append]
    omega

theorem infix_iff_suffixes : word <:+: text ↔ (suffixes text).any word.isPrefixOf = true := by
  simp [List.infix_iff_prefix_suffix,mem_suffixes,and_comm]

instance (word marker : List α) : Decidable (Touches word marker) :=
  decidable_of_iff ((suffixes marker).any word.isPrefixOf = true ∨ (suffixes word).any marker.isPrefixOf = true ∨
      (suffixes word).any (fun shared => !shared.isEmpty && shared.isPrefixOf marker) = true ∨
      (suffixes marker).any (fun shared => !shared.isEmpty && shared.isPrefixOf word) = true) (by
    rw [Touches,infix_iff_suffixes,infix_iff_suffixes]
    simp only [List.any_eq_true,Bool.and_eq_true,List.isPrefixOf_iff_prefix,mem_suffixes,Bool.not_eq_true',
      List.isEmpty_eq_false_iff,exists_or,and_or_left]
    refine or_congr Iff.rfl (or_congr Iff.rfl (or_congr ?_ ?_))
    · exact exists_congr fun _ => and_left_comm
    · exact exists_congr fun _ => ⟨fun ⟨last,full,first⟩ => ⟨full,first,last⟩,fun ⟨full,first,last⟩ => ⟨last,full,first⟩⟩)

-- A word that does not touch the marker cannot lie across it.
omit [DecidableEq α] in
theorem infix_beside (apart : ¬ Touches word marker) (found : word <:+: left ++ (marker ++ right)) :
    word <:+: left ∨ word <:+: right := by
  rcases List.infix_append_iff_ne_nil.mp found with inLeft | inRest | ⟨front,back,_,backFull,rfl,_,start⟩
  · exact .inl inLeft
  · rcases List.infix_append_iff_ne_nil.mp inRest with inMarker | inRight | ⟨front,back,frontFull,_,rfl,last,_⟩
    · exact absurd (.inl inMarker) apart
    · exact .inr inRight
    · exact absurd (.inr (.inr ⟨front,frontFull,.inr ⟨List.prefix_append _ _,last⟩⟩)) apart
  · rcases Nat.le_total back.length marker.length with short | long
    · have inside := List.prefix_of_prefix_length_le start (List.prefix_append marker right) short
      exact absurd (.inr (.inr ⟨back,backFull,.inl ⟨List.suffix_append _ _,inside⟩⟩)) apart
    · have inside := List.prefix_of_prefix_length_le (List.prefix_append marker right) start long
      exact absurd (.inr (.inl (inside.isInfix.trans (List.suffix_append front back).isInfix))) apart

omit [DecidableEq α] in
theorem infix_pieces (apart : ¬ Touches word marker) (found : word <:+: first ++ rest.flatMap (marker ++ ·)) :
    ∃ piece ∈ first :: rest, word <:+: piece := by
  induction rest generalizing first with
  | nil => exact ⟨first,by simp,by simpa using found⟩
  | cons next rest ih =>
    rw [List.flatMap_cons,List.append_assoc] at found
    rcases infix_beside apart found with inFirst | later
    · exact ⟨first,by simp,inFirst⟩
    · obtain ⟨piece,member,inside⟩ := ih later
      exact ⟨piece,List.mem_cons_of_mem _ member,inside⟩

omit [DecidableEq α] in
theorem Pieces.infix_text (pieces : Pieces pattern marker text result first rest)
    (member : piece ∈ first :: rest) : piece <:+: text := by
  rw [pieces.before]
  rcases List.mem_cons.mp member with rfl | later
  · exact (List.prefix_append _ _).isInfix
  · obtain ⟨left,right,rfl⟩ := List.append_of_mem later
    rw [List.flatMap_append,List.flatMap_cons]
    exact ⟨first ++ (left.flatMap (pattern ++ ·) ++ pattern),right.flatMap (pattern ++ ·),by simp⟩

-- A word that replacing shows stands in a piece between two markers.
theorem replaceAll_piece (nonempty : pattern ≠ []) (apart : ¬ Touches word marker)
    (found : word <:+: replaceAll pattern marker text) : ∃ first rest piece,
      Pieces pattern marker text (replaceAll pattern marker text) first rest ∧ piece ∈ first :: rest ∧ word <:+: piece := by
  obtain ⟨first,rest,pieces⟩ := replaceAll_pieces marker nonempty text
  rw [pieces.after] at found
  obtain ⟨piece,member,inside⟩ := infix_pieces apart found
  exact ⟨first,rest,piece,pieces,member,inside⟩

-- Replacing spells no word that was not there, except across a marker it
-- touches; and it leaves no match behind, with the same exception.
theorem replaceAll_found (nonempty : pattern ≠ []) (apart : ¬ Touches word marker)
    (found : word <:+: replaceAll pattern marker text) : word <:+: text := by
  obtain ⟨first,rest,piece,pieces,member,inside⟩ := replaceAll_piece nonempty apart found
  exact inside.trans (pieces.infix_text member)

theorem replaceAll_removed (nonempty : pattern ≠ []) (apart : ¬ Touches pattern marker) :
    ¬ pattern <:+: replaceAll pattern marker text := by
  intro found
  obtain ⟨first,rest,piece,pieces,member,inside⟩ := replaceAll_piece nonempty apart found
  exact pieces.free piece member inside

theorem replaceAll_unchanged (nonempty : pattern ≠ []) (absent : ¬ pattern <:+: text) :
    replaceAll pattern marker text = text := by
  obtain ⟨first,rest,pieces⟩ := replaceAll_pieces marker nonempty text
  cases rest with
  | nil => rw [pieces.after,pieces.before,List.flatMap_nil,List.flatMap_nil]
  | cons next rest =>
    apply (absent _).elim
    rw [pieces.before,List.flatMap_cons,List.append_assoc]
    exact List.infix_append' _ _ _

theorem replaceAll_free {sep : α} (nonempty : pattern ≠ []) (unmarked : sep ∉ marker) (free : sep ∉ text) :
    sep ∉ replaceAll pattern marker text := by
  obtain ⟨first,rest,pieces⟩ := replaceAll_pieces marker nonempty text
  have outside : ∀ piece ∈ first :: rest, sep ∉ piece := fun piece member inside =>
    free ((pieces.infix_text member).subset inside)
  rw [pieces.after]
  intro found
  rcases List.mem_append.mp found with inFirst | later
  · exact outside first List.mem_cons_self inFirst
  · obtain ⟨piece,member,inside⟩ := List.mem_flatMap.mp later
    exact (List.mem_append.mp inside).elim unmarked (outside piece (List.mem_cons_of_mem _ member))

omit [DecidableEq α] in
theorem prefix_before {sep : α} (outside : sep ∉ word) (start : word <+: left ++ sep :: right) : word <+: left := by
  rcases List.prefix_or_prefix_of_prefix start (List.prefix_append left (sep :: right)) with within | ⟨rest,rfl⟩
  · exact within
  · rcases List.prefix_cons_iff.mp ((List.prefix_append_right_inj left).mp start) with rfl | ⟨tail,rfl,_⟩
    · simp
    · exact absurd (List.mem_append_right left List.mem_cons_self) outside

-- No match lies across an element that the pattern does not have.
theorem replaceAll_across {sep : α} (nonempty : pattern ≠ []) (outside : sep ∉ pattern) (left right : List α) :
    replaceAll pattern marker (left ++ sep :: right) =
      replaceAll pattern marker left ++ sep :: replaceAll pattern marker right := by
  induction left using scan_induction (pattern <+: ·) (List.length_pos_iff.mpr nonempty) with
  | nil =>
    have other : ¬ pattern <+: [] ++ sep :: right := fun start => nonempty (List.prefix_nil.mp (prefix_before outside start))
    exact replaceAll_skip other
  | matched left start ih =>
    obtain ⟨tail,rfl⟩ := start
    rw [List.drop_left] at ih
    rw [List.append_assoc,replaceAll_match nonempty,replaceAll_match nonempty,ih,List.append_assoc]
  | skipped c left other ih =>
    have later : ¬ pattern <+: c :: (left ++ sep :: right) := fun start => other (prefix_before outside start)
    rw [List.cons_append,replaceAll_skip later,replaceAll_skip other,ih,List.cons_append]

-- One replacement after another, each in the text the last one left.
def replaceEach (entries : List (List α × List α)) (text : List α) : List α :=
  entries.foldl (fun text entry => replaceAll entry.1 entry.2 text) text

theorem replaceEach_across {sep : α} (entries : List (List α × List α)) (nonempty : ∀ entry ∈ entries, entry.1 ≠ [])
    (outside : ∀ entry ∈ entries, sep ∉ entry.1) (left right : List α) :
    replaceEach entries (left ++ sep :: right) = replaceEach entries left ++ sep :: replaceEach entries right := by
  induction entries generalizing left right with
  | nil => rfl
  | cons entry rest ih =>
    obtain ⟨full,nonempty⟩ := List.forall_mem_cons.mp nonempty
    obtain ⟨apart,outside⟩ := List.forall_mem_cons.mp outside
    simp only [replaceEach,List.foldl_cons] at ih ⊢
    rw [replaceAll_across full apart]
    exact ih nonempty outside _ _

theorem replaceEach_unchanged (entries : List (List α × List α)) (nonempty : ∀ entry ∈ entries, entry.1 ≠ [])
    (absent : ∀ entry ∈ entries, ¬ entry.1 <:+: text) : replaceEach entries text = text := by
  induction entries with
  | nil => rfl
  | cons entry rest ih =>
    obtain ⟨full,nonempty⟩ := List.forall_mem_cons.mp nonempty
    obtain ⟨missing,absent⟩ := List.forall_mem_cons.mp absent
    simp only [replaceEach,List.foldl_cons] at ih ⊢
    rw [replaceAll_unchanged full missing]
    exact ih nonempty absent

theorem replaceEach_free {sep : α} (entries : List (List α × List α)) (nonempty : ∀ entry ∈ entries, entry.1 ≠ [])
    (unmarked : ∀ entry ∈ entries, sep ∉ entry.2) (free : sep ∉ text) : sep ∉ replaceEach entries text := by
  induction entries generalizing text with
  | nil => exact free
  | cons entry rest ih =>
    obtain ⟨full,nonempty⟩ := List.forall_mem_cons.mp nonempty
    obtain ⟨plain,unmarked⟩ := List.forall_mem_cons.mp unmarked
    exact ih nonempty unmarked (replaceAll_free full plain free)

theorem replaceEach_take (entries : List (List α × List α)) (text : List α)
    (found : entries[turn]? = some entry) : replaceEach (entries.take (turn + 1)) text =
      replaceAll entry.1 entry.2 (replaceEach (entries.take turn) text) := by
  simp only [replaceEach,List.take_add_one,found,Option.toList_some,List.foldl_append,List.foldl_cons,List.foldl_nil]

-- The words that can be in the text by the turn of their own replacement:
-- those that were there, and those an earlier marker can complete.
inductive Spelled (entries : List (List α × List α)) (text : List α) : Nat → Prop where
  | present (found : entries[turn]? = some entry) (inside : entry.1 <:+: text) : Spelled entries text turn
  | completed (earlier : Spelled entries text last) (before : last < turn) (marked : entries[last]? = some other)
      (found : entries[turn]? = some entry) (touches : Touches entry.1 other.2) : Spelled entries text turn

-- No marker that is inserted touches its own word or one already replaced.
def Separate (entries : List (List α × List α)) (text : List α) : Prop :=
  ∀ (turn earlier : Nat) entry other, Spelled entries text turn → entries[turn]? = some entry →
    earlier ≤ turn → entries[earlier]? = some other → ¬ Touches other.1 entry.2

-- After the first `turn` replacements: none of their words is left, and the
-- words still to come are there only if they are spelled.
structure Replaced (entries : List (List α × List α)) (text : List α) (turn : Nat) : Prop where
  removed : ∀ (earlier : Nat) entry, earlier < turn → entries[earlier]? = some entry →
    ¬ entry.1 <:+: replaceEach (entries.take turn) text
  spelled : ∀ (later : Nat) entry, turn ≤ later → entries[later]? = some entry →
    entry.1 <:+: replaceEach (entries.take turn) text → Spelled entries text later

theorem Replaced.next {entries : List (List α × List α)} (nonempty : ∀ entry ∈ entries, entry.1 ≠ [])
    (separate : Separate entries text) (found : entries[turn]? = some entry)
    (replaced : Replaced entries text turn) : Replaced entries text (turn + 1) := by
  have full : entry.1 ≠ [] := nonempty entry (List.mem_of_getElem? found)
  by_cases inside : entry.1 <:+: replaceEach (entries.take turn) text
  · have spelled := replaced.spelled turn entry (Nat.le_refl _) found inside
    constructor
    · intro earlier other before present
      rw [replaceEach_take entries text found]
      have apart := separate turn earlier entry other spelled found (by omega) present
      rcases Nat.lt_or_ge earlier turn with already | same
      · exact mt (replaceAll_found full apart) (replaced.removed earlier other already present)
      · obtain rfl : earlier = turn := by omega
        cases found.symm.trans present
        exact replaceAll_removed full apart
    · intro later other after present left
      rw [replaceEach_take entries text found] at left
      by_cases touches : Touches other.1 entry.2
      · exact .completed spelled (by omega) found present touches
      · exact replaced.spelled later other (by omega) present (replaceAll_found full touches left)
  · have unchanged : replaceEach (entries.take (turn + 1)) text = replaceEach (entries.take turn) text := by
      rw [replaceEach_take entries text found,replaceAll_unchanged full inside]
    constructor
    · intro earlier other before present
      rw [unchanged]
      rcases Nat.lt_or_ge earlier turn with already | same
      · exact replaced.removed earlier other already present
      · obtain rfl : earlier = turn := by omega
        cases found.symm.trans present
        exact inside
    · intro later other after present left
      rw [unchanged] at left
      exact replaced.spelled later other (by omega) present left

theorem replaceEach_removes {entries : List (List α × List α)} (nonempty : ∀ entry ∈ entries, entry.1 ≠ [])
    (separate : Separate entries text) (member : entry ∈ entries) : ¬ entry.1 <:+: replaceEach entries text := by
  have replaced : ∀ turn ≤ entries.length, Replaced entries text turn := by
    intro turn bound
    induction turn with
    | zero => exact ⟨fun _ _ impossible => absurd impossible (Nat.not_lt_zero _),
        fun _ _ _ present inside => .present present inside⟩
    | succ turn ih =>
      have present := List.getElem?_eq_getElem (show turn < entries.length by omega)
      exact (ih (by omega)).next nonempty separate present
  obtain ⟨turn,found⟩ := List.mem_iff_getElem?.mp member
  have bound := (List.getElem?_eq_some_iff.mp found).1
  simpa only [List.take_length] using (replaced entries.length (Nat.le_refl _)).removed turn entry bound found

end Quire.TextReplace
