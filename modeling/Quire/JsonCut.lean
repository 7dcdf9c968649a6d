import Quire.JsonTree

namespace Quire.JsonCut
open JsonText JsonTokens JsonTree

-- A reader that stops by itself: more text behind changes nothing.
def Steady {α : Type} (reader : List UInt8 → Option (α × List UInt8)) : Prop :=
  ∀ {bytes value rest}, reader bytes = some (value,rest) → ∀ more, reader (bytes ++ more) = some (value,rest ++ more)

-- A reader that stops at what follows. At the end of the text it might go on.
def SteadyInside {α : Type} (reader : List UInt8 → Option (α × List UInt8)) : Prop :=
  ∀ {bytes value rest}, reader bytes = some (value,rest) → rest ≠ [] →
    ∀ more, reader (bytes ++ more) = some (value,rest ++ more)

theorem skip_more (opens : skip bytes = mark :: rest) (more : List UInt8) : skip (bytes ++ more) = mark :: (rest ++ more) := by
  induction bytes with
  | nil => cases opens
  | cons byte bytes ih =>
    by_cases blank : isSpace byte = true
    · rw [skip,List.dropWhile_cons_of_pos blank] at opens
      rw [List.cons_append,skip,List.dropWhile_cons_of_pos blank]
      exact ih opens
    · rw [skip,List.dropWhile_cons_of_neg blank] at opens
      obtain ⟨rfl,rfl⟩ := List.cons_eq_cons.mp opens
      rw [List.cons_append,skip,List.dropWhile_cons_of_neg blank]

theorem takeWhile_inside {p : UInt8 → Bool} (rest : bytes.dropWhile p ≠ []) (more : List UInt8) :
    (bytes ++ more).takeWhile p = bytes.takeWhile p ∧ (bytes ++ more).dropWhile p = bytes.dropWhile p ++ more := by
  induction bytes with
  | nil => exact absurd rfl rest
  | cons byte bytes ih =>
    by_cases taken : p byte = true
    · rw [List.dropWhile_cons_of_pos taken] at rest
      have inner := ih rest
      simp [taken,inner]
    · simp [taken]

theorem codeUnit_steady : Steady readCodeUnit := by
  intro bytes value rest read more
  match bytes,read with
  | first :: second :: third :: fourth :: bytes,read =>
    simp only [readCodeUnit,Option.bind_eq_bind,Option.bind_eq_some_iff] at read
    obtain ⟨a,first,b,second,c,third,d,fourth,same⟩ := read
    cases same
    simp [readCodeUnit,first,second,third,fourth]

theorem codePoint_steady : Steady readCodePoint := by
  intro bytes value rest read more
  obtain ⟨⟨unit,after⟩,first,read⟩ := Option.bind_eq_some_iff.mp read
  rw [readCodePoint,codeUnit_steady first more,Option.bind_some]
  dsimp only at read ⊢
  split at read
  · cases read
  · rename_i notLow
    rw [if_neg notLow]
    split at read
    · rename_i high
      rw [if_pos high]
      rcases after with _ | ⟨mark,_ | ⟨letter,after⟩⟩
      · cases read
      · cases read
      · dsimp only at read
        split at read
        · rename_i marked
          obtain ⟨⟨low,last⟩,second,read⟩ := Option.bind_eq_some_iff.mp read
          dsimp only [List.cons_append]
          rw [if_pos marked,codeUnit_steady second more,Option.bind_some]
          dsimp only at read ⊢
          split at read
          · rename_i paired
            obtain ⟨rfl,rfl⟩ := Prod.mk.inj (Option.some.inj read)
            exact if_pos paired
          · cases read
        · cases read
    · rename_i notHigh
      cases read
      rw [if_neg notHigh]

theorem piece_steady : Steady readPiece := by
  intro bytes value rest read more
  cases bytes with
  | nil => cases read
  | cons first bytes =>
    simp only [readPiece] at read
    simp only [List.cons_append,readPiece]
    split at read
    · rename_i escaped
      rw [if_pos escaped]
      cases bytes with
      | nil => cases read
      | cons letter bytes =>
        dsimp only at read
        dsimp only [List.cons_append]
        split at read
        · rename_i code
          obtain ⟨⟨c,after⟩,point,same⟩ := Option.map_eq_some_iff.mp read
          cases same
          rw [if_pos code,codePoint_steady point more]
          rfl
        · rename_i other
          rw [if_neg other]
          split at read
          · rename_i slashed
            cases read
            rw [if_pos slashed]
          · rename_i plain
            obtain ⟨byte,letter,same⟩ := Option.map_eq_some_iff.mp read
            cases same
            rw [if_neg plain,letter]
            rfl
    · rename_i plain
      rw [if_neg plain]
      split at read
      · cases read
      · rename_i solid
        cases read
        rw [if_neg solid]

theorem pieces_more {bytes : List UInt8} (read : readPieces fuel bytes = some (value,rest)) (enough : fuel ≤ larger)
    (more : List UInt8) : readPieces larger (bytes ++ more) = some (value,rest ++ more) := by
  induction fuel generalizing bytes value larger with
  | zero => cases read
  | succ fuel ih =>
    obtain ⟨larger,rfl⟩ := Nat.exists_eq_add_one.mpr (Nat.lt_of_lt_of_le (Nat.succ_pos fuel) enough)
    match bytes,read with
    | first :: bytes,read =>
      rw [readPieces] at read
      rw [List.cons_append,readPieces]
      split at read
      · rename_i ended
        cases read
        rw [if_pos ended]
      · rename_i other
        obtain ⟨⟨piece,after⟩,one,read⟩ := Option.bind_eq_some_iff.mp read
        obtain ⟨⟨pieces,last⟩,later,same⟩ := Option.map_eq_some_iff.mp read
        cases same
        have first := piece_steady one more
        rw [List.cons_append] at first
        rw [if_neg other,first,Option.bind_some,ih later (Nat.le_of_succ_le_succ enough)]
        rfl

theorem quoted_steady : Steady readQuoted := by
  intro bytes value rest read more
  obtain ⟨⟨pieces,after⟩,inner,read⟩ := Option.bind_eq_some_iff.mp read
  obtain ⟨text,valid,same⟩ := Option.map_eq_some_iff.mp read
  cases same
  have longer : bytes.length + 1 ≤ (bytes ++ more).length + 1 := by
    rw [List.length_append]
    omega
  rw [readQuoted,pieces_more inner longer more,Option.bind_some,valid]
  rfl

theorem word_steady (word : List UInt8) (value : Tree) : Steady (readWord word value) := by
  intro bytes read rest found more
  unfold readWord at found ⊢
  split at found
  · rename_i starts
    obtain ⟨rfl,rfl⟩ := Prod.mk.inj (Option.some.inj found)
    have fits : word.length ≤ bytes.length := by
      have short := congrArg List.length starts
      rw [List.length_take] at short
      omega
    rw [List.take_append_of_le_length fits,List.drop_append_of_le_length fits,if_pos starts]
  · cases found

theorem whole_inside : SteadyInside readWhole := by
  intro bytes digits rest read some more
  unfold readWhole at read ⊢
  dsimp only at read ⊢
  split at read
  · cases read
  · rename_i valid
    obtain ⟨rfl,rfl⟩ := Prod.mk.inj (Option.some.inj read)
    obtain ⟨taken,dropped⟩ := takeWhile_inside some more
    rw [taken,dropped,if_neg valid]

theorem fraction_inside : SteadyInside readFraction := by
  intro bytes digits rest read some more
  cases bytes with
  | nil =>
    cases read
    exact absurd rfl some
  | cons first bytes =>
    rw [readFraction] at read
    rw [List.cons_append,readFraction]
    split at read
    · rename_i point
      dsimp only at read ⊢
      split at read
      · cases read
      · rename_i full
        obtain ⟨rfl,rfl⟩ := Prod.mk.inj (Option.some.inj read)
        obtain ⟨taken,dropped⟩ := takeWhile_inside some more
        rw [if_pos point,taken,dropped,if_neg full]
    · rename_i other
      obtain ⟨rfl,rfl⟩ := Prod.mk.inj (Option.some.inj read)
      rw [if_neg other,List.cons_append]

theorem sign_front {p : UInt8 → Bool} (some : bytes ≠ []) (more : List UInt8) :
    ((bytes ++ more).takeWhile p).take 1 = (bytes.takeWhile p).take 1 := by
  cases bytes with
  | nil => exact absurd rfl some
  | cons first bytes => cases taken : p first <;> simp [taken]

theorem exponent_inside : SteadyInside readExponent := by
  intro bytes digits rest read some more
  cases bytes with
  | nil =>
    cases read
    exact absurd rfl some
  | cons first bytes =>
    rw [readExponent] at read
    rw [List.cons_append,readExponent]
    split at read
    · rename_i letter
      dsimp only at read ⊢
      split at read
      · cases read
      · rename_i full
        obtain ⟨rfl,rfl⟩ := Prod.mk.inj (Option.some.inj read)
        have left : bytes ≠ [] := by
          rintro rfl
          exact some rfl
        have short : ((bytes.takeWhile fun byte => byte = 43 ∨ byte = minus).take 1).length ≤ bytes.length :=
          ((List.take_prefix _ _).trans (List.takeWhile_prefix _)).length_le
        obtain ⟨taken,dropped⟩ := takeWhile_inside some more
        rw [if_pos letter,sign_front left,List.drop_append_of_le_length short,taken,dropped,if_neg full]
    · rename_i other
      obtain ⟨rfl,rfl⟩ := Prod.mk.inj (Option.some.inj read)
      rw [if_neg other,List.cons_append]

theorem exponent_rest (read : readExponent bytes = some (digits,rest)) (some : rest ≠ []) : bytes ≠ [] := by
  rintro rfl
  cases read
  exact some rfl

theorem fraction_rest (read : readFraction bytes = some (digits,rest)) (some : rest ≠ []) : bytes ≠ [] := by
  rintro rfl
  cases read
  exact some rfl

theorem number_inside : SteadyInside readNumber := by
  intro bytes value rest read some more
  obtain ⟨⟨whole,afterWhole⟩,first,read⟩ := Option.bind_eq_some_iff.mp read
  obtain ⟨⟨fraction,afterFraction⟩,second,read⟩ := Option.bind_eq_some_iff.mp read
  obtain ⟨⟨exponent,last⟩,third,same⟩ := Option.map_eq_some_iff.mp read
  dsimp only at first second third same
  have kept : last = rest := by
    split at same <;> exact congrArg Prod.snd same
  subst kept
  have beforeExponent := exponent_rest third some
  have beforeFraction := fraction_rest second beforeExponent
  cases bytes with
  | nil => cases first
  | cons byte bytes =>
    have sign : ((byte :: bytes) ++ more).take 1 = (byte :: bytes).take 1 := rfl
    have short : (((byte :: bytes).take 1).filter (· = minus)).length ≤ (byte :: bytes).length :=
      (List.length_filter_le _ _).trans (List.length_take_le _ _ |>.trans (Nat.succ_le_succ (Nat.zero_le _)))
    rw [readNumber,sign]
    rw [List.drop_append_of_le_length short,whole_inside first beforeFraction more,Option.bind_some,
      fraction_inside second beforeExponent more,Option.bind_some,exponent_inside third some more,Option.map_some]
    split at same
    · rename_i decimal
      rw [if_pos decimal,← (Prod.mk.inj same).1]
    · rename_i integer
      rw [if_neg integer,← (Prod.mk.inj same).1]

section sequences
variable {α : Type} {close : UInt8} {item : List UInt8 → Option (α × List UInt8)}

theorem more_rest (read : readMore close item fuel bytes = some (values,rest)) : bytes ≠ [] := by
  rintro rfl
  cases fuel <;> cases read

theorem more_steady (inside : SteadyInside item) (read : readMore close item fuel bytes = some (values,rest))
    (enough : fuel ≤ larger) (more : List UInt8) : readMore close item larger (bytes ++ more) = some (values,rest ++ more) := by
  induction fuel generalizing bytes values larger with
  | zero => cases read
  | succ fuel ih =>
    obtain ⟨larger,rfl⟩ := Nat.exists_eq_add_one.mpr (Nat.lt_of_lt_of_le (Nat.succ_pos fuel) enough)
    rw [readMore] at read
    split at read
    · cases read
    · rename_i mark after opens
      rw [readMore,skip_more opens more]
      dsimp only
      split at read
      · rename_i closed
        cases read
        rw [if_pos closed]
      · rename_i going
        rw [if_neg going]
        split at read
        · rename_i separated
          obtain ⟨⟨value,behind⟩,one,read⟩ := Option.bind_eq_some_iff.mp read
          obtain ⟨⟨values,last⟩,later,same⟩ := Option.map_eq_some_iff.mp read
          cases same
          rw [if_pos separated,inside one (more_rest later) more,Option.bind_some,ih later (Nat.le_of_succ_le_succ enough)]
          rfl
        · cases read

theorem all_steady (inside : SteadyInside item) : Steady (readAll close item) := by
  intro bytes values rest read more
  unfold readAll at read
  split at read
  · cases read
  · rename_i mark after opens
    unfold readAll
    rw [skip_more opens more]
    dsimp only
    split at read
    · rename_i closed
      cases read
      rw [if_pos closed]
    · rename_i going
      obtain ⟨⟨value,behind⟩,one,read⟩ := Option.bind_eq_some_iff.mp read
      obtain ⟨⟨others,last⟩,later,same⟩ := Option.map_eq_some_iff.mp read
      cases same
      have longer : behind.length + 1 ≤ (behind ++ more).length + 1 := by
        rw [List.length_append]
        omega
      have first := inside one (more_rest later) more
      rw [List.cons_append] at first
      rw [if_neg going,first,Option.bind_some,more_steady inside later longer more]
      rfl

end sequences

theorem entry_inside {value : List UInt8 → Option (Tree × List UInt8)} (inside : SteadyInside value) :
    SteadyInside (readEntry value) := by
  intro bytes member rest read some more
  unfold readEntry at read
  split at read
  · cases read
  · rename_i mark after opens
    unfold readEntry
    rw [skip_more opens more]
    dsimp only
    split at read
    · rename_i quoted
      obtain ⟨⟨key,behind⟩,one,read⟩ := Option.bind_eq_some_iff.mp read
      rw [if_pos quoted,quoted_steady one more,Option.bind_some]
      dsimp only at read ⊢
      split at read
      · cases read
      · rename_i colonMark last between
        rw [skip_more between more]
        dsimp only
        split at read
        · rename_i parted
          obtain ⟨⟨tree,end_⟩,two,same⟩ := Option.map_eq_some_iff.mp read
          cases same
          rw [if_pos parted,inside two some more]
          rfl
        · cases read
    · cases read

theorem branch_more {α β : Type} {p : Prop} [Decidable p] {one two : Option α} {left right : Option β} {x : α} {y : β}
    (found : (if p then one else two) = some x) (yes : p → one = some x → left = some y)
    (no : ¬ p → two = some x → right = some y) : (if p then left else right) = some y := by
  by_cases holds : p
  · rw [if_pos holds] at found ⊢
    exact yes holds found
  · rw [if_neg holds] at found ⊢
    exact no holds found

-- The kinds of values in the order of the reader. An array or an object ends
-- with its own mark, a number at what follows.
theorem readTree_more (inside : SteadyInside (readTree depth)) (found : readTree (depth+1) bytes = some (value,rest))
    (opens : skip bytes = mark :: after) (stop : rest ≠ [] ∨ mark = openBrace) (more : List UInt8) :
    readTree (depth+1) (bytes ++ more) = some (value,rest ++ more) := by
  have arrays : Steady (readAll closeBracket (readTree depth)) := all_steady inside
  have objects : Steady (readAll closeBrace (readEntry (readTree depth))) := all_steady (entry_inside inside)
  rw [readTree,opens] at found
  rw [readTree,skip_more opens more]
  dsimp only at found ⊢
  refine branch_more found ?text fun _ found => branch_more found ?deep fun _ found => branch_more found ?array fun _ found =>
    branch_more found ?object fun noObject found => branch_more found ?null fun _ found => branch_more found ?yes fun _ found =>
    branch_more found ?no fun _ found => number_inside found (stop.elim id fun brace => absurd brace noObject) more
  case text =>
    intro _ found
    obtain ⟨⟨text,last⟩,one,same⟩ := Option.map_eq_some_iff.mp found
    cases same
    rw [quoted_steady one more]
    rfl
  case deep =>
    intro _ found
    cases found
  case array =>
    intro _ found
    obtain ⟨⟨items,last⟩,one,same⟩ := Option.map_eq_some_iff.mp found
    cases same
    rw [arrays one more]
    rfl
  case object =>
    intro _ found
    obtain ⟨⟨members,last⟩,one,same⟩ := Option.map_eq_some_iff.mp found
    cases same
    rw [objects one more]
    rfl
  case null => exact fun _ found => word_steady _ _ found more
  case yes => exact fun _ found => word_steady _ _ found more
  case no => exact fun _ found => word_steady _ _ found more

theorem readTree_inside : SteadyInside (readTree depth) := by
  induction depth with
  | zero => exact fun found => (nomatch found)
  | succ depth ih =>
    intro bytes value rest found some
    cases opens : skip bytes with
    | nil => rw [readTree,opens] at found; cases found
    | cons mark after => exact readTree_more ih found opens (.inl some)

-- The beginning of a written object is no value, unless it is all of it.
theorem parse_cut {members : List (String × Tree)} (fits : Fits depthLimit (.object members)) (taken : Nat)
    (cut : taken < (writeTree (.object members)).length) : parse ((writeTree (.object members)).take taken) = none := by
  have whole := readTree_write fits [] stops_nil
  rw [List.append_nil] at whole
  cases parsed : parse ((writeTree (.object members)).take taken) with
  | none => rfl
  | some tree =>
    obtain ⟨⟨value,rest⟩,found,_⟩ := Option.bind_eq_some_iff.mp parsed
    cases taken with
    | zero => cases found
    | succ taken =>
      have opens : skip ((writeTree (.object members)).take (taken+1)) =
          openBrace :: (commas (writeMembers members) ++ [closeBrace]).take taken := skip_solid rfl
      have more := readTree_more readTree_inside found opens (.inr rfl) ((writeTree (.object members)).drop (taken+1))
      rw [List.take_append_drop] at more
      have rests := congrArg Prod.snd (Option.some.inj (whole.symm.trans more))
      have none : (writeTree (.object members)).drop (taken+1) = [] := (List.append_eq_nil_iff.mp rests.symm).2
      rw [List.drop_eq_nil_iff] at none
      omega

end Quire.JsonCut
