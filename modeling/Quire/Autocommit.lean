import Mathlib.Data.List.Induction

namespace Quire.Autocommit
variable {State Item Key Error : Type} {step : State → Item → Except Error State} {rows : State → List Item}
  {key : Item → Key} {fits : State → Item → Prop}

-- Statements that commit one by one, up to the first that is refused.
def applyAll (step : State → Item → Except Error State) : List Item → State → Except Error Unit × State
  | [],s => (.ok (),s)
  | item :: rest,s =>
    match step s item with
    | .error error => (.error error,s)
    | .ok next => applyAll step rest next

-- A statement that appends one row to a keyed table, if the row fits.
structure Appends (step : State → Item → Except Error State) (rows : State → List Item) (key : Item → Key)
    (fits : State → Item → Prop) : Prop where
  appended : ∀ {s next item}, step s item = .ok next → rows next = rows s ++ [item]
  framed : ∀ {s next item}, step s item = .ok next → ∀ other, fits next other ↔ fits s other
  accepted : ∀ {s item}, (∃ next, step s item = .ok next) ↔ key item ∉ (rows s).map key ∧ fits s item

theorem applyAll_taken (appends : Appends step rows key fits) (items : List Item) (s : State) :
    ∃ taken, taken <+: items ∧ rows (applyAll step items s).2 = rows s ++ taken ∧
      ((applyAll step items s).1 = .ok () ↔ taken = items) := by
  induction items generalizing s with
  | nil => exact ⟨[],by simp,by simp [applyAll],by simp [applyAll]⟩
  | cons item rest ih =>
    cases first : step s item with
    | error error => exact ⟨[],by simp,by simp [applyAll,first],by simp [applyAll,first]⟩
    | ok next =>
      obtain ⟨taken,front,kept,whole⟩ := ih next
      refine ⟨item :: taken,by simpa using front,?_,by simpa [applyAll,first] using whole⟩
      simp [applyAll,first,kept,appends.appended first]

-- What no statement changes, the whole list leaves alone.
theorem applyAll_keeps {Part : Type} {part : State → Part}
    (keeps : ∀ {s next item}, step s item = .ok next → part next = part s) (items : List Item) (s : State) :
    part (applyAll step items s).2 = part s := by
  induction items generalizing s with
  | nil => rfl
  | cons item rest ih =>
    cases first : step s item with
    | error error => simp [applyAll,first]
    | ok next => simp [applyAll,first,ih,keeps first]

theorem applyAll_ok_iff (appends : Appends step rows key fits) {items : List Item} {s : State}
    (keyed : ((rows s).map key).Nodup) : (applyAll step items s).1 = .ok () ↔
      ((rows s ++ items).map key).Nodup ∧ ∀ item ∈ items, fits s item := by
  induction items generalizing s with
  | nil => simpa [applyAll] using keyed
  | cons item rest ih =>
    cases first : step s item with
    | error error =>
      have refused : ¬ (key item ∉ (rows s).map key ∧ fits s item) := by
        rw [← appends.accepted,first]
        simp
      refine iff_of_false (by simp [applyAll,first]) fun ⟨distinct,fine⟩ => refused ⟨fun present => ?_,fine item List.mem_cons_self⟩
      rw [List.map_append,List.nodup_append] at distinct
      exact distinct.2.2 _ present _ (by simp) rfl
    | ok next =>
      obtain ⟨absent,fine⟩ := appends.accepted.mp ⟨next,first⟩
      have grown := appends.appended first
      have distinct : ((rows next).map key).Nodup := by
        rw [grown,List.map_append,List.nodup_append]
        exact ⟨keyed,by simp,fun a old b new same => absent (by simp at new; exact new ▸ same ▸ old)⟩
      have later := ih distinct
      simp only [applyAll,first,later,grown,List.append_assoc,List.singleton_append,appends.framed first,
        List.forall_mem_cons,fine,true_and]

-- What is known once some of the items are taken tells whether the next one is
-- refused.
structure Foretold (step : State → Item → Except Error State) (items : List Item) (refused : Item → Prop)
    (known : List Item → State → Prop) (s : State) : Prop where
  starts : known [] s
  refuses : ∀ {taken item rest t}, items = taken ++ item :: rest → known taken t →
    ((∃ error, step t item = .error error) ↔ refused item)
  takes : ∀ {taken item rest t next}, items = taken ++ item :: rest → known taken t → step t item = .ok next →
    known (taken ++ [item]) next

section foretold
variable {items : List Item} {refused : Item → Prop} {known : List Item → State → Prop} {s : State}

theorem applyAll_front (foretold : Foretold step items refused known s) (split : items = taken ++ rest)
    (fine : ∀ item ∈ taken, ¬ refused item) : ∃ t, known taken t ∧ applyAll step items s = applyAll step rest t := by
  induction taken using List.reverseRecOn generalizing rest with
  | nil => exact ⟨s,foretold.starts,by rw [split,List.nil_append]⟩
  | append_singleton front item ih =>
    rw [List.append_assoc,List.singleton_append] at split
    obtain ⟨t,holds,same⟩ := ih split fun other member => fine other (List.mem_append_left _ member)
    cases taken : step t item with
    | error error => exact absurd ((foretold.refuses split holds).mp ⟨error,taken⟩) (fine item (by simp))
    | ok next => exact ⟨next,foretold.takes split holds taken,by rw [same,applyAll,taken]⟩

theorem applyAll_stops (foretold : Foretold step items refused known s) (split : items = taken ++ item :: rest)
    (first : ∀ other ∈ taken, ¬ refused other) (last : refused item) :
    (∃ error, (applyAll step items s).1 = .error error) ∧ known taken (applyAll step items s).2 := by
  obtain ⟨t,holds,same⟩ := applyAll_front foretold split first
  obtain ⟨error,stopped⟩ := (foretold.refuses split holds).mpr last
  rw [same,applyAll,stopped]
  exact ⟨⟨error,rfl⟩,holds⟩

theorem applyAll_ends (foretold : Foretold step items refused known s) (fine : ∀ item ∈ items, ¬ refused item) :
    (applyAll step items s).1 = .ok () ∧ known items (applyAll step items s).2 := by
  obtain ⟨t,holds,same⟩ := applyAll_front foretold (List.append_nil items).symm fine
  rw [same]
  exact ⟨rfl,holds⟩

theorem first_refused (items : List Item) (refused : Item → Prop) :
    (∃ taken item rest, items = taken ++ item :: rest ∧ refused item ∧ ∀ other ∈ taken, ¬ refused other) ∨
      ∀ item ∈ items, ¬ refused item := by
  induction items with
  | nil => exact .inr fun _ member => nomatch member
  | cons item rest ih =>
    by_cases now : refused item
    · exact .inl ⟨[],item,rest,rfl,now,fun _ member => nomatch member⟩
    · rcases ih with ⟨taken,last,later,rfl,stops,first⟩ | none
      · exact .inl ⟨item :: taken,last,later,rfl,stops,List.forall_mem_cons.mpr ⟨now,first⟩⟩
      · exact .inr (List.forall_mem_cons.mpr ⟨now,none⟩)

theorem applyAll_done (foretold : Foretold step items refused known s) (done : (applyAll step items s).1 = .ok ()) :
    known items (applyAll step items s).2 := by
  rcases first_refused items refused with ⟨taken,item,rest,split,last,first⟩ | fine
  · obtain ⟨⟨error,stopped⟩,_⟩ := applyAll_stops foretold split first last
    cases stopped.symm.trans done
  · exact (applyAll_ends foretold fine).2

-- A failing list has left everything as it was exactly when nothing before the
-- first refused item was to leave a mark.
theorem applyAll_clean_iff (foretold : Foretold step items refused known s) {marks : Item → Prop}
    (marked : ∀ {taken t}, taken <+: items → known taken t → (t = s ↔ ∀ item ∈ taken, ¬ marks item)) :
    ((∃ error, (applyAll step items s).1 = .error error) → (applyAll step items s).2 = s) ↔
      ∀ taken item rest, items = taken ++ item :: rest → refused item → (∀ other ∈ taken, ¬ refused other) →
        ∀ other ∈ taken, ¬ marks other := by
  constructor
  · intro clean taken item rest split last first
    obtain ⟨failed,holds⟩ := applyAll_stops foretold split first last
    exact (marked ⟨_,split.symm⟩ holds).mp (clean failed)
  · intro unmarked failed
    rcases first_refused items refused with ⟨taken,item,rest,split,last,first⟩ | fine
    · obtain ⟨_,holds⟩ := applyAll_stops foretold split first last
      exact (marked ⟨_,split.symm⟩ holds).mpr (unmarked taken item rest split last first)
    · obtain ⟨error,stopped⟩ := failed
      rw [(applyAll_ends foretold fine).1] at stopped
      cases stopped

end foretold

end Quire.Autocommit
