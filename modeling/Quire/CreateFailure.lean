import Quire.RunCreation

namespace Quire.CreateFailure
open KeyedTable RunsTable Autocommit RunCreation
variable {faults : Faults} {run : NewRun} {cancelNow insertNow : Int} {db : RunsTable}

-- A create that fails leaves the table it found.
def LeavesTable (faults : Faults) (run : NewRun) (cancelNow insertNow : Int) (db : RunsTable) : Prop :=
  ∀ error, (create faults run cancelNow insertNow db).2 = .error error → (create faults run cancelNow insertNow db).1 = db

-- Whether a step changes the table where it goes well.
def Marks (run : NewRun) (db : RunsTable) : Step → Prop
  | .openDb | .selectActive | .createDir => False
  | .cancelActive _ | .insertRun => True
  | .cancelQueued => ∃ row ∈ db.rows, Queued run.repo run.refName row

theorem table_eq {first second : RunsTable} (same : first.rows = second.rows) : first = second := by
  obtain ⟨_,_,_⟩ := first
  obtain ⟨_,_,_⟩ := second
  cases same
  rfl

theorem superseded_ne (unresolved : row.resolvedAt = none) : superseded now row ≠ row := by
  intro same
  have stamped := congrArg RunRow.resolvedAt same
  rw [unresolved] at stamped
  cases stamped

theorem cancelled_marked (front : taken <+: plan db run) (member : row ∈ db.rows) (cancelled : Cancels run taken row) :
    row.resolvedAt = none ∧ ∃ step ∈ taken, Marks run db step := by
  rcases cancelled with active | ⟨queueing,queued⟩
  · have listed := planned_active.mp (front.subset active)
    exact ⟨((active_row member).mp listed).2.2.2,_,active,trivial⟩
  · exact ⟨queued.2.2.2,_,queueing,row,member,queued⟩

-- The rows are as they were exactly when no step so far was to change one.
theorem rowsAfter_marked (front : taken <+: plan db run) :
    rowsAfter run cancelNow insertNow db taken = db.rows ↔ ∀ step ∈ taken, ¬ Marks run db step := by
  constructor
  · intro same
    have late : .insertRun ∉ taken := by
      intro present
      have longer := congrArg List.length same
      simp [rowsAfter,present] at longer
    rw [rowsAfter_early taken late] at same
    have fixed : ∀ row ∈ db.rows, rowAfter run cancelNow taken row = row :=
      List.map_inj_left.mp (same.trans (List.map_id _).symm)
    have untouched : ∀ row ∈ db.rows, ¬ Cancels run taken row := by
      intro row member cancelled
      have kept := fixed row member
      rw [rowAfter,if_pos cancelled] at kept
      exact superseded_ne (cancelled_marked front member cancelled).1 kept
    intro step present
    cases step with
    | openDb | selectActive | createDir => exact id
    | insertRun => exact absurd present late
    | cancelActive runId =>
      obtain ⟨row,found,_⟩ := mem_activeIds.mp (planned_active.mp (front.subset present))
      obtain rfl : row.id = runId := row?_key found
      exact absurd (.inl present) (untouched row (row?_mem found))
    | cancelQueued =>
      intro queue
      obtain ⟨row,member,queued⟩ := queue
      exact untouched row member (.inr ⟨present,queued⟩)
  · intro unmarked
    have late : .insertRun ∉ taken := fun present => unmarked .insertRun present trivial
    rw [rowsAfter_early taken late]
    refine (List.map_congr_left fun row member => ?_).trans (List.map_id _)
    apply if_neg
    intro cancelled
    obtain ⟨_,step,present,marks⟩ := cancelled_marked front member cancelled
    exact unmarked step present marks

theorem failed_create_iff (faults : Faults) (run : NewRun) (cancelNow insertNow : Int) (db : RunsTable) :
    LeavesTable faults run cancelNow insertNow db ↔
      ∀ taken step rest, plan db run = taken ++ step :: rest → Refused faults run cancelNow db step →
        (∀ other ∈ taken, ¬ Refused faults run cancelNow db other) → ∀ other ∈ taken, ¬ Marks run db other := by
  have marked : ∀ {taken : List Step} {t : RunsTable}, taken <+: plan db run → t.rows = rowsAfter run cancelNow insertNow db taken →
      (t = db ↔ ∀ step ∈ taken, ¬ Marks run db step) := by
    intro taken t front stands
    rw [← rowsAfter_marked front,← stands]
    exact ⟨congrArg Table.rows,table_eq⟩
  rw [← applyAll_clean_iff (plan_foretold faults run cancelNow insertNow db) marked,LeavesTable,create_plan]
  cases (applyAll (perform faults run cancelNow insertNow) (plan db run) db).1 with
  | error error => exact ⟨fun leaves _ => leaves error rfl,fun clean _ _ => clean ⟨error,rfl⟩⟩
  | ok done =>
    constructor
    · intro _ ⟨_,failed⟩
      cases failed
    · intro _ _ failed
      cases failed

-- The run directory cannot be made: two runs are superseded by a row that
-- nobody will run.
theorem superseded_by_nothing : ¬ ∀ (faults : Faults) (run : NewRun) (cancelNow insertNow : Int) (db : RunsTable),
    LeavesTable faults run cancelNow insertNow db := by
  intro claimed
  have leaves := claimed (directoryOnly false) pushed 9 9 busy
  have failed : (create (directoryOnly false) pushed 9 9 busy).2.isOk = false := by decide
  have changed : (create (directoryOnly false) pushed 9 9 busy).1.rows ≠ busy.rows := by decide
  cases answered : (create (directoryOnly false) pushed 9 9 busy).2 with
  | error error => exact changed (congrArg Table.rows (leaves error answered))
  | ok handle => rw [answered] at failed; cases failed

end Quire.CreateFailure
