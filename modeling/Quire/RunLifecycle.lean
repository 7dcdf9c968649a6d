import Quire.RunsTable

namespace Quire.RunLifecycle
open KeyedTable RunsTable

-- The lifecycle has no column of its own: 0010 derives it from two timestamps.
inductive Stage where
  | queued
  | active
  | resolved
  deriving DecidableEq, Repr

def stage (row : RunRow) : Stage :=
  if row.resolvedAt.isSome then .resolved
  else if row.dispatchedAt.isSome then .active
  else .queued

inductive Stage.Moves : Stage → Stage → Prop where
  | stay : Moves s s
  | dispatched : Moves .queued .active
  | resolved : Moves s .resolved

theorem Stage.Moves.trans (left : Moves first second) (right : Moves second third) : Moves first third := by
  cases right with
  | stay => exact left
  | dispatched => cases left; exact .dispatched
  | resolved => exact .resolved

-- What no statement can undo on a row: its identity, that it was dispatched,
-- and the first values of `resolved_at` and `outcome`.
structure Forward (before after : RunRow) : Prop where
  id : after.id = before.id
  repo : after.repo = before.repo
  refName : after.refName = before.refName
  sha : after.sha = before.sha
  pushedAtMs : after.pushedAtMs = before.pushedAtMs
  createdAt : after.createdAt = before.createdAt
  runToken : after.runToken = before.runToken
  dispatched : before.dispatchedAt ≠ none → after.dispatchedAt ≠ none
  resolvedAt : before.resolvedAt ≠ none → after.resolvedAt = before.resolvedAt
  outcome : before.outcome ≠ none → after.outcome = before.outcome

theorem Forward.refl (row : RunRow) : Forward row row :=
  ⟨rfl,rfl,rfl,rfl,rfl,rfl,rfl,fun set => set,fun _ => rfl,fun _ => rfl⟩

theorem Forward.trans (left : Forward first second) (right : Forward second third) : Forward first third where
  id := right.id.trans left.id
  repo := right.repo.trans left.repo
  refName := right.refName.trans left.refName
  sha := right.sha.trans left.sha
  pushedAtMs := right.pushedAtMs.trans left.pushedAtMs
  createdAt := right.createdAt.trans left.createdAt
  runToken := right.runToken.trans left.runToken
  dispatched := fun set => right.dispatched (left.dispatched set)
  resolvedAt := fun set => (right.resolvedAt (by rwa [left.resolvedAt set])).trans (left.resolvedAt set)
  outcome := fun set => (right.outcome (by rwa [left.outcome set])).trans (left.outcome set)

theorem Forward.moves (forward : Forward before after) : (stage before).Moves (stage after) := by
  have dispatched := forward.dispatched
  have resolved := forward.resolvedAt
  unfold stage
  cases was : before.resolvedAt with
  | some stamp =>
    have kept : after.resolvedAt = some stamp := by simpa [was] using resolved
    simpa [kept] using Stage.Moves.stay
  | none =>
    cases now : after.resolvedAt with
    | some stamp => simpa using Stage.Moves.resolved
    | none =>
      cases sent : before.dispatchedAt with
      | none => cases after.dispatchedAt <;> simp <;> constructor
      | some stamp =>
        have kept : after.dispatchedAt.isSome = true := by
          simpa [sent,Option.isSome_iff_ne_none] using dispatched
        simpa [kept] using Stage.Moves.stay

theorem coalesce_kept {column : Option α} (set : column ≠ none) : coalesce column value = column := by
  cases column with
  | none => exact absurd rfl set
  | some held => rfl

theorem stamp_forward (row : RunRow) (now : Int) (outcome : String) : Forward row (row.stamp now outcome) :=
  ⟨rfl,rfl,rfl,rfl,rfl,rfl,rfl,fun _ => coalesce_ne_none _ _,coalesce_kept,coalesce_kept⟩

theorem sets_forward (stmt : RunsStmt) (row : RunRow) : Forward row (stmt.sets row) := by
  cases stmt with
  | cancelActive now runId => exact stamp_forward row now _
  | cancelQueued now repo refName =>
    exact ⟨rfl,rfl,rfl,rfl,rfl,rfl,rfl,fun set => set,coalesce_kept,coalesce_kept⟩
  | insertRun run now => exact .refl row
  | reconcileOrphans now => exact stamp_forward row now _
  | storeBootstrapData traceparent runId =>
    exact ⟨rfl,rfl,rfl,rfl,rfl,rfl,rfl,fun set => set,fun _ => rfl,fun _ => rfl⟩
  | dispatch now runId =>
    exact ⟨rfl,rfl,rfl,rfl,rfl,rfl,rfl,fun _ => coalesce_ne_none _ _,fun _ => rfl,fun _ => rfl⟩
  | resolve now outcome runId => exact stamp_forward row now outcome
  | bootstrapFetched now runId =>
    exact ⟨rfl,rfl,rfl,rfl,rfl,rfl,rfl,fun _ => Option.some_ne_none _,fun _ => rfl,fun _ => rfl⟩

theorem exec_forward {table next : RunsTable} {stmt : RunsStmt} (accepted : stmt.exec table = .ok next) :
    Evolves Forward table next := by
  cases update : stmt.isInsert with
  | false =>
    rw [exec_update update] at accepted
    exact update_evolves Forward.refl (fun row _ => sets_forward stmt row) accepted
  | true =>
    cases stmt with
    | insertRun run now => exact insert_evolves Forward.refl accepted
    | _ => cases update

-- An UPDATE brings no row into the table.
theorem exec_origin {table next : RunsTable} {stmt : RunsStmt} (update : stmt.isInsert = false)
    (accepted : stmt.exec table = .ok next) (found : next.row? runId = some row) :
    ∃ old, table.row? runId = some old ∧ Forward old row := by
  rw [exec_update_row? update accepted] at found
  obtain ⟨old,present,rfl⟩ := Option.map_eq_some_iff.mp found
  refine ⟨old,present,?_⟩
  split
  · exact sets_forward stmt old
  · exact .refl old

theorem row_checks {table : RunsTable} (found : table.row? runId = some row) : row.Checks :=
  table.checked row (row?_mem found)

theorem unresolved_outcome {table : RunsTable} (found : table.row? runId = some row)
    (unresolved : row.resolvedAt = none) : row.outcome = none :=
  (row_checks found).together.mp unresolved

-- The statement that takes a row out of the unresolved ones selected that row
-- and wrote its own outcome there.
theorem exec_resolves {table next : RunsTable} {stmt : RunsStmt} (accepted : stmt.exec table = .ok next)
    (found : table.row? runId = some row) (unresolved : row.resolvedAt = none)
    (present : next.row? runId = some after) (resolved : after.resolvedAt ≠ none) :
    stmt.selects row = true ∧ after = stmt.sets row ∧ after.outcome = stmt.outcome? ∧
      stmt.outcome? ≠ none := by
  have blank := unresolved_outcome found unresolved
  cases update : stmt.isInsert with
  | true =>
    exfalso
    cases stmt with
    | insertRun run now =>
      rw [exec_insert_row? accepted] at present
      split at present
      · cases present; exact resolved rfl
      · rw [found] at present; cases present; exact resolved unresolved
    | _ => cases update
  | false =>
    rw [exec_update_row? update accepted,found,Option.map_some] at present
    by_cases chosen : stmt.selects row = true
    · simp only [chosen,if_true,Option.some.injEq] at present
      subst after
      refine ⟨chosen,rfl,?_⟩
      cases stmt <;> simp_all [RunsStmt.sets,RunRow.stamp,RunsStmt.outcome?,coalesce]
    · simp only [chosen,Bool.false_eq_true,if_false,Option.some.injEq] at present
      subst after
      exact absurd unresolved resolved

end Quire.RunLifecycle
