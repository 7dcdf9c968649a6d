import Quire.RunsServer

namespace Quire.RunHistory
open KeyedTable RunsTable RunLifecycle RunsCalls RunsServer StepSystem

-- An action that takes a row out of the unresolved ones put through a write
-- that selected the row and left its own outcome there.
theorem acts_resolves (step : Acts before action after) (found : before.db.row? runId = some row)
    (unresolved : row.resolvedAt = none) (present : after.db.row? runId = some next)
    (resolved : next.resolvedAt ≠ none) :
    ∃ stmt, before.writes action = some stmt ∧ stmt.selects row = true ∧
      next.outcome = stmt.outcome? ∧ stmt.outcome? ≠ none := by
  have unchanged : after.db = before.db → False := by
    intro same
    rw [same,found] at present
    cases present
    exact resolved unresolved
  cases action with
  | begin call => exact (unchanged (by rw [(acts_begin step).2])).elim
  | advance index now =>
    obtain ⟨call,held,advanced⟩ := acts_advance step
    cases advanced with
    | read _ _ result => exact (unchanged (by rw [result])).elim
    | refused _ _ result => exact (unchanged (by rw [result])).elim
    | @wrote stmt db issued accepted result =>
      rw [result] at present
      obtain ⟨selected,_,recorded,written⟩ := exec_resolves accepted found unresolved present resolved
      exact ⟨stmt,by simp [Server.writes,held,issued,accepted,Except.isOk,Except.toBool],selected,recorded,written⟩

-- The step of a history that resolved a run, by the statement it put through
-- and the row that statement met.
def ResolvedBy (runId : String) (before : Server) (actions : List Action) (after : Server)
    (stmt : RunsStmt) : Prop :=
  ∃ earlier action later s t row, actions = earlier ++ action :: later ∧
    Runs Acts before earlier s ∧ Acts s action t ∧ Runs Acts t later after ∧
    s.writes action = some stmt ∧ s.db.row? runId = some row ∧
    row.resolvedAt = none ∧ stmt.selects row = true

theorem resolved_by (path : Runs Acts before actions after) (found : before.db.row? runId = some row)
    (unresolved : row.resolvedAt = none) (present : after.db.row? runId = some final)
    (resolved : final.resolvedAt ≠ none) :
    ∃ stmt, ResolvedBy runId before actions after stmt ∧ final.outcome = stmt.outcome? ∧ stmt.outcome? ≠ none := by
  have fails : ¬ Resolved runId before := by
    intro resolved
    obtain ⟨other,same,set⟩ := resolved
    rw [found] at same
    cases same
    exact set unresolved
  obtain ⟨earlier,action,later,s,t,split,reached,turned,remaining,no,next,nextFound,nextSet⟩ :=
    path.turning (Resolved runId) fails ⟨final,present,resolved⟩
  obtain ⟨middle,middleFound,_⟩ := runs_forward reached runId row found
  have middleOpen : middle.resolvedAt = none := by
    cases stamp : middle.resolvedAt with
    | none => rfl
    | some value => exact absurd ⟨middle,middleFound,by simp [stamp]⟩ no
  obtain ⟨stmt,written,selected,recorded,outcome⟩ :=
    acts_resolves turned middleFound middleOpen nextFound nextSet
  obtain ⟨last,lastFound,kept⟩ := runs_forward remaining runId next nextFound
  rw [present] at lastFound
  cases lastFound
  refine ⟨stmt,?_,?_,outcome⟩
  · exact ⟨earlier,action,later,s,t,middle,split,reached,turned,remaining,written,middleFound,middleOpen,selected⟩
  · rw [kept.outcome (by rw [recorded]; exact outcome),recorded]

theorem first_resolution_wins (before after : Server) (actions : List Action) (runId : String) (row : RunRow)
    (path : Runs Acts before actions after) (found : before.db.row? runId = some row) :
    ∃ final, after.db.row? runId = some final ∧ (stage row).Moves (stage final) ∧
      (row.resolvedAt ≠ none → final.resolvedAt = row.resolvedAt) ∧
      (row.outcome ≠ none → final.outcome = row.outcome) ∧
      (row.resolvedAt = none → final.resolvedAt ≠ none →
        ∃ stmt, ResolvedBy runId before actions after stmt ∧ final.outcome = stmt.outcome? ∧ stmt.outcome? ≠ none) := by
  obtain ⟨final,present,forward⟩ := runs_forward path runId row found
  exact ⟨final,present,forward.moves,forward.resolvedAt,forward.outcome,
    fun unresolved resolved => resolved_by path found unresolved present resolved⟩

-- A run is created; a second push to the ref supersedes it while it is
-- queued; then its own worker tries to resolve it.
def firstPush : List Action :=
  [.begin (.createSelect ⟨"run-1","test.git","refs/heads/main","abc123",5,some "token-1"⟩),
    .advance 0 10,.advance 0 10,.advance 0 10]

def lateResolve : List Action :=
  [.begin (.createSelect ⟨"run-2","test.git","refs/heads/main","def456",15,some "token-2"⟩),
    .advance 1 20,.advance 1 20,.begin (.resolve ⟨"run-1",true,false⟩ "succeeded"),.advance 2 20]

theorem first_resolution_wins_superseded :
    ∃ before after final, Server.start.run firstPush = some before ∧ before.run lateResolve = some after ∧
      after.db.row? "run-1" = some final ∧ Stage.Moves .queued (stage final) ∧
      final.outcome = some "superseded" := by
  obtain ⟨before,created⟩ := Option.isSome_iff_exists.mp
    (show (Server.start.run firstPush).isSome = true by decide)
  have queued : (Server.start.run firstPush).bind (fun s => s.db.row? "run-1") = some
      ⟨"run-1","test.git","refs/heads/main","abc123",5,10,none,none,none,some "token-1",none⟩ := by decide
  have late : (Server.start.run firstPush).bind (fun s => (s.run lateResolve).bind fun t =>
      (t.db.row? "run-1").bind RunRow.outcome) = some "superseded" := by decide
  rw [created,Option.bind_some] at queued late
  obtain ⟨after,ran,rest⟩ := Option.bind_eq_some_iff.mp late
  obtain ⟨final,present,moves,_⟩ := first_resolution_wins before after _ _ _ (run_runs ran) queued
  rw [present] at rest
  exact ⟨before,after,final,created,ran,present,moves,rest⟩

end Quire.RunHistory
