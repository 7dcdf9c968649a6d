namespace Quire.StepSystem
variable {State Action : Type} {Step : State → Action → State → Prop}

-- A run in the order the steps were taken. `Step` is a parameter, so a run
-- whose every step meets a condition is a run of the guarded relation below.
inductive Runs (Step : State → Action → State → Prop) : State → List Action → State → Prop where
  | nil : Runs Step s [] s
  | step : Runs Step origin earlier middle → Step middle action after →
      Runs Step origin (earlier ++ [action]) after

def Guarded (condition : State → Action → Prop) (Step : State → Action → State → Prop) :
    State → Action → State → Prop :=
  fun before action after => condition before action ∧ Step before action after

theorem Runs.single (step : Step before action after) : Runs Step before [action] after :=
  .step .nil step

theorem Runs.append (left : Runs Step before earlier middle) (right : Runs Step middle later after) :
    Runs Step before (earlier ++ later) after := by
  induction right with
  | nil => simpa using left
  | step prior step ih => simpa only [List.append_assoc] using Runs.step ih step

theorem Runs.nil_inv (path : Runs Step before [] after) : after = before := by
  generalize split : ([] : List Action) = actions at path
  cases path with
  | nil => rfl
  | step prior step => simp at split

theorem Runs.snoc_inv (path : Runs Step before (earlier ++ [action]) after) :
    ∃ middle, Runs Step before earlier middle ∧ Step middle action after := by
  generalize split : earlier ++ [action] = actions at path
  cases path with
  | nil => simp at split
  | step prior step =>
    obtain ⟨rfl,last⟩ := List.append_inj' split rfl
    cases last
    exact ⟨_,prior,step⟩

theorem Runs.append_inv (path : Runs Step before (earlier ++ later) after) :
    ∃ middle, Runs Step before earlier middle ∧ Runs Step middle later after := by
  generalize split : earlier ++ later = actions at path
  induction path generalizing later with
  | nil =>
    obtain ⟨rfl,rfl⟩ := List.append_eq_nil_iff.mp split
    exact ⟨_,.nil,.nil⟩
  | @step taken middle action after prior step ih =>
    rcases List.eq_nil_or_concat later with rfl | ⟨front,last,rfl⟩
    · rw [List.append_nil] at split
      exact ⟨after,split ▸ .step prior step,.nil⟩
    · rw [List.concat_eq_append,← List.append_assoc] at split
      obtain ⟨same,final⟩ := List.append_inj' split rfl
      cases final
      obtain ⟨point,left,right⟩ := ih same
      exact ⟨point,left,by rw [List.concat_eq_append]; exact .step right step⟩

theorem Runs.cons_inv (path : Runs Step before (action :: later) after) :
    ∃ middle, Step before action middle ∧ Runs Step middle later after := by
  rw [← List.singleton_append] at path
  obtain ⟨middle,first,rest⟩ := path.append_inv
  rw [← List.nil_append [action]] at first
  obtain ⟨start,empty,step⟩ := first.snoc_inv
  exact ⟨middle,empty.nil_inv ▸ step,rest⟩

def Functional (Step : State → Action → State → Prop) : Prop := ∀ s a t u, Step s a t → Step s a u → t = u

theorem Runs.functional (determined : Functional Step)
    (left : Runs Step before actions one) (right : Runs Step before actions two) : one = two := by
  induction left generalizing two with
  | nil => exact right.nil_inv.symm
  | step prior step ih =>
    obtain ⟨middle,path,last⟩ := right.snoc_inv
    cases ih path
    exact determined _ _ _ _ step last

-- What one step keeps, a whole run keeps.
theorem Runs.invariant (path : Runs Step before actions after) (Holds : State → Prop)
    (kept : ∀ s a t, Holds s → Step s a t → Holds t) (start : Holds before) : Holds after := by
  induction path with
  | nil => exact start
  | step prior step ih => exact kept _ _ _ ih step

theorem Runs.unguarded (path : Runs (Guarded condition Step) before actions after) : Runs Step before actions after := by
  induction path with
  | nil => exact .nil
  | step prior step ih => exact .step ih step.2

-- Where a property fails at the start and holds at the end, one step of the
-- run made it true.
theorem Runs.turning (path : Runs Step before actions after) (Holds : State → Prop)
    (fails : ¬ Holds before) (holds : Holds after) :
    ∃ earlier action later s t, actions = earlier ++ action :: later ∧
      Runs Step before earlier s ∧ Step s action t ∧ Runs Step t later after ∧
      ¬ Holds s ∧ Holds t := by
  induction path with
  | nil => exact absurd holds fails
  | @step earlier middle action after prior step ih =>
    by_cases already : Holds middle
    · obtain ⟨first,turn,rest,s,t,split,reached,turned,remaining,no,yes⟩ := ih already
      exact ⟨first,turn,rest ++ [action],s,t,by simp [split],reached,turned,.step remaining step,no,yes⟩
    · exact ⟨earlier,action,[],middle,after,rfl,prior,step,.nil,already,holds⟩

-- A run of a step function that stops at the first action its condition forbids.
def attempt (act : State → Action → Option State) (condition : State → Action → Prop) [∀ s a, Decidable (condition s a)]
    (s : State) : List Action → Option State
  | [] => some s
  | action :: rest => if condition s action then (act s action).bind fun next => attempt act condition next rest else none

theorem attempt_runs {act : State → Action → Option State} {condition : State → Action → Prop}
    [∀ s a, Decidable (condition s a)] (ran : attempt act condition before actions = some after) :
    Runs (Guarded condition fun s a t => act s a = some t) before actions after := by
  induction actions generalizing before with
  | nil => cases ran; exact .nil
  | cons action rest ih =>
    unfold attempt at ran
    split at ran
    · rename_i permitted
      obtain ⟨middle,first,remaining⟩ := Option.bind_eq_some_iff.mp ran
      have single : Runs (Guarded condition fun s a t => act s a = some t) before [action] middle :=
        .single ⟨permitted,first⟩
      exact single.append (ih remaining)
    · cases ran

end Quire.StepSystem
