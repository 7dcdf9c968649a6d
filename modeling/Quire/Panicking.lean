namespace Quire.Panicking

-- A program over a state. A panic ends it, and what it had done by then stays.
abbrev Program (State α : Type) := ExceptT String (StateM State) α

def exec (program : Program State α) (s : State) : Except String α × State := (ExceptT.run program).run s

def panicking (message : String) : Program State α := throw message

-- `expect` of an optional value.
def expecting (message : String) : Option α → Program State α
  | some value => pure value
  | none => panicking message

def asserting (message : String) (condition : Bool) : Program State Unit :=
  if condition then pure () else panicking message

variable {State α β : Type} {program : Program State α} {next : α → Program State β} {s t : State}

@[simp] theorem exec_pure (value : α) (s : State) : exec (pure value : Program State α) s = (.ok value,s) := rfl
@[simp] theorem exec_get (s : State) : exec (get : Program State State) s = (.ok s,s) := rfl
@[simp] theorem exec_modify (change : State → State) (s : State) :
    exec (modify change : Program State Unit) s = (.ok (),change s) := rfl

theorem exec_bind (program : Program State α) (next : α → Program State β) (s : State) :
    exec (program >>= next) s =
      match exec program s with
      | (.ok value,t) => exec (next value) t
      | (.error message,t) => (.error message,t) := by
  change (StateT.bind program (ExceptT.bindCont next)) s = _
  simp only [StateT.bind,exec,ExceptT.run,StateT.run]
  change (match program s with | (a,t) => ExceptT.bindCont next a t) = _
  rcases program s with ⟨value | value,t⟩ <;> rfl

theorem exec_bind_ok (first : exec program s = (.ok value,t)) : exec (program >>= next) s = exec (next value) t := by
  rw [exec_bind,first]

theorem exec_bind_error (first : exec program s = (.error message,t)) :
    exec (program >>= next) s = (.error message,t) := by
  rw [exec_bind,first]

theorem exec_bind_pure (program : Program State α) (change : α → β) (s : State) :
    (exec (program >>= fun value => pure (change value)) s).2 = (exec program s).2 := by
  rw [exec_bind]
  rcases exec program s with ⟨message | value,t⟩ <;> rfl

variable {Entry : Type} {log : State → List Entry} {pre : State → Prop} {mid : α → List Entry → State → Prop}
  {post : β → List Entry → State → Prop}

-- From a state in `pre` the program ends without a panic, having added entries
-- to the log; `post` speaks of its value, of what it added and of its last state.
def Ensures (log : State → List Entry) (pre : State → Prop) (program : Program State α)
    (post : α → List Entry → State → Prop) : Prop :=
  ∀ s, pre s → ∃ value t added, exec program s = (.ok value,t) ∧ log t = log s ++ added ∧ post value added t

theorem ensures_pure {value : β} (holds : ∀ s, pre s → post value [] s) : Ensures log pre (pure value) post :=
  fun s given => ⟨value,s,[],rfl,(List.append_nil _).symm,holds s given⟩

theorem ensures_bind (first : Ensures log pre program mid)
    (rest : ∀ value added, Ensures log (mid value added) (next value) fun result more => post result (added ++ more)) :
    Ensures log pre (program >>= next) post := by
  intro s given
  obtain ⟨value,m,added,ran,logged,between⟩ := first s given
  obtain ⟨result,t,more,ended,extended,holds⟩ := rest value added m between
  refine ⟨result,t,added ++ more,(exec_bind_ok ran).trans ended,?_,holds⟩
  rw [extended,logged,List.append_assoc]

theorem ensures_modifyGet {change : State → β × State} (logged : ∀ s, pre s → log (change s).2 = log s)
    (holds : ∀ s, pre s → post (change s).1 [] (change s).2) : Ensures log pre (modifyGet change) post :=
  fun s given => ⟨_,_,[],rfl,(logged s given).trans (List.append_nil _).symm,holds s given⟩

-- Stays in `pre`; `fact` speaks of its value and of what it added.
def Adds (log : State → List Entry) (pre : State → Prop) (program : Program State α) (fact : α → List Entry → Prop) : Prop :=
  Ensures log pre program fun value added t => fact value added ∧ pre t

abbrev Silent (log : State → List Entry) (pre : State → Prop) (program : Program State α) : Prop :=
  Adds log pre program fun _ added => added = []

theorem adds_bind {fact : α → List Entry → Prop} (first : Adds log pre program fact)
    (rest : ∀ value added, fact value added → Ensures log pre (next value) fun result more => post result (added ++ more)) :
    Ensures log pre (program >>= next) post := by
  apply ensures_bind first
  intro value added s between
  obtain ⟨known,given⟩ := between
  exact rest value added known s given

theorem silent_bind (first : Silent log pre program) (rest : ∀ value, Ensures log pre (next value) post) :
    Ensures log pre (program >>= next) post := by
  apply adds_bind first
  intro value added none
  subst none
  exact rest value

theorem adds_pure {fact : β → List Entry → Prop} (known : fact value []) : Adds log pre (pure value) fact :=
  ensures_pure fun _ given => ⟨known,given⟩

theorem silent_modifyGet {change : State → α × State} (logged : ∀ s, pre s → log (change s).2 = log s)
    (kept : ∀ s, pre s → pre (change s).2) : Silent log pre (modifyGet change) :=
  ensures_modifyGet logged fun s given => ⟨rfl,kept s given⟩

-- The state read is the one the rest starts from.
theorem ensures_get {next : State → Program State β} (rest : ∀ now, pre now → Ensures log pre (next now) post) :
    Ensures log pre (get >>= next) post :=
  fun s given => rest s given s given

theorem Ensures.weaken {weaker : α → List Entry → State → Prop} {stronger : State → Prop}
    (ensures : Ensures log pre program mid) (before : ∀ s, stronger s → pre s)
    (after : ∀ value added t, mid value added t → weaker value added t) : Ensures log stronger program weaker := by
  intro s given
  obtain ⟨value,t,added,ran,logged,holds⟩ := ensures s (before s given)
  exact ⟨value,t,added,ran,logged,after value added t holds⟩

-- Whatever the program comes to, the view of the state stays the same.
def Keeps (view : State → Viewed) (program : Program State α) : Prop := ∀ s, view (exec program s).2 = view s

variable {Viewed : Type} {view : State → Viewed}

theorem keeps_pure (value : α) : Keeps view (pure value : Program State α) := fun _ => rfl

theorem keeps_bind (first : Keeps view program) (rest : ∀ value, Keeps view (next value)) : Keeps view (program >>= next) := by
  intro s
  have kept := first s
  rcases ran : exec program s with ⟨message | value,m⟩
  · rw [exec_bind_error ran]
    rwa [ran] at kept
  · rw [exec_bind_ok ran,rest value m]
    rwa [ran] at kept

theorem keeps_get {next : State → Program State β} (rest : ∀ now, Keeps view (next now)) : Keeps view (get >>= next) :=
  keeps_bind (fun _ => rfl) rest

theorem keeps_expecting (message : String) (value : Option α) : Keeps view (expecting message value : Program State α) := by
  intro s
  cases value with
  | none => rfl
  | some value => rfl

end Quire.Panicking
