namespace Quire.Traced

-- A value and the commands issued on the way to it, first one first.
structure Traced (Command α : Type) where
  commands : List Command
  value : α

instance : Monad (Traced Command) where
  pure value := ⟨[],value⟩
  bind first next := ⟨first.commands ++ (next first.value).commands,(next first.value).value⟩

def issue (command : Command) (value : α) : Traced Command α := ⟨[command],value⟩

-- The `?` operator on an optional value.
def Traced.orReturn (first : Traced Command (Option α)) (next : α → Traced Command (Option β)) :
    Traced Command (Option β) :=
  first >>= fun
    | some value => next value
    | none => pure none

def each (items : List α) (body : α → Traced Command β) : Traced Command (List β) :=
  match items with
  | [] => pure []
  | item :: rest => do
    let value ← body item
    let values ← each rest body
    return value :: values

def Always (holds : Command → Prop) (traced : Traced Command α) : Prop := ∀ command ∈ traced.commands, holds command

variable {Command α β : Type} {holds : Command → Prop}

@[simp] theorem pure_value (value : α) : (pure value : Traced Command α).value = value := rfl
@[simp] theorem bind_value (first : Traced Command α) (next : α → Traced Command β) :
    (first >>= next).value = (next first.value).value := rfl
@[simp] theorem issue_value (command : Command) (value : α) : (issue command value).value = value := rfl
@[simp] theorem pure_commands (value : α) : (pure value : Traced Command α).commands = [] := rfl
@[simp] theorem bind_commands (first : Traced Command α) (next : α → Traced Command β) :
    (first >>= next).commands = first.commands ++ (next first.value).commands := rfl
@[simp] theorem issue_commands (command : Command) (value : α) : (issue command value).commands = [command] := rfl

@[simp] theorem always_pure (value : α) : Always holds (pure value : Traced Command α) :=
  fun _ member => nomatch member

@[simp] theorem always_issue (command : Command) (value : α) : Always holds (issue command value) ↔ holds command := by
  simp [Always,issue]

@[simp] theorem always_bind (first : Traced Command α) (next : α → Traced Command β) :
    Always holds (first >>= next) ↔ Always holds first ∧ Always holds (next first.value) := by
  simp only [Always,bind,List.mem_append]
  exact ⟨fun all => ⟨fun c member => all c (.inl member),fun c member => all c (.inr member)⟩,
    fun ⟨left,right⟩ c member => member.elim (left c) (right c)⟩

theorem always_orReturn (first : Traced Command (Option α)) (next : α → Traced Command (Option β)) :
    Always holds (first.orReturn next) ↔
      Always holds first ∧ ∀ value, first.value = some value → Always holds (next value) := by
  rw [Traced.orReturn,always_bind]
  apply and_congr_right
  intro _
  cases first.value <;> simp

theorem orReturn_value (first : Traced Command (Option α)) (next : α → Traced Command (Option β)) :
    (first.orReturn next).value = first.value.bind fun value => (next value).value := by
  rw [Traced.orReturn,bind_value]
  cases first.value <;> rfl

theorem always_each (items : List α) (body : α → Traced Command β) :
    Always holds (each items body) ↔ ∀ item ∈ items, Always holds (body item) := by
  induction items with
  | nil => simp [each]
  | cons item rest ih => simp [each,ih]

theorem each_value (items : List α) (body : α → Traced Command β) :
    (each items body).value = items.map fun item => (body item).value := by
  induction items with
  | nil => rfl
  | cons item rest ih => simp [each,ih]

end Quire.Traced
