import Mathlib.Logic.Basic
import Quire.Text

namespace Quire.Telemetry
open Text
variable {Kind : Type} [DecidableEq Kind]

-- tracing::Level, the more verbose the greater.
inductive Level where
  | error
  | warn
  | info
  | debug
  | trace
  deriving DecidableEq, Repr

def Level.verbosity : Level → Nat
  | .error => 0
  | .warn => 1
  | .info => 2
  | .debug => 3
  | .trace => 4

-- One error of a source chain, by its concrete type and what miette makes of it.
structure Cause (Kind : Type) where
  kind : Kind
  report : Option String
  deriving DecidableEq, Repr

inductive Field (Kind : Type) where
  | error (chain : List (Cause Kind))
  | other
  deriving DecidableEq, Repr

structure MietteLayer (Kind : Type) where
  renderers : List Kind

-- The renderer of one registered type.
def renderAt (kind : Kind) : List (Cause Kind) → Option String
  | [] => none
  | cause :: source =>
    match if cause.kind = kind then cause.report.filter (fun buf => trim buf ≠ "") else none with
    | some buf => some buf
    | none => renderAt kind source

def MietteLayer.tryRender (self : MietteLayer Kind) (chain : List (Cause Kind)) : Option String :=
  self.renderers.findSome? (renderAt · chain)

-- `ErrorVisitor`, over the rendering in the cell.
def MietteLayer.visit (self : MietteLayer Kind) (cell : Option String) : Field Kind → Option String
  | .error chain =>
    match self.tryRender chain with
    | some rendered => some rendered
    | none => cell
  | .other => cell

-- What one field puts into the cell.
def MietteLayer.rendered (self : MietteLayer Kind) : Field Kind → Option String
  | .error chain => self.tryRender chain
  | .other => none

-- What the thread's cell holds after the event, whatever it held before.
def MietteLayer.onEvent (self : MietteLayer Kind) (level : Level) (fields : List (Field Kind)) : Option String :=
  if Level.warn.verbosity < level.verbosity then none else fields.foldl self.visit none

-- A captured event, by what its `extra` holds of a diagnostic.
structure Captured where
  diagnostic : Option String
  deriving DecidableEq, Repr

-- The event that is sent, and the cell after it.
def beforeSend (cell : Option String) (event : Captured) : Captured × Option String :=
  match cell with
  | some rendered => ({ event with diagnostic := some rendered },none)
  | none => (event,none)

inductive Step (Kind : Type) where
  | event (level : Level) (fields : List (Field Kind))
  | capture
  deriving DecidableEq, Repr

-- An ERROR event is captured behind `onEvent`, a panic without any event.
def take (layer : MietteLayer Kind) (cell : Option String) : Step Kind → Option Captured × Option String
  | .event level fields =>
    let cell := layer.onEvent level fields
    if level = .error then
      let (sent,cell) := beforeSend cell ⟨none⟩
      (some sent,cell)
    else (none,cell)
  | .capture =>
    let (sent,cell) := beforeSend cell ⟨none⟩
    (some sent,cell)

-- What a thread sends, each with the step that it is captured in.
def sends (layer : MietteLayer Kind) (cell : Option String) : List (Step Kind) → List (Step Kind × Captured)
  | [] => []
  | step :: rest =>
    let (sent,cell) := take layer cell step
    (sent.toList.map fun event => (step,event)) ++ sends layer cell rest

def Renders (layer : MietteLayer Kind) (fields : List (Field Kind)) (text : String) : Prop :=
  ∃ chain, .error chain ∈ fields ∧ layer.tryRender chain = some text

-- The diagnostic of a sent event is its own.
def Own (layer : MietteLayer Kind) : Step Kind × Captured → Prop
  | (.event .error fields,sent) => (sent.diagnostic ≠ none ↔ ∃ text, Renders layer fields text) ∧
      ∀ text, sent.diagnostic = some text → Renders layer fields text
  | (_,sent) => sent.diagnostic = none

-- A panic is captured right behind a warning whose error was rendered.
def Behind (layer : MietteLayer Kind) (steps : List (Step Kind)) : Prop :=
  ∃ front fields rest text, steps = front ++ .event .warn fields :: .capture :: rest ∧ Renders layer fields text

variable {layer : MietteLayer Kind} {cell : Option String} {fields : List (Field Kind)} {steps : List (Step Kind)}

theorem visit_or (cell : Option String) (field : Field Kind) : layer.visit cell field = (layer.rendered field).or cell := by
  cases field with
  | other => rfl
  | error chain => cases rendered : layer.tryRender chain <;> simp [MietteLayer.visit,MietteLayer.rendered,rendered]

theorem renders_cons (field : Field Kind) (fields : List (Field Kind)) (text : String) :
    Renders layer (field :: fields) text ↔ layer.rendered field = some text ∨ Renders layer fields text := by
  constructor
  · rintro ⟨chain,member,rendered⟩
    rcases List.mem_cons.mp member with rfl | later
    · exact .inl rendered
    · exact .inr ⟨chain,later,rendered⟩
  · rintro (own | ⟨chain,later,rendered⟩)
    · cases field with
      | other => cases own
      | error chain => exact ⟨chain,List.mem_cons_self,own⟩
    · exact ⟨chain,List.mem_cons_of_mem _ later,rendered⟩

-- A field that renders takes the place of what the cell held, and no other does.
theorem visits_none (cell : Option String) (fields : List (Field Kind)) :
    fields.foldl layer.visit cell = none ↔ cell = none ∧ ∀ text, ¬ Renders layer fields text := by
  induction fields generalizing cell with
  | nil => simp [Renders]
  | cons field fields ih =>
    have silent : layer.rendered field = none ↔ ∀ text, layer.rendered field ≠ some text := Option.eq_none_iff_forall_ne_some
    rw [List.foldl_cons,ih,visit_or,Option.or_eq_none_iff,silent]
    simp only [renders_cons,not_or,forall_and]
    exact ⟨fun ⟨⟨own,held⟩,later⟩ => ⟨held,own,later⟩,fun ⟨held,own,later⟩ => ⟨⟨own,held⟩,later⟩⟩

theorem visits_some (found : fields.foldl layer.visit cell = some text) : cell = some text ∨ Renders layer fields text := by
  induction fields generalizing cell with
  | nil => exact .inl found
  | cons field fields ih =>
    rw [renders_cons]
    rcases ih found with visited | later
    · rw [visit_or,Option.or_eq_some_iff] at visited
      rcases visited with own | ⟨_,held⟩
      · exact .inr (.inl own)
      · exact .inl held
    · exact .inr (.inr later)

theorem beforeSend_fresh (cell : Option String) : beforeSend cell ⟨none⟩ = (⟨cell⟩,none) := by
  cases cell <;> rfl

theorem take_error (cell : Option String) (fields : List (Field Kind)) :
    take layer cell (.event .error fields) = (some ⟨fields.foldl layer.visit none⟩,none) := by
  have visited : layer.onEvent .error fields = fields.foldl layer.visit none := rfl
  simp only [take,visited,beforeSend_fresh]
  rfl

theorem take_capture (cell : Option String) : take layer cell .capture = (some ⟨cell⟩,none) := by
  simp only [take,beforeSend_fresh]

-- A captured event shows the rendering of one of its own fields, or none.
theorem own_error (fields : List (Field Kind)) : Own layer (.event .error fields,⟨fields.foldl layer.visit none⟩) := by
  constructor
  · rw [ne_eq,visits_none,and_iff_right rfl,not_forall]
    exact exists_congr fun _ => not_not
  · intro text found
    rcases visits_some found with held | rendered
    · cases held
    · exact rendered

-- What a step sends is its own unless it is a panic, and what it leaves in the
-- cell does not depend on what was there.
theorem own_take (cell : Option String) (step : Step Kind) :
    (∀ sent ∈ (take layer cell step).1.toList.map fun event => (step,event), Own layer sent) ↔ (step = .capture → cell = none) := by
  cases step with
  | event level fields =>
    refine ⟨fun _ => nofun,fun _ sent member => ?_⟩
    cases level with
    | error =>
      rw [take_error] at member
      obtain rfl := List.mem_singleton.mp member
      exact own_error fields
    | warn | info | debug | trace => cases member
  | capture =>
    rw [take_capture]
    simp [Own]

theorem take_empty (cell : Option String) (step : Step Kind) :
    (take layer cell step).2 = none ↔ ¬ ∃ fields text, step = .event .warn fields ∧ Renders layer fields text := by
  cases step with
  | event level fields =>
    cases level with
    | warn =>
      have visited : (take layer cell (.event .warn fields)).2 = fields.foldl layer.visit none := rfl
      rw [visited,visits_none,and_iff_right rfl]
      constructor
      · rintro clear ⟨_,text,⟨⟩,renders⟩
        exact clear text renders
      · intro none text renders
        exact none ⟨fields,text,rfl,renders⟩
    | error =>
      rw [take_error]
      exact ⟨fun _ ⟨_,_,other,_⟩ => (nomatch other),fun _ => rfl⟩
    | info | debug | trace => exact ⟨fun _ ⟨_,_,other,_⟩ => (nomatch other),fun _ => rfl⟩
  | capture =>
    rw [take_capture]
    exact ⟨fun _ ⟨_,_,other,_⟩ => (nomatch other),fun _ => rfl⟩

theorem behind_cons (step : Step Kind) (steps : List (Step Kind)) : Behind layer (step :: steps) ↔
    (∃ fields rest text, step = .event .warn fields ∧ steps = .capture :: rest ∧ Renders layer fields text) ∨ Behind layer steps := by
  constructor
  · rintro ⟨front,fields,rest,text,shape,renders⟩
    cases front with
    | nil =>
      obtain ⟨rfl,rfl⟩ := List.cons_eq_cons.mp shape
      exact .inl ⟨fields,rest,text,rfl,rfl,renders⟩
    | cons first front =>
      obtain ⟨_,rfl⟩ := List.cons_eq_cons.mp shape
      exact .inr ⟨front,fields,rest,text,rfl,renders⟩
  · rintro (⟨fields,rest,text,rfl,rfl,renders⟩ | ⟨front,fields,rest,text,rfl,renders⟩)
    · exact ⟨[],fields,rest,text,rfl,renders⟩
    · exact ⟨step :: front,fields,rest,text,rfl,renders⟩

-- By induction on the steps: the cell is empty whenever a panic comes, unless a
-- warning was just before it.
theorem sends_own (cell : Option String) (steps : List (Step Kind)) : (∀ sent ∈ sends layer cell steps, Own layer sent) ↔
    (∀ rest, steps = .capture :: rest → cell = none) ∧ ¬ Behind layer steps := by
  induction steps generalizing cell with
  | nil =>
    have none : ¬ Behind layer [] := fun ⟨front,_,_,_,shape,_⟩ => by simp at shape
    simp [sends,none]
  | cons step steps ih =>
    rw [sends,List.forall_mem_append,own_take,ih,behind_cons,not_or,take_empty]
    constructor
    · rintro ⟨own,clear,later⟩
      refine ⟨fun _ shape => own (List.cons_eq_cons.mp shape).1,?_,later⟩
      rintro ⟨fields,rest,text,warned,next,renders⟩
      exact clear rest next ⟨fields,text,warned,renders⟩
    · rintro ⟨own,clear,later⟩
      refine ⟨fun panic => own steps (congrArg (· :: steps) panic),?_,later⟩
      rintro rest next ⟨fields,text,warned,renders⟩
      exact clear ⟨fields,rest,text,warned,next,renders⟩

-- `on_event` admits warnings, which `before_send` is not called for.
theorem sends_own_iff (layer : MietteLayer Kind) (steps : List (Step Kind)) :
    (∀ sent ∈ sends layer none steps, Own layer sent) ↔ ¬ Behind layer steps := by
  rw [sends_own,and_iff_right fun _ _ => rfl]

-- A warning about a repository's configuration, and then a panic of its page.
theorem panic_shows_warning :
    sends ⟨["fennel"]⟩ none [.event .warn [.other,.error [⟨"quire",none⟩,⟨"fennel",some "bad config"⟩]],.capture] =
      [(.capture,⟨some "bad config"⟩)] ∧ ¬ Own ⟨["fennel"]⟩ (.capture,⟨some "bad config"⟩) :=
  ⟨by decide,nofun⟩

end Quire.Telemetry
