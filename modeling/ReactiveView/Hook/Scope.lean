import ReactiveView.Hook.Executor
import ReactiveView.Hook.Registry

namespace ReactiveView

variable {ω : Type} {α : Type}

structure Scope (ω : Type) where
  registry : Registry
  store : Store ω

namespace Scope

def slot (s : Scope ω) (initial : Datum) : CellId × Scope ω :=
  let (cell, cells, registry) := s.registry.next s.store.cells initial
  (cell, ⟨registry, { s.store with cells }⟩)

def useState (s : Scope ω) (initial : Datum) : Datum × Setter × Scope ω :=
  let (cell, s) := s.slot initial
  (s.store.cells.read cell, ⟨cell⟩, s)

def useRef (s : Scope ω) (initial : Datum) : Ref × Scope ω :=
  let (cell, s) := s.slot initial
  (⟨cell⟩, s)

/-- Whether the content of a cell is something else than having run for `deps`. -/
def depsChanged (content : Datum) (deps : Value) : Bool :=
  match content with
  | .deps (some old) => !(old == deps)
  | _ => true

/-- Leave an effect for after the pass if its dependencies differ from those it was last left
for, or if it never was. -/
def useEffect (s : Scope ω) (deps : Value) (effect : Program ω .sync) : Scope ω :=
  let (cell, s) := s.slot (.deps none)
  if depsChanged (s.store.cells.read cell) deps then
    { s with store := { s.store with
        cells := s.store.cells.write cell (.deps (some deps))
        scheduler := s.store.scheduler.defer effect } }
  else s

/-- The same for an asynchronous effect. While another one is in flight it is dropped and its
dependencies are not recorded, so that a later pass can leave it. -/
def useEffectAsync (s : Scope ω) (deps : Value) (effect : Program ω .async) : Scope ω :=
  let (cell, s) := s.slot (.deps none)
  if depsChanged (s.store.cells.read cell) deps then
    match s.store.scheduler.beginAsync with
    | (false, scheduler) => { s with store := { s.store with scheduler } }
    | (true, scheduler) =>
      { s with store := { s.store with
          cells := s.store.cells.write cell (.deps (some deps))
          scheduler := scheduler.deferAsync effect } }
  else s

def makeHandler (s : Scope ω) (react : Reaction ω) : Handler ω × Scope ω :=
  let (handler, store) := s.store.makeHandler react
  (handler, { s with store })

end Scope

/-- What a component does while it is described, with what it results in. Every hook takes the next
slot of the active bucket, so a component has to call its hooks in one order; this is not checked.
-/
inductive Describe (ω : Type) (α : Type) where
  | done (result : α)
  | state (initial : Datum) (next : Datum → Setter → Describe ω α)
  | ref (initial : Datum) (next : Ref → Describe ω α)
  | effect (deps : Value) (effect : Program ω .sync) (next : Describe ω α)
  | effectAsync (deps : Value) (effect : Program ω .async) (next : Describe ω α)
  | handler (react : Reaction ω) (next : Handler ω → Describe ω α)
  | reuse (id : HandlerId) (next : Option (Handler ω) → Describe ω α)
  | look (next : View ω → Describe ω α)
  | act (program : Program ω .sync) (next : Describe ω α)

def Describe.run : Describe ω α → Scope ω → α × Scope ω
  | done result, s => (result, s)
  | state initial next, s =>
    let (content, setter, s) := s.useState initial
    (next content setter).run s
  | ref initial next, s =>
    let (cell, s) := s.useRef initial
    (next cell).run s
  | effect deps program next, s => next.run (s.useEffect deps program)
  | effectAsync deps program next, s => next.run (s.useEffectAsync deps program)
  | handler react next, s =>
    let (made, s) := s.makeHandler react
    (next made).run s
  | reuse id next, s => (next (s.store.handler? id)).run s
  | look next, s => (next s.store.view).run s
  | act program next, s => next.run { s with store := program.run s.store }

end ReactiveView
