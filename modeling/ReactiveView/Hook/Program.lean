import ReactiveView.Event
import ReactiveView.Hook.Cells

namespace ReactiveView

/-- The handle by which the state of a component is read and set. -/
structure Setter where
  cell : CellId
  deriving DecidableEq, Repr

/-- The handle of a cell that is written without asking for a pass. -/
structure Ref where
  cell : CellId
  deriving DecidableEq, Repr

structure View (ω : Type) where
  cells : Cells
  renderPending : Bool
  asyncInFlight : Bool
  host : ω

/-- Whether a program may wait. -/
inductive Mode where
  | sync
  | async
  deriving DecidableEq, Repr

/-- A program of a handler or an effect. The host, of type `ω`, is the world outside of the
components. -/
inductive Program (ω : Type) : Mode → Type where
  | done {m : Mode} : Program ω m
  | look {m : Mode} (next : View ω → Program ω m) : Program ω m
  | alter {m : Mode} (change : ω → ω) (next : Program ω m) : Program ω m
  /-- Set a state; if that changes it, a pass is requested. -/
  | set {m : Mode} (state : Setter) (content : Datum) (next : Program ω m) : Program ω m
  | put {m : Mode} (ref : Ref) (content : Datum) (next : Program ω m) : Program ω m
  | request {m : Mode} (next : Program ω m) : Program ω m
  | defer {m : Mode} (effect : Program ω .sync) (next : Program ω m) : Program ω m
  /-- Leave an asynchronous effect for after the pass. -/
  | deferAsync {m : Mode} (effect : Program ω .async) (next : Program ω m) : Program ω m
  | await (gate : String) (next : Program ω .async) : Program ω .async

namespace Program

variable {ω : Type} {m : Mode}

def follow {k : Mode} : Program ω k → k = .sync → Program ω m → Program ω m
  | done, _, q => q
  | look next, h, q => look fun v => (next v).follow h q
  | alter change next, h, q => alter change (next.follow h q)
  | set state content next, h, q => set state content (next.follow h q)
  | put ref content next, h, q => put ref content (next.follow h q)
  | request next, h, q => request (next.follow h q)
  | defer effect next, h, q => defer effect (next.follow h q)
  | deferAsync effect next, h, q => deferAsync effect (next.follow h q)
  | await _ _, h, _ => nomatch h

def andThen (p : Program ω .sync) (q : Program ω m) : Program ω m := p.follow rfl q

def update (state : Setter) (f : Datum → Datum) (next : Program ω m) : Program ω m :=
  look fun v => set state (f (v.cells.read state.cell)) next

end Program

abbrev Reaction (ω : Type) := Event → Program ω .sync

structure Handler (ω : Type) where
  id : HandlerId
  react : Reaction ω

end ReactiveView
