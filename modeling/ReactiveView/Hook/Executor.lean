import ReactiveView.Hook.Store

namespace ReactiveView

variable {ω : Type}

/-- The started effects that are ready to run and those that wait, with the gates that have been
opened. A gate that is opened stays open. -/
structure Executor (ω : Type) where
  ready : List (Program ω .async)
  waiting : List (String × Program ω .async)
  opened : List String

namespace Executor

def empty : Executor ω := ⟨[], [], []⟩

def spawn (e : Executor ω) (effects : List (Program ω .async)) : Executor ω :=
  { e with ready := e.ready ++ effects }

def openGate (e : Executor ω) (gate : String) : Executor ω :=
  { ready := e.ready ++ (e.waiting.filter (·.1 = gate)).map (·.2)
    waiting := e.waiting.filter (·.1 ≠ gate)
    opened := if gate ∈ e.opened then e.opened else gate :: e.opened }

/-- Run one effect as far as it goes. When it ends, asynchronous work may be started again. -/
def turn (e : Executor ω) (s : Store ω) (effect : Program ω .async) : Executor ω × Store ω :=
  match effect.advance e.opened s with
  | (some wait, s) => ({ e with waiting := e.waiting ++ [wait] }, s)
  | (none, s) => (e, { s with scheduler := s.scheduler.endAsync })

def run (e : Executor ω) (s : Store ω) : Executor ω × Store ω :=
  e.ready.foldl (fun r effect => r.1.turn r.2 effect) ({ e with ready := [] }, s)

/-- Take the asynchronous effects that were left, start them and run what is ready. The answer is
how many there were. -/
def drain (e : Executor ω) (s : Store ω) : Nat × Executor ω × Store ω :=
  let (effects, scheduler) := s.scheduler.takeAsync
  (effects.length, (e.spawn effects).run { s with scheduler })

end Executor

end ReactiveView
