import ReactiveView.Hook.Program

namespace ReactiveView

variable {ω : Type}

structure Scheduler (ω : Type) where
  renderPending : Bool
  /-- How many passes have been requested since the start, those that fell together counted
  once. -/
  rendersScheduled : Nat
  effects : List (Program ω .sync)
  asyncEffects : List (Program ω .async)
  /-- An asynchronous effect was started and has not come to its end. -/
  asyncInFlight : Bool

namespace Scheduler

def idle : Scheduler ω := ⟨false, 0, [], [], false⟩

/-- Request a pass; the answer is whether none was requested yet. -/
def request (s : Scheduler ω) : Bool × Scheduler ω :=
  if s.renderPending then (false, s)
  else (true, { s with renderPending := true, rendersScheduled := s.rendersScheduled + 1 })

def takeRender (s : Scheduler ω) : Bool × Scheduler ω :=
  (s.renderPending, { s with renderPending := false })

def defer (s : Scheduler ω) (effect : Program ω .sync) : Scheduler ω :=
  { s with effects := s.effects ++ [effect] }

def takeEffects (s : Scheduler ω) : List (Program ω .sync) × Scheduler ω :=
  (s.effects, { s with effects := [] })

/-- Claim the right to start an asynchronous effect; the answer is whether it was free. -/
def beginAsync (s : Scheduler ω) : Bool × Scheduler ω :=
  (!s.asyncInFlight, { s with asyncInFlight := true })

def deferAsync (s : Scheduler ω) (effect : Program ω .async) : Scheduler ω :=
  { s with asyncEffects := s.asyncEffects ++ [effect] }

def takeAsync (s : Scheduler ω) : List (Program ω .async) × Scheduler ω :=
  (s.asyncEffects, { s with asyncEffects := [] })

def endAsync (s : Scheduler ω) : Scheduler ω := { s with asyncInFlight := false }

def hasWork (s : Scheduler ω) : Bool :=
  s.renderPending || !s.effects.isEmpty || !s.asyncEffects.isEmpty

def diagnostic (s : Scheduler ω) : String :=
  "Scheduler \x7b render_pending: " ++ toString s.renderPending ++
    ", effects: " ++ toString s.effects.length ++
    ", async_effects: " ++ toString s.asyncEffects.length ++
    ", async_in_flight: " ++ toString s.asyncInFlight ++ " \x7d"

end Scheduler

end ReactiveView
