import ReactiveView.Proofs.Hook.Slots
import ReactiveView.Proofs.Render.History

namespace ReactiveView

variable {ω : Type}

namespace PassStep

def replay : PassStep ω → Scope ω → Scope ω
  | load key, s => { s with registry := s.registry.load key }
  | clean, s => { s with registry := s.registry.clean }
  | describe d, s => (d.run s).2

def events : PassStep ω → Scope ω → List (SlotEvent ω)
  | load _, _ => []
  | clean, s => [.cleaned s.registry.active]
  | describe d, s => .described s.registry.active :: (d.calls s).map .called

def replayAll (steps : List (PassStep ω)) (s : Scope ω) : Scope ω :=
  steps.foldl (fun s step => step.replay s) s

theorem replayAll_append (steps steps' : List (PassStep ω)) (s : Scope ω) :
    replayAll (steps ++ steps') s = replayAll steps' (replayAll steps s) := List.foldl_append

def eventsOf : List (PassStep ω) → Scope ω → List (SlotEvent ω)
  | [], _ => []
  | step :: rest, s => step.events s ++ eventsOf rest (step.replay s)

theorem arises_replay {events : List (SlotEvent ω)} {s : Scope ω} (h : s.Arises events)
    (step : PassStep ω) : (step.replay s).Arises (events ++ step.events s) := by
  cases step with
  | load key =>
    rw [PassStep.events, List.append_nil]
    exact h.load key
  | clean => exact h.clean
  | describe d =>
    rw [PassStep.events, List.append_cons]
    exact h.describe.run d

theorem arises_replayAll (steps : List (PassStep ω)) {events : List (SlotEvent ω)} {s : Scope ω}
    (h : s.Arises events) : (replayAll steps s).Arises (events ++ eventsOf steps s) := by
  induction steps generalizing events s with
  | nil =>
    rw [eventsOf, List.append_nil]
    exact h
  | cons step rest ih =>
    rw [eventsOf, ← List.append_assoc]
    exact ih (arises_replay h step)

end PassStep

theorem Pass.lasting_replayed : Pass.Lasting fun s s' : PassState ω =>
    ∃ steps, s'.steps = s.steps ++ steps ∧ s'.scope = PassStep.replayAll steps s.scope where
  refl := fun s => ⟨[], (List.append_nil _).symm, rfl⟩
  trans := by
    rintro s s' s'' ⟨steps, hsteps, hscope⟩ ⟨steps', hsteps', hscope'⟩
    refine ⟨steps ++ steps', ?_, ?_⟩
    · rw [hsteps', hsteps, List.append_assoc]
    · rw [hscope', hscope, PassStep.replayAll_append]
  load := fun key _ => ⟨[.load key], rfl, rfl⟩
  clean := fun _ => ⟨[.clean], rfl, rfl⟩
  describe := fun d _ => ⟨[.describe d], rfl, rfl⟩
  template := fun _ _ _ _ => ⟨[], (List.append_nil _).symm, rfl⟩

namespace Session

theorem scope_pass (s : Session ω) :
    s.pass.2.scope = PassStep.replayAll s.pass.2.steps ⟨s.registry.reset, s.store⟩ := by
  obtain ⟨steps, hsteps, hscope⟩ := Pass.lasting_replayed.mount s.app.library
    s.app.options.nestingLimit 0 s.app.root Dict.empty ⟨⟨s.registry.reset, s.store⟩, s.cache, []⟩
  have hpass : s.pass.2.steps = steps := hsteps
  rw [hpass]
  exact hscope

def slotEvents (s : Session ω) : List (SlotEvent ω) :=
  PassStep.eventsOf s.pass.2.steps ⟨s.registry.reset, s.store⟩

/-- What happens to the slots in all passes of a session that is mounted and taken through steps. -/
def trace (app : Application ω) (host : ω) (actions : List (Action ω)) : List (SlotEvent ω) :=
  (history app host actions).flatMap slotEvents

/-- A session whose slots come about by events. -/
def Arises (events : List (SlotEvent ω)) (s : Session ω) : Prop :=
  Scope.Arises events ⟨s.registry, s.store⟩

namespace Arises

variable {before : List (SlotEvent ω)} {s : Session ω}

theorem expand (h : Arises before s) : Arises (before ++ s.slotEvents) s.expand.2 := by
  -- Replaying the recorded steps is what the pass does to the scope.
  have hlast := PassStep.arises_replayAll s.pass.2.steps (Scope.Arises.reset h)
  rw [← scope_pass] at hlast
  exact hlast

theorem rerender (h : Arises before s) : Arises (before ++ s.slotEvents) s.rerender.2 := by
  cases he : s.expand.1 with
  | error e =>
    rw [rerender_of_error he]
    exact h.expand
  | ok next =>
    rw [rerender_of_ok he]
    exact h.expand

theorem runEffects (h : Arises before s) : Arises before s.runEffects.2 := by
  apply Scope.Arises.store h
  exact Cells.Grown.trans (Store.lasting_grown.runEffects (fun _ => .refl _) s.store)
    (Store.lasting_grown.drain (fun _ => .refl _) (fun _ => .refl _) s.executor _)

theorem taken (h : Arises before s) : Arises before s.taken := Scope.Arises.store h (.refl _)

theorem tick (h : Arises before s) :
    Arises (before ++ s.passOfTick.flatMap slotEvents) s.tick.2 := by
  rw [snd_tick, passOfTick]
  cases hp : s.store.scheduler.renderPending with
  | false =>
    rw [renderPending_of_idle hp, if_neg Bool.false_ne_true, List.flatMap_nil, List.append_nil]
    exact h.runEffects
  | true =>
    rw [renderPending_of_pending hp, if_pos rfl, List.flatMap_singleton]
    exact h.taken.rerender.runEffects

theorem runTurns (turns : Nat) (h : Arises before s) :
    Arises (before ++ (passesOfTurns turns s).flatMap slotEvents) (Session.runTurns turns s).2 := by
  induction turns generalizing before s with
  | zero =>
    rw [passesOfTurns, List.flatMap_nil, List.append_nil]
    exact h
  | succ turns ih =>
    have htick := h.tick
    rw [passesOfTurns, List.flatMap_append, ← List.append_assoc]
    simp only [Session.runTurns]
    rcases ht : s.tick with ⟨e | _ | _, s'⟩ <;> rw [ht] at htick
    · simpa using htick
    · simpa using htick
    · exact ih htick

theorem perform (h : Arises before s) (a : Action ω) :
    Arises (before ++ (a.passes s).flatMap slotEvents) (a.perform s) := by
  have hstill : ∀ store : Store ω, s.store.cells.Grown store.cells →
      Scope.Arises (before ++ []) ⟨s.registry, store⟩ := by
    intro store hg
    rw [List.append_nil]
    exact Scope.Arises.store h hg
  cases a with
  | rerender =>
    rw [Action.passes, List.flatMap_singleton]
    exact h.rerender
  | tick => exact h.tick
  | runUntilIdle => exact h.runTurns _
  | request => exact hstill _ (.refl _)
  | dispatch target event =>
    apply hstill _ (Store.lasting_grown.foldl (fun store id => ?_) _ _)
    split
    · exact Store.lasting_grown.run _ _
    · exact .refl _
  | act program => exact hstill _ (Store.lasting_grown.run program s.store)
  | openGate gate => exact hstill _ (.refl _)
  | alter change => exact hstill _ (.refl _)

theorem performAll (actions : List (Action ω)) (h : Arises before s) :
    Arises (before ++ (passesOf actions s).flatMap slotEvents) (Session.performAll actions s) := by
  induction actions generalizing before s with
  | nil =>
    rw [passesOf, List.flatMap_nil, List.append_nil]
    exact h
  | cons a actions ih =>
    rw [passesOf, List.flatMap_append, ← List.append_assoc]
    exact ih (h.perform a)

end Arises

theorem arises_trace (app : Application ω) (host : ω) (actions : List (Action ω)) :
    Arises (trace app host actions) (run app host actions).1 := by
  have hstart : Arises [] (start app host) := Scope.Arises.start host
  rw [run_eq, trace, history, List.flatMap_cons]
  exact hstart.rerender.performAll actions

end Session

end ReactiveView
