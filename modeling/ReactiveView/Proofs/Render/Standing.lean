import Mathlib.Data.List.Induction
import ReactiveView.Proofs.Hook.Requests
import ReactiveView.Proofs.Render.Lasting
import ReactiveView.Proofs.Tree.Hearing
import ReactiveView.Proofs.Tree.Mirror
import ReactiveView.Render.Session

namespace ReactiveView

variable {ω : Type}

theorem Pass.lasting_asked : Pass.Lasting fun s s' : PassState ω =>
    s.scope.store.scheduler.Asked s'.scope.store.scheduler where
  refl := fun _ => .of_eq rfl rfl
  trans := fun h h' => h.trans h'
  load := fun _ _ => .of_eq rfl rfl
  clean := fun _ => .of_eq rfl rfl
  describe := fun d s => Scope.lasting_asked.describe d s.scope
  template := fun _ _ _ _ => .of_eq rfl rfl

namespace Session

variable {s s' s'' : Session ω} {trees : List VirtualTree}

structure Unmoved (s s' : Session ω) : Prop where
  surface_eq : s'.surface = s.surface
  tree_eq : s'.tree = s.tree
  events_eq : s'.events = s.events
  passes_eq : s'.passes = s.passes

namespace Unmoved

theorem trans (h : Unmoved s s') (h' : Unmoved s' s'') : Unmoved s s'' where
  surface_eq := h'.surface_eq.trans h.surface_eq
  tree_eq := h'.tree_eq.trans h.tree_eq
  events_eq := h'.events_eq.trans h.events_eq
  passes_eq := h'.passes_eq.trans h.passes_eq

end Unmoved

theorem unmoved_expand (s : Session ω) : Unmoved s s.expand.2 := ⟨rfl, rfl, rfl, rfl⟩

theorem unmoved_runEffects (s : Session ω) : Unmoved s s.runEffects.2 := ⟨rfl, rfl, rfl, rfl⟩

theorem asked_expand (s : Session ω) :
    s.store.scheduler.Asked s.expand.2.store.scheduler :=
  Pass.lasting_asked.mount s.app.library s.app.options.nestingLimit 0 s.app.root Dict.empty
    ⟨⟨s.registry.reset, s.store⟩, s.cache, []⟩

theorem asked_runEffects (s : Session ω) :
    s.store.scheduler.Asked s.runEffects.2.store.scheduler :=
  Scheduler.Asked.trans (Store.lasting_asked.runEffects (fun _ => .of_eq rfl rfl) s.store)
    (Store.lasting_asked.drain (fun _ => .of_eq rfl rfl) (fun _ => .of_eq rfl rfl) s.executor _)

def taken (s : Session ω) : Session ω :=
  { s with store := { s.store with scheduler := s.store.scheduler.takeRender.2 } }

theorem rerender_of_ok {next : VirtualTree} (h : s.expand.1 = .ok next) :
    s.rerender = (.ok (), s.expand.2.present next) := by
  unfold rerender
  generalize s.expand = r at h
  obtain ⟨_, s'⟩ := r
  cases h
  rfl

theorem rerender_of_error {e : RenderError} (h : s.expand.1 = .error e) :
    s.rerender = (.error e, s.expand.2) := by
  unfold rerender
  generalize s.expand = r at h
  obtain ⟨_, s'⟩ := r
  cases h
  rfl

theorem unmoved_rerender {e : RenderError} (h : s.rerender.1 = .error e) : Unmoved s s.rerender.2 := by
  cases hx : s.expand.1 with
  | error e' =>
    rw [rerender_of_error hx]
    exact s.unmoved_expand
  | ok next =>
    rw [rerender_of_ok hx] at h
    cases h

theorem renderPending_of_idle (h : s.store.scheduler.renderPending = false) :
    s.renderPending = (.ok false, s) := by
  simp only [renderPending, Scheduler.takeRender, h]

theorem renderPending_of_pending (h : s.store.scheduler.renderPending = true) :
    s.renderPending = (s.taken.rerender.1.map fun _ => true, s.taken.rerender.2) := by
  simp only [renderPending, Scheduler.takeRender, h, taken]

theorem fst_tick (s : Session ω) :
    s.tick.1 = s.renderPending.1.map fun pending => pending || s.renderPending.2.runEffects.1 != 0 := rfl

theorem snd_tick (s : Session ω) : s.tick.2 = s.renderPending.2.runEffects.2 := rfl

theorem rerender_of_tick_error {e : RenderError} (h : s.tick.1 = .error e) :
    s.store.scheduler.renderPending = true ∧ s.taken.rerender.1 = .error e ∧
      s.tick.2 = s.taken.rerender.2.runEffects.2 := by
  rw [fst_tick] at h
  cases hp : s.store.scheduler.renderPending with
  | false =>
    rw [renderPending_of_idle hp] at h
    cases h
  | true =>
    rw [snd_tick, renderPending_of_pending hp]
    rw [renderPending_of_pending hp] at h
    refine ⟨rfl, ?_, rfl⟩
    cases hr : s.taken.rerender.1 with
    | error e' =>
      rw [hr] at h
      cases h
      rfl
    | ok u =>
      rw [hr] at h
      cases h

/-- What a turn whose pass failed leaves: nothing that is shown has changed, and a pass is pending
only if one was requested after the turn took its request. -/
structure Overcome (s s' : Session ω) : Prop where
  unmoved : Unmoved s s'
  pending_iff : s'.store.scheduler.renderPending = true ↔
    s.store.scheduler.rendersScheduled < s'.store.scheduler.rendersScheduled

theorem overcome_tick {e : RenderError} (h : s.tick.1 = .error e) : Overcome s s.tick.2 := by
  obtain ⟨-, hr, ht⟩ := rerender_of_tick_error h
  have htaken : Unmoved s s.taken := ⟨rfl, rfl, rfl, rfl⟩
  cases hx : s.taken.expand.1 with
  | error e' =>
    have hstore := (asked_expand s.taken).trans (asked_runEffects s.taken.expand.2)
    rw [ht, rerender_of_error hx]
    refine ⟨(htaken.trans (unmoved_expand _)).trans (unmoved_runEffects _), ?_⟩
    rw [hstore.pending_iff]
    simp [taken, Scheduler.takeRender]
  | ok next =>
    rw [rerender_of_ok hx] at hr
    cases hr

inductive Turns : Session ω → Session ω → Prop
  | none (s : Session ω) : Turns s s
  | turn {s s' s'' : Session ω} (h : s.tick = (.ok true, s')) (rest : Turns s' s'') : Turns s s''

theorem exists_turns {turns : Nat} {e : RenderError} (h : (runTurns turns s).1 = .error e) :
    ∃ s', Turns s s' ∧ s'.tick.1 = .error e ∧ (runTurns turns s).2 = s'.tick.2 := by
  induction turns generalizing s with
  | zero => cases h
  | succ turns ih =>
    unfold runTurns at h ⊢
    rcases ht : s.tick with ⟨e' | worked, s₁⟩
    · rw [ht] at h
      cases h
      exact ⟨s, .none s, by rw [ht], by rw [ht]⟩
    · rw [ht] at h
      cases worked with
      | false => cases h
      | true =>
        dsimp only at h ⊢
        cases hr : (runTurns turns s₁).1 with
        | error e' =>
          rw [hr] at h
          cases h
          obtain ⟨s', hturns, htick, hs⟩ := ih hr
          exact ⟨s', .turn ht hturns, htick, hs⟩
        | ok n =>
          rw [hr] at h
          cases h

def unwrapped (s : Session ω) : List VirtualTree :=
  match s.expand.1 with
  | .ok next => [next]
  | .error _ => []

def unwrappedByTick (s : Session ω) : List VirtualTree :=
  if s.store.scheduler.renderPending then s.taken.unwrapped else []

def unwrappedByTurns : Nat → Session ω → List VirtualTree
  | 0, _ => []
  | turns + 1, s => s.unwrappedByTick ++
    match s.tick with
    | (.ok true, s) => unwrappedByTurns turns s
    | _ => []

/-- A step of a session. -/
inductive Action (ω : Type) where
  | rerender
  | tick
  | runUntilIdle
  | request
  | dispatch (target : NodeId) (event : Event)
  /-- Run a program from outside, such as one that sets a state. -/
  | act (program : Program ω .sync)
  | openGate (gate : String)
  | alter (change : ω → ω)

def Action.perform : Action ω → Session ω → Session ω
  | rerender, s => s.rerender.2
  | tick, s => s.tick.2
  | runUntilIdle, s => s.runUntilIdle.2
  | request, s => s.request.2
  | dispatch target event, s => (s.dispatch target event).2
  | act program, s => { s with store := program.run s.store }
  | openGate gate, s => s.openGate gate
  | alter change, s => s.alter change

def Action.unwrapped : Action ω → Session ω → List VirtualTree
  | rerender, s => s.unwrapped
  | tick, s => s.unwrappedByTick
  | runUntilIdle, s => unwrappedByTurns s.app.options.maxTurns s
  | _, _ => []

/-- A session after it was mounted and after steps, with the trees that its successful passes
unwrapped. -/
def run (app : Application ω) (host : ω) (actions : List (Action ω)) :
    Session ω × List VirtualTree :=
  actions.foldl (fun r a => (a.perform r.1, r.2 ++ a.unwrapped r.1))
    ((mount app host).2, (start app host).unwrapped)

/-- A session whose passes unwrapped some trees: the last of them is painted on the surface, with
nothing beside it, and its listeners are held. -/
structure Sound (s : Session ω) (trees : List VirtualTree) : Prop where
  painted : s.tree.Painted (fun _ => false) s.surface
  held : s.tree.events.HeldBy s.surface
  events_eq : s.events = s.tree.events
  bare_eq : s.tree.bare = (trees.getLastD VirtualTree.empty).bare
  passes_eq : s.passes = trees.length

namespace Sound

theorem of_unmoved (h : Sound s trees) (hu : Unmoved s s') : Sound s' trees where
  painted := by
    rw [hu.tree_eq, hu.surface_eq]
    exact h.painted
  held := by
    rw [hu.tree_eq, hu.surface_eq]
    exact h.held
  events_eq := by rw [hu.events_eq, hu.tree_eq, h.events_eq]
  bare_eq := by rw [hu.tree_eq, h.bare_eq]
  passes_eq := by rw [hu.passes_eq, h.passes_eq]

theorem present (h : Sound s trees) (next : VirtualTree) : Sound (s.present next) (trees ++ [next]) := by
  let e := s.app.options.enumeration s.passes
  have hp := h.painted.diff e next
  have hheld := h.held.congr (VirtualTree.listeners_diff e s.tree next s.surface)
  obtain ⟨hp', hheld'⟩ := hp.refresh hheld e
  simp only [Session.present, h.events_eq]
  refine ⟨hp', hheld', rfl, ?_, ?_⟩
  · rw [List.getLastD_concat]
    exact VirtualTree.bare_diff _ _ _ _
  · rw [List.length_append, List.length_singleton, h.passes_eq]

theorem rerender (h : Sound s trees) : Sound s.rerender.2 (trees ++ s.unwrapped) := by
  have hx := h.of_unmoved s.unmoved_expand
  cases he : s.expand.1 with
  | error e =>
    rw [rerender_of_error he]
    simpa only [unwrapped, he, List.append_nil] using hx
  | ok next =>
    rw [rerender_of_ok he]
    simpa only [unwrapped, he] using hx.present next

theorem tick (h : Sound s trees) : Sound s.tick.2 (trees ++ s.unwrappedByTick) := by
  rw [snd_tick]
  cases hp : s.store.scheduler.renderPending with
  | false =>
    rw [renderPending_of_idle hp, unwrappedByTick, hp]
    simpa using h.of_unmoved s.unmoved_runEffects
  | true =>
    rw [renderPending_of_pending hp, unwrappedByTick, if_pos hp]
    have ht : Sound s.taken trees := h.of_unmoved ⟨rfl, rfl, rfl, rfl⟩
    exact ht.rerender.of_unmoved (unmoved_runEffects _)

theorem runTurns (turns : Nat) (h : Sound s trees) :
    Sound (Session.runTurns turns s).2 (trees ++ unwrappedByTurns turns s) := by
  induction turns generalizing s trees with
  | zero => simpa [Session.runTurns, unwrappedByTurns] using h
  | succ turns ih =>
    have ht := h.tick
    unfold Session.runTurns unwrappedByTurns
    rcases hr : s.tick with ⟨e | worked, s₁⟩
    · rw [hr] at ht
      simpa using ht
    · rw [hr] at ht
      cases worked with
      | false => simpa using ht
      | true => simpa [List.append_assoc] using ih ht

theorem perform (h : Sound s trees) (a : Action ω) : Sound (a.perform s) (trees ++ a.unwrapped s) := by
  have hstill : ∀ {s'}, Unmoved s s' → Sound s' (trees ++ []) := fun hu => by
    rw [List.append_nil]
    exact h.of_unmoved hu
  cases a with
  | rerender => exact h.rerender
  | tick => exact h.tick
  | runUntilIdle => exact h.runTurns _
  | request => exact hstill ⟨rfl, rfl, rfl, rfl⟩
  | dispatch target event => exact hstill ⟨rfl, rfl, rfl, rfl⟩
  | act program => exact hstill ⟨rfl, rfl, rfl, rfl⟩
  | openGate gate => exact hstill ⟨rfl, rfl, rfl, rfl⟩
  | alter change => exact hstill ⟨rfl, rfl, rfl, rfl⟩

end Sound

theorem sound_run (app : Application ω) (host : ω) (actions : List (Action ω)) :
    Sound (run app host actions).1 (run app host actions).2 := by
  induction actions using List.reverseRecOn with
  | nil =>
    have h : Sound (start app host) [] :=
      ⟨VirtualTree.painted_empty, EventSet.heldBy_empty, rfl, rfl, rfl⟩
    exact h.rerender
  | append_singleton actions a ih =>
    rw [run, List.foldl_append, List.foldl_cons, List.foldl_nil]
    exact ih.perform a

/-- A session shows the last of the trees that its passes unwrapped, with its listeners. -/
structure Shows (s : Session ω) (trees : List VirtualTree) : Prop where
  mirrors : s.surface.Mirrors s.tree
  bare_eq : s.tree.bare = (trees.getLastD VirtualTree.empty).bare
  events_eq : s.events = s.tree.events
  held : s.events.HeldBy s.surface
  passes_eq : s.passes = trees.length

/-- Passes that fail change nothing of what a session shows. -/
structure Withstands (s : Session ω) : Prop where
  rerender : ∀ e, s.rerender.1 = .error e → Unmoved s s.rerender.2
  tick : ∀ e, s.tick.1 = .error e → Overcome s s.tick.2
  /-- Turns that fail leave what the turns before the failing one have left. -/
  runUntilIdle : ∀ e, s.runUntilIdle.1 = .error e → ∃ s', Turns s s' ∧ s'.tick.1 = .error e ∧
    s.runUntilIdle.2 = s'.tick.2 ∧ Overcome s' s'.tick.2

/-- At any time a session shows the last tree that was unwrapped, whatever failed since, and it
withstands what fails next. -/
theorem shows_run (app : Application ω) (host : ω) (actions : List (Action ω)) :
    (run app host actions).1.Shows (run app host actions).2 ∧
      (run app host actions).1.Withstands := by
  have h := sound_run app host actions
  refine ⟨⟨h.painted.mirrors, h.bare_eq, h.events_eq, h.events_eq ▸ h.held, h.passes_eq⟩,
    fun e he => unmoved_rerender he, fun e he => overcome_tick he, fun e he => ?_⟩
  obtain ⟨s', hturns, htick, hs⟩ := exists_turns he
  exact ⟨s', hturns, htick, hs, overcome_tick htick⟩

end Session

end ReactiveView
