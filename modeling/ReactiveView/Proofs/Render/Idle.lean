import ReactiveView.Proofs.Hook.Engine
import ReactiveView.Proofs.Render.Standing

namespace ReactiveView

variable {ω : Type}

namespace Executor

theorem run_of_ready_nil {e : Executor ω} (h : e.ready = []) (s : Store ω) : e.run s = (e, s) := by
  obtain ⟨ready, waiting, opened⟩ := e
  cases h
  rfl

theorem spawn_nil (e : Executor ω) : e.spawn [] = e := by
  rw [spawn, List.append_nil]

end Executor

namespace Scheduler

theorem hasWork_eq_false {s : Scheduler ω} :
    s.hasWork = false ↔ s.renderPending = false ∧ s.effects = [] ∧ s.asyncEffects = [] := by
  simp [hasWork, and_assoc]

end Scheduler

namespace Session

variable {s : Session ω}

def resumed (s : Session ω) : Session ω :=
  { s with executor := (s.executor.run s.store).1, store := (s.executor.run s.store).2 }

theorem resumed_of_ready_nil (h : s.executor.ready = []) : s.resumed = s := by
  rw [resumed, Executor.run_of_ready_nil h]

theorem ready_runEffects (s : Session ω) : s.runEffects.2.executor.ready = [] :=
  Executor.ready_run _ _

theorem runEffects_of_nil (h : s.runEffects.1 = 0) :
    s.store.scheduler.effects = [] ∧ s.store.scheduler.asyncEffects = [] ∧
      s.runEffects.2 = s.resumed := by
  have hsum : s.store.scheduler.effects.length +
      s.store.runEffects.2.scheduler.asyncEffects.length = 0 := h
  have heffects : s.store.scheduler.effects = [] := List.length_eq_zero_iff.mp (by omega)
  have hstore : s.store.runEffects.2 = s.store := by
    obtain ⟨app, surface, tree, events, registry, cache, store, executor, passes⟩ := s
    obtain ⟨cells, scheduler, handlers, host⟩ := store
    obtain ⟨renderPending, rendersScheduled, effects, asyncEffects, asyncInFlight⟩ := scheduler
    cases heffects
    rfl
  have hasync : s.store.scheduler.asyncEffects = [] := by
    rw [hstore] at hsum
    exact List.length_eq_zero_iff.mp (by omega)
  refine ⟨heffects, hasync, ?_⟩
  have hdrain : s.executor.drain s.store = (0, s.executor.run s.store) := by
    obtain ⟨app, surface, tree, events, registry, cache, store, executor, passes⟩ := s
    obtain ⟨cells, scheduler, handlers, host⟩ := store
    obtain ⟨renderPending, rendersScheduled, effects, asyncEffects, asyncInFlight⟩ := scheduler
    cases hasync
    simp only [Executor.drain, Scheduler.takeAsync, Executor.spawn_nil, List.length_nil]
  simp only [runEffects, hstore, hdrain, resumed]

theorem ready_tick (s : Session ω) : s.tick.2.executor.ready = [] :=
  ready_runEffects s.renderPending.2

theorem tick_of_still (h : s.tick.1 = .ok false) :
    s.store.scheduler.hasWork = false ∧ s.tick.2 = s.resumed := by
  rw [fst_tick] at h
  cases hp : s.store.scheduler.renderPending with
  | true =>
    rw [renderPending_of_pending hp] at h
    cases hr : s.taken.rerender.1 with
    | error e =>
      rw [hr] at h
      cases h
    | ok u =>
      rw [hr] at h
      cases h
  | false =>
    rw [renderPending_of_idle hp] at h
    have hn : s.runEffects.1 = 0 := by
      have hne : (s.runEffects.1 != 0) = false := by
        simpa [Except.map] using h
      simpa using hne
    obtain ⟨heffects, hasync, hresumed⟩ := runEffects_of_nil hn
    rw [snd_tick, renderPending_of_idle hp]
    exact ⟨Scheduler.hasWork_eq_false.mpr ⟨hp, heffects, hasync⟩, hresumed⟩

/-- Turns that end before their bound do so with one that had nothing to do; if there was another
turn before it, nothing was ready any more. -/
theorem exists_still {turns n : Nat} (h : (runTurns turns s).1 = .ok n) (hn : n < turns) :
    ∃ s', s'.tick.1 = .ok false ∧ (runTurns turns s).2 = s'.tick.2 ∧
      (n = 0 ∧ s' = s ∨ 0 < n ∧ s'.executor.ready = []) := by
  induction turns generalizing s n with
  | zero => exact absurd hn (Nat.not_lt_zero n)
  | succ turns ih =>
    simp only [runTurns] at h ⊢
    rcases ht : s.tick with ⟨e | worked, s₁⟩
    · rw [ht] at h
      cases h
    · rw [ht] at h
      cases worked with
      | false =>
        cases h
        exact ⟨s, by rw [ht], by rw [ht], .inl ⟨rfl, rfl⟩⟩
      | true =>
        dsimp only at h ⊢
        cases hr : (runTurns turns s₁).1 with
        | error e =>
          rw [hr] at h
          cases h
        | ok m =>
          have hm : m + 1 = n := by
            rw [hr] at h
            exact Except.ok.inj h
          obtain ⟨s', hstill, hs, hlast⟩ := ih hr (by omega)
          refine ⟨s', hstill, hs, .inr ⟨by omega, ?_⟩⟩
          rcases hlast with ⟨-, rfl⟩ | ⟨-, hready⟩
          · have hready := ready_tick s
            rwa [ht] at hready
          · exact hready

/-- When turns end before their bound, work is left only if none of them had anything to do and the
effects that were ready before them have left some. The same holds of a turn alone. -/
theorem rests_iff (s : Session ω) :
    (∀ n, s.runUntilIdle.1 = .ok n → n < s.app.options.maxTurns →
      (s.runUntilIdle.2.store.scheduler.hasWork = true ↔
        n = 0 ∧ s.resumed.store.scheduler.hasWork = true)) ∧
    (s.tick.1 = .ok false →
      (s.tick.2.store.scheduler.hasWork = true ↔ s.resumed.store.scheduler.hasWork = true)) := by
  constructor
  · intro n h hn
    obtain ⟨s', hstill, hs, hlast⟩ := exists_still h hn
    obtain ⟨hwork, hresumed⟩ := tick_of_still hstill
    have hend : s.runUntilIdle.2 = s'.resumed := hs.trans hresumed
    rw [hend]
    rcases hlast with ⟨rfl, rfl⟩ | ⟨hpos, hready⟩
    · simp
    · rw [resumed_of_ready_nil hready, hwork]
      simp [Nat.ne_of_gt hpos]
  · intro h
    rw [(tick_of_still h).2]

def awaiting : Application Unit where
  library := fun _ => ⟨"app", fun _ => .state (.flag false) fun _ setter =>
    .effectAsync .null (.await "gate" (.set setter (.flag true) .done))
      (.done (.ok ⟨[], "x", Dict.empty, false⟩))⟩
  root := "app"
  options := .standard

theorem rests_awaiting :
    ((mount awaiting ()).2.runUntilIdle.1 = .ok 1 ∧
      (mount awaiting ()).2.runUntilIdle.2.store.scheduler.hasWork = false) ∧
    (mount awaiting ()).2.tick.2.tick.1 = .ok false ∧
      (mount awaiting ()).2.tick.2.tick.2.store.scheduler.hasWork = false := by
  have hrun : (mount awaiting ()).2.runUntilIdle.1 = .ok 1 := by decide +kernel
  have hturn : (mount awaiting ()).2.tick.2.tick.1 = .ok false := by decide +kernel
  refine ⟨⟨hrun, ?_⟩, hturn, ?_⟩
  · have hiff := (rests_iff (mount awaiting ()).2).1 1 hrun (by decide +kernel)
    simpa using hiff
  · have hiff := (rests_iff (mount awaiting ()).2.tick.2).2 hturn
    rw [resumed_of_ready_nil (ready_tick _), (tick_of_still hturn).1] at hiff
    simpa using hiff

/-- The effect goes on in a turn that took nothing from the queues; the pass that it requests is
still pending when the turns end. -/
theorem not_rests_opened : ¬ ∀ (s : Session Unit) (n : Nat), s.runUntilIdle.1 = .ok n →
    n < s.app.options.maxTurns → s.runUntilIdle.2.store.scheduler.hasWork = false := by
  intro h
  have hwork := h ((mount awaiting ()).2.tick.2.openGate "gate") 0 (by decide +kernel)
    (by decide +kernel)
  exact absurd hwork (by decide +kernel)

end Session

end ReactiveView
