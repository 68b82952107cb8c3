import Mathlib.Data.List.Basic
import ReactiveView.Proofs.Hook.Engine
import ReactiveView.Proofs.Hook.Recorded

namespace ReactiveView

variable {ω α : Type}

namespace Moment

/-- Whether an asynchronous effect is left without a claim to be the only one. -/
def unclaimed (m : Moment ω) : Bool :=
  match m.deed with
  | .deferAsync _ => true
  | _ => false

def starts (m : Moment ω) : Bool :=
  match m.deed with
  | .call (.effectAsync deps program) => (⟨.effectAsync deps program, m.scope⟩ : SlotCall ω).leaves
  | _ => false

def finishes (m : Moment ω) : Bool :=
  match m.deed with
  | .finish => true
  | _ => false

end Moment

def Scheduler.async (s : Scheduler ω) : Nat × Bool := (s.asyncEffects.length, s.asyncInFlight)

namespace Moment

theorem async_of_starts {m : Moment ω} (h : m.starts = true) :
    m.scope.store.scheduler.asyncInFlight = false ∧
      (m.deed.perform m.scope).store.scheduler.async =
        (m.scope.store.scheduler.asyncEffects.length + 1, true) := by
  obtain ⟨d, s⟩ := m
  cases d with
  | call use =>
    cases use with
    | effectAsync deps program =>
      let c : SlotCall ω := ⟨.effectAsync deps program, s⟩
      have hleaves : c.leaves = true := h
      have hfires := (SlotCall.leaves_effectAsync deps program s).symm.trans hleaves
      refine ⟨by simpa using (Bool.and_eq_true _ _ |>.mp hfires).2, ?_⟩
      change c.after.store.scheduler.async = _
      rw [SlotCall.after_effectAsync, if_pos hfires]
      exact Prod.ext List.length_append rfl
    | state | ref | effect => cases h
  | load | reset | clean | handler | alter | set | put | request | defer | deferAsync | takeRender
  | takeEffects | takeAsync | finish => cases h

theorem async_of_call {use : SlotUse ω} {s : Scope ω}
    (h : (⟨.call use, s⟩ : Moment ω).starts = false) :
    (use.perform s).store.scheduler.async = s.store.scheduler.async := by
  cases use with
  | state | ref => rfl
  | effect deps program =>
    change (⟨.effect deps program, s⟩ : SlotCall ω).after.store.scheduler.async = _
    rw [SlotCall.after_effect]
    split <;> rfl
  | effectAsync deps program =>
    let c : SlotCall ω := ⟨.effectAsync deps program, s⟩
    obtain ⟨hleaves, -⟩ | ⟨-, hafter⟩ := c.after_cases
    · cases hleaves.symm.trans h
    · change c.after.store.scheduler.async = _
      rw [hafter]
      rfl

theorem async_perform {m : Moment ω} (hinner : m.deed.Inner) (hclaim : m.unclaimed = false)
    (h : m.starts = false) :
    (m.deed.perform m.scope).store.scheduler.async = m.scope.store.scheduler.async := by
  obtain ⟨d, s⟩ := m
  cases d with
  | call use => exact async_of_call h
  | set state f =>
    change (s.store.set state (f (s.store.get state))).scheduler.async = _
    rw [Store.set]
    split
    · rfl
    · unfold Store.request Scheduler.request
      dsimp only
      split <;> rfl
  | request =>
    change s.store.scheduler.request.2.async = _
    rw [Scheduler.request]
    split <;> rfl
  | deferAsync effect => cases hclaim
  | handler | alter | put | defer => rfl
  | load | reset | clean | takeRender | takeEffects | takeAsync | finish => cases hinner

end Moment

/-- Besides the queue `k` asynchronous effects have been started and have not finished, and there is
one in all if one is in flight, and none otherwise. -/
def Scheduler.Sole (k : Nat) (s : Scheduler ω) : Prop :=
  s.asyncEffects.length + k = s.asyncInFlight.toNat

theorem Moment.sole_perform {k : Nat} {m : Moment ω} (hinner : m.deed.Inner)
    (hclaim : m.unclaimed = false) (h : m.scope.store.scheduler.Sole k) :
    (m.deed.perform m.scope).store.scheduler.Sole k := by
  unfold Scheduler.Sole at h ⊢
  cases hstarts : m.starts with
  | true =>
    obtain ⟨hfree, hasync⟩ := async_of_starts hstarts
    obtain ⟨hlength, hflight⟩ := Prod.mk.inj hasync
    rw [hfree] at h
    rw [hlength, hflight]
    change _ = 0 at h
    change _ = 1
    omega
  | false =>
    obtain ⟨hlength, hflight⟩ := Prod.mk.inj (async_perform hinner hclaim hstarts)
    rw [hlength, hflight]
    exact h

theorem Deed.Inner.not_finishes {m : Moment ω} (h : m.deed.Inner) : m.finishes = false := by
  obtain ⟨d, s⟩ := m
  cases d with
  | finish => cases h
  | load | reset | clean | call | handler | alter | set | put | request | defer | deferAsync
  | takeRender | takeEffects | takeAsync => rfl

namespace Deed

theorem sole_performAll {k : Nat} {deeds : List (Deed ω)} (hinner : ∀ d ∈ deeds, d.Inner)
    {s : Scope ω} (hclaim : ∀ m ∈ log deeds s, m.unclaimed = false)
    (h : s.store.scheduler.Sole k) : (performAll deeds s).store.scheduler.Sole k := by
  induction deeds generalizing s with
  | nil => exact h
  | cons d rest ih =>
    obtain ⟨hd, hrest⟩ := List.forall_mem_cons.mp hinner
    obtain ⟨hfirst, hlater⟩ := List.forall_mem_cons.mp hclaim
    exact ih hrest hlater (Moment.sole_perform (m := ⟨d, s⟩) hd hfirst h)

end Deed

def Moment.Fair (log : List (Moment ω)) : Prop :=
  ∀ m ∈ log, m.finishes = true → m.scope.store.scheduler.asyncInFlight = true

theorem Moment.Fair.append {log log' : List (Moment ω)} (h : Fair log) (h' : Fair log') :
    Fair (log ++ log') := by
  intro m hm
  rcases List.mem_append.mp hm with hm | hm
  · exact h m hm
  · exact h' m hm

theorem Moment.fair_singleton {m : Moment ω} (h : m.finishes = false) : Fair [m] := by
  intro x hx hfinish
  cases List.mem_singleton.mp hx
  cases h.symm.trans hfinish

theorem Deed.fair_of_inner {deeds : List (Deed ω)} (hinner : ∀ d ∈ deeds, d.Inner) (s : Scope ω) :
    Moment.Fair (log deeds s) := by
  intro m hm hfinish
  cases (hinner _ (mem_of_mem_log hm)).not_finishes.symm.trans hfinish

namespace Executor

theorem sole_turn {n : Nat} (e : Executor ω) (effect : Program ω .async) (s : Scope ω)
    (h : (effect.advance e.opened s.store).2.scheduler.Sole (n + 1 + e.waiting.length)) :
    (e.turn s.store effect).2.scheduler.Sole (n + (e.turn s.store effect).1.waiting.length) ∧
      Moment.Fair (Deed.log (ending (effect.advance e.opened s.store).1)
        { s with store := (effect.advance e.opened s.store).2 }) := by
  rw [turn]
  generalize effect.advance e.opened s.store = r at h ⊢
  obtain ⟨_ | wait, store⟩ := r
  · have hcount : store.scheduler.asyncEffects.length + (n + 1 + e.waiting.length) =
      store.scheduler.asyncInFlight.toNat := h
    have hflight : store.scheduler.asyncInFlight = true := by
      cases hfree : store.scheduler.asyncInFlight with
      | true => rfl
      | false =>
        rw [hfree, Bool.toNat_false] at hcount
        omega
    refine ⟨?_, fun m hm _ => ?_⟩
    · change store.scheduler.asyncEffects.length + (n + e.waiting.length) = 0
      rw [hflight, Bool.toNat_true] at hcount
      omega
    · rw [List.mem_singleton.mp hm]
      exact hflight
  · refine ⟨?_, fun m hm => absurd hm List.not_mem_nil⟩
    change store.scheduler.Sole (n + (e.waiting ++ [wait]).length)
    rw [List.length_append, List.length_singleton, Nat.add_comm e.waiting.length, ← Nat.add_assoc]
    exact h

theorem sole_deeds (effects : List (Program ω .async)) (e : Executor ω) (s : Scope ω)
    (hclaim : ∀ m ∈ Deed.log (deeds effects e s.store) s, m.unclaimed = false)
    (h : s.store.scheduler.Sole (effects.length + e.waiting.length)) :
    (effects.foldl (fun r effect => r.1.turn r.2 effect) (e, s.store)).2.scheduler.Sole
        (effects.foldl (fun r effect => r.1.turn r.2 effect) (e, s.store)).1.waiting.length ∧
      Moment.Fair (Deed.log (deeds effects e s.store) s) := by
  induction effects generalizing e s with
  | nil =>
    rw [List.length_nil, Nat.zero_add] at h
    exact ⟨h, fun m hm => absurd hm List.not_mem_nil⟩
  | cons effect rest ih =>
    have hinner := effect.inner_deeds e.opened s.store
    rw [deeds, Deed.log_append, performAll_turn, Deed.log_append] at hclaim ⊢
    obtain ⟨hfirst, hrest⟩ := List.forall_mem_append.mp hclaim
    have hsole := Deed.sole_performAll hinner (List.forall_mem_append.mp hfirst).1 h
    rw [effect.performAll_deeds] at hsole ⊢
    obtain ⟨hturn, hending⟩ := e.sole_turn effect s hsole
    obtain ⟨hafter, hfair⟩ := ih (e.turn s.store effect).1
      { s with store := (e.turn s.store effect).2 } hrest hturn
    exact ⟨hafter, ((Deed.fair_of_inner hinner s).append hending).append hfair⟩

end Executor

/-- How many asynchronous effects have been started and have not finished: those that are queued,
those that are ready and those that wait. -/
def Engine.unfinished (e : Engine ω) : Nat :=
  e.scope.store.scheduler.asyncEffects.length + e.executor.ready.length + e.executor.waiting.length

/-- An effect that has not finished is the only one, and it is in flight. -/
def Engine.Sole (e : Engine ω) : Prop := e.unfinished = e.scope.store.scheduler.asyncInFlight.toNat

theorem Executor.length_openGate (e : Executor ω) (gate : String) :
    (e.openGate gate).ready.length + (e.openGate gate).waiting.length =
      e.ready.length + e.waiting.length := by
  have hsplit := List.length_eq_length_filter_add (l := e.waiting) (fun w => decide (w.1 = gate))
  rw [openGate, List.length_append, List.length_map, hsplit, Nat.add_assoc]
  simp only [ne_eq, decide_not]

theorem Engine.Sole.scheduler {e : Engine ω} (h : e.Sole) :
    e.scope.store.scheduler.Sole (e.executor.ready.length + e.executor.waiting.length) :=
  (Nat.add_assoc ..).symm.trans h

theorem Engine.Sole.of_scheduler {e : Engine ω}
    (h : e.scope.store.scheduler.Sole (e.executor.ready.length + e.executor.waiting.length)) :
    e.Sole :=
  (Nat.add_assoc ..).trans h

theorem Move.sole_of_inner {m : Move ω α} {e : Engine ω} (hexecutor : (m.perform e).executor = e.executor)
    (hinner : ∀ d ∈ m.deeds e, d.Inner)
    (hclaim : ∀ x ∈ Deed.log (m.deeds e) e.scope, x.unclaimed = false) (h : e.Sole) :
    (m.perform e).Sole ∧ Moment.Fair (Deed.log (m.deeds e) e.scope) := by
  refine ⟨.of_scheduler ?_, Deed.fair_of_inner hinner e.scope⟩
  have hafter := Deed.sole_performAll hinner hclaim h.scheduler
  rw [← m.scope_perform] at hafter
  rw [hexecutor]
  exact hafter

theorem Engine.sole_runEffects {e : Engine ω}
    (hclaim : ∀ x ∈ Deed.log ((Move.runEffects : Move ω α).deeds e) e.scope, x.unclaimed = false)
    (h : e.Sole) : ((Move.runEffects : Move ω α).perform e).Sole ∧
      Moment.Fair (Deed.log ((Move.runEffects : Move ω α).deeds e) e.scope) := by
  let taken := Deed.takeEffects.perform e.scope
  have hinner := Program.inner_deedsAll (fun p _ => p) e.scope.store.scheduler.takeEffects.1
    taken.store
  have hafter := Deed.sole_performAll hinner (List.forall_mem_cons.mp hclaim).2
    (show taken.store.scheduler.Sole _ from h.scheduler)
  rw [Program.performAll_deedsAll] at hafter
  exact ⟨.of_scheduler hafter, (Moment.fair_singleton rfl).append (Deed.fair_of_inner hinner taken)⟩

theorem Move.sole_perform (m : Move ω α) (e : Engine ω)
    (hclaim : ∀ x ∈ Deed.log (m.deeds e) e.scope, x.unclaimed = false) (h : e.Sole) :
    (m.perform e).Sole ∧ Moment.Fair (Deed.log (m.deeds e) e.scope) := by
  cases m with
  | load | reset | clean | takeRender => exact ⟨h, Moment.fair_singleton rfl⟩
  | describe d => exact sole_of_inner rfl (d.inner_deeds e.scope) hclaim h
  | act program => exact sole_of_inner rfl (program.inner_deeds [] e.scope.store) hclaim h
  | deliver event ids =>
    exact sole_of_inner rfl (Program.inner_deedsAll _ ids e.scope.store) hclaim h
  | runEffects => exact Engine.sole_runEffects hclaim h
  | spawn =>
    refine ⟨?_, Moment.fair_singleton rfl⟩
    unfold Engine.Sole Engine.unfinished at h ⊢
    change 0 + (e.executor.ready ++ e.scope.store.scheduler.asyncEffects).length +
      e.executor.waiting.length = e.scope.store.scheduler.asyncInFlight.toNat
    rw [List.length_append]
    omega
  | resume =>
    obtain ⟨hafter, hfair⟩ := Executor.sole_deeds e.executor.ready { e.executor with ready := [] }
      e.scope hclaim h.scheduler
    refine ⟨?_, hfair⟩
    have hready := Executor.ready_run e.executor e.scope.store
    rw [Engine.Sole, Engine.unfinished]
    change _ + (e.executor.run e.scope.store).1.ready.length + _ = _
    rw [hready]
    exact hafter
  | openGate gate =>
    refine ⟨?_, fun m hm => absurd hm List.not_mem_nil⟩
    have hlength := e.executor.length_openGate gate
    unfold Engine.Sole Engine.unfinished at h ⊢
    change e.scope.store.scheduler.asyncEffects.length + (e.executor.openGate gate).ready.length +
      (e.executor.openGate gate).waiting.length = e.scope.store.scheduler.asyncInFlight.toNat
    omega

theorem Engine.sole_performAll (moves : List (Move ω α)) (e : Engine ω)
    (hclaim : ∀ m ∈ log moves e, m.unclaimed = false) (h : e.Sole) :
    (performAll moves e).Sole ∧ Moment.Fair (log moves e) := by
  induction moves generalizing e with
  | nil => exact ⟨h, fun m hm => absurd hm List.not_mem_nil⟩
  | cons m rest ih =>
    have hlog : log (m :: rest) e = Deed.log (m.deeds e) e.scope ++ log rest (m.perform e) := by
      rw [log, deeds, Deed.log_append, ← m.scope_perform, log]
    rw [hlog] at hclaim ⊢
    obtain ⟨hfirst, hrest⟩ := List.forall_mem_append.mp hclaim
    obtain ⟨hsole, hfair⟩ := m.sole_perform e hfirst h
    obtain ⟨hafter, hfair'⟩ := ih (m.perform e) hrest hsole
    exact ⟨hafter, hfair.append hfair'⟩

namespace Engine

end Engine

end ReactiveView
