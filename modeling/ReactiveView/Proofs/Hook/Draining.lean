import ReactiveView.Proofs.Hook.Engine
import ReactiveView.Proofs.Hook.Firing

namespace ReactiveView

variable {ω α : Type}

def Moment.deferred? (m : Moment ω) : Option (Program ω .sync) :=
  match m.deed with
  | .defer effect => some effect
  | .call (.effect deps program) =>
    if (⟨.effect deps program, m.scope⟩ : SlotCall ω).leaves then some program else none
  | _ => none

theorem Moment.effects_perform {m : Moment ω} (h : m.deed ≠ .takeEffects) :
    (m.deed.perform m.scope).store.scheduler.effects =
      m.scope.store.scheduler.effects ++ m.deferred?.toList := by
  obtain ⟨d, s⟩ := m
  cases d with
  | call use =>
    cases use with
    | state | ref => exact (List.append_nil _).symm
    | effect deps program =>
      let c : SlotCall ω := ⟨.effect deps program, s⟩
      have hleaves : c.leaves = Scope.depsChanged c.content deps := SlotCall.leaves_effect deps program s
      change c.after.store.scheduler.effects = _ ++ (if c.leaves then some program else none).toList
      rw [SlotCall.after_effect, ← hleaves]
      cases c.leaves
      · exact (List.append_nil _).symm
      · rfl
    | effectAsync deps program =>
      change (⟨.effectAsync deps program, s⟩ : SlotCall ω).after.store.scheduler.effects = _ ++ []
      rw [SlotCall.after_effectAsync, List.append_nil]
      split <;> rfl
  | set state f =>
    change (s.store.set state (f (s.store.get state))).scheduler.effects = _ ++ []
    rw [List.append_nil, Store.set]
    split
    · rfl
    · unfold Store.request Scheduler.request
      dsimp only
      split <;> rfl
  | request =>
    change s.store.scheduler.request.2.effects = _ ++ []
    rw [List.append_nil, Scheduler.request]
    split <;> rfl
  | defer effect => rfl
  | takeEffects => exact absurd rfl h
  | load | reset | clean | handler | alter | put | deferAsync | takeRender | takeAsync | finish =>
    exact (List.append_nil _).symm

theorem Deed.effects_performAll {deeds : List (Deed ω)} (h : .takeEffects ∉ deeds) (s : Scope ω) :
    (performAll deeds s).store.scheduler.effects =
      s.store.scheduler.effects ++ (log deeds s).filterMap Moment.deferred? := by
  induction deeds generalizing s with
  | nil => exact (List.append_nil _).symm
  | cons d rest ih =>
    obtain ⟨hd, hrest⟩ := not_or.mp (mt List.mem_cons.mpr h)
    have hfirst := Moment.effects_perform (m := ⟨d, s⟩) fun heq => hd heq.symm
    refine (ih hrest (d.perform s)).trans ?_
    rw [hfirst, log, List.append_assoc, List.filterMap_cons]
    cases (⟨d, s⟩ : Moment ω).deferred? <;> rfl

theorem Deed.Inner.ne_takeEffects {d : Deed ω} (h : d.Inner) : d ≠ .takeEffects := by
  rintro rfl
  exact h

theorem Executor.takeEffects_not_mem (effects : List (Program ω .async)) (e : Executor ω)
    (s : Store ω) : .takeEffects ∉ deeds effects e s := by
  induction effects generalizing e s with
  | nil => exact List.not_mem_nil
  | cons effect rest ih =>
    rw [deeds, List.mem_append, List.mem_append, not_or, not_or]
    refine ⟨⟨fun h => (effect.inner_deeds e.opened s _ h).ne_takeEffects rfl, fun h => ?_⟩, ih _ _⟩
    rw [ending] at h
    split at h
    · cases List.mem_singleton.mp h
    · cases h

namespace Move

def drains : Move ω α → Bool
  | runEffects => true
  | _ => false

theorem takeEffects_not_mem {m : Move ω α} (h : m.drains = false) (e : Engine ω) :
    .takeEffects ∉ m.deeds e := by
  cases m with
  | load | reset | clean | takeRender | spawn =>
    intro hmem
    cases List.mem_singleton.mp hmem
  | describe d => exact fun hmem => (d.inner_deeds e.scope _ hmem).ne_takeEffects rfl
  | act program => exact fun hmem => (program.inner_deeds [] _ _ hmem).ne_takeEffects rfl
  | deliver event ids => exact fun hmem => (Program.inner_deedsAll _ ids _ _ hmem).ne_takeEffects rfl
  | runEffects => cases h
  | resume => exact Executor.takeEffects_not_mem _ _ _
  | openGate => exact List.not_mem_nil

end Move

/-- A deed is done, or an effect that was taken from the queue begins to run. -/
inductive Happening (ω : Type) where
  | moment (m : Moment ω)
  | runs (effect : Program ω .sync)

namespace Happening

def moment? : Happening ω → Option (Moment ω)
  | moment m => some m
  | runs _ => none

def executed? : Happening ω → Option (Program ω .sync)
  | moment _ => none
  | runs effect => some effect

def executed (hs : List (Happening ω)) : List (Program ω .sync) := hs.filterMap executed?

def deferred (hs : List (Happening ω)) : List (Program ω .sync) :=
  (hs.filterMap moment?).filterMap Moment.deferred?

theorem executed_append (hs hs' : List (Happening ω)) :
    executed (hs ++ hs') = executed hs ++ executed hs' := List.filterMap_append

theorem deferred_append (hs hs' : List (Happening ω)) :
    deferred (hs ++ hs') = deferred hs ++ deferred hs' := by
  rw [deferred, List.filterMap_append, List.filterMap_append]
  rfl

theorem executed_map_moment (log : List (Moment ω)) : executed (log.map moment) = [] := by
  rw [executed, List.filterMap_eq_nil_iff]
  intro h hh
  obtain ⟨m, -, rfl⟩ := List.mem_map.mp hh
  rfl

theorem moments_map_moment (log : List (Moment ω)) : (log.map moment).filterMap moment? = log := by
  rw [List.filterMap_map]
  exact List.filterMap_some

end Happening

open Happening (executed deferred)

def Program.happenings : List (Program ω .sync) → Scope ω → List (Happening ω)
  | [], _ => []
  | effect :: rest, s =>
    .runs effect :: (Deed.log (effect.deeds [] s.store) s).map .moment ++
      happenings rest { s with store := effect.run s.store }

def Move.happenings : Move ω α → Engine ω → List (Happening ω)
  | runEffects, e =>
    .moment ⟨.takeEffects, e.scope⟩ ::
      Program.happenings e.scope.store.scheduler.takeEffects.1 (Deed.takeEffects.perform e.scope)
  | m, e => (Deed.log (m.deeds e) e.scope).map .moment

def Engine.happenings : List (Move ω α) → Engine ω → List (Happening ω)
  | [], _ => []
  | m :: rest, e => m.happenings e ++ happenings rest (m.perform e)

theorem Program.executed_happenings (effects : List (Program ω .sync)) (s : Scope ω) :
    executed (happenings effects s) = effects := by
  induction effects generalizing s with
  | nil => rfl
  | cons effect rest ih =>
    rw [happenings, Happening.executed_append, ih]
    change effect :: (executed ((Deed.log _ s).map .moment) ++ rest) = _
    rw [Happening.executed_map_moment]
    rfl

theorem Program.moments_happenings (effects : List (Program ω .sync)) (s : Scope ω) :
    (happenings effects s).filterMap Happening.moment? =
      Deed.log (deedsAll (fun p _ => p) effects s.store) s := by
  induction effects generalizing s with
  | nil => rfl
  | cons effect rest ih =>
    rw [happenings, List.filterMap_append, ih, List.filterMap_cons_none rfl,
      Happening.moments_map_moment, deedsAll, Deed.log_append, effect.performAll_deeds]
    rfl

namespace Move

theorem happenings_of_quiet {m : Move ω α} (h : m.drains = false) (e : Engine ω) :
    m.happenings e = (Deed.log (m.deeds e) e.scope).map .moment := by
  cases m with
  | runEffects => cases h
  | load | reset | clean | describe | act | deliver | takeRender | spawn | resume | openGate => rfl

theorem moments_happenings (m : Move ω α) (e : Engine ω) :
    (m.happenings e).filterMap Happening.moment? = Deed.log (m.deeds e) e.scope := by
  cases hm : m.drains with
  | false => rw [happenings_of_quiet hm, Happening.moments_map_moment]
  | true =>
    cases m with
    | runEffects =>
      exact congrArg (Moment.mk .takeEffects e.scope :: ·) (Program.moments_happenings _ _)
    | load | reset | clean | describe | act | deliver | takeRender | spawn | resume | openGate =>
      cases hm

/-- A drain runs the queue that it finds, and nothing else runs effects. -/
theorem executed_happenings (m : Move ω α) (e : Engine ω) :
    executed (m.happenings e) = if m.drains then e.scope.store.scheduler.effects else [] := by
  cases hm : m.drains with
  | false =>
    rw [happenings_of_quiet hm, Happening.executed_map_moment]
    rfl
  | true =>
    cases m with
    | runEffects => exact Program.executed_happenings _ _
    | load | reset | clean | describe | act | deliver | takeRender | spawn | resume | openGate =>
      cases hm

theorem effects_perform (m : Move ω α) (e : Engine ω) :
    (m.perform e).scope.store.scheduler.effects =
      (if m.drains then [] else e.scope.store.scheduler.effects) ++ deferred (m.happenings e) := by
  rw [m.scope_perform, deferred, m.moments_happenings]
  cases hm : m.drains with
  | false => exact Deed.effects_performAll (takeEffects_not_mem hm e) e.scope
  | true =>
    cases m with
    | runEffects =>
      refine Deed.effects_performAll (s := Deed.takeEffects.perform e.scope) ?_
      exact fun hmem => (Program.inner_deedsAll _ _ _ _ hmem).ne_takeEffects rfl
    | load | reset | clean | describe | act | deliver | takeRender | spawn | resume | openGate =>
      cases hm

theorem executed_append_effects (m : Move ω α) (e : Engine ω) :
    executed (m.happenings e) ++ (m.perform e).scope.store.scheduler.effects =
      e.scope.store.scheduler.effects ++ deferred (m.happenings e) := by
  rw [m.effects_perform, m.executed_happenings]
  cases m.drains <;> rfl

end Move

namespace Engine

theorem happenings_append (moves moves' : List (Move ω α)) (e : Engine ω) :
    happenings (moves ++ moves') e = happenings moves e ++ happenings moves' (performAll moves e) := by
  induction moves generalizing e with
  | nil => rfl
  | cons m rest ih =>
    rw [List.cons_append, happenings, ih, happenings, List.append_assoc]
    rfl

theorem moments_happenings (moves : List (Move ω α)) (e : Engine ω) :
    (happenings moves e).filterMap Happening.moment? = log moves e := by
  induction moves generalizing e with
  | nil => rfl
  | cons m rest ih =>
    rw [happenings, List.filterMap_append, m.moments_happenings, ih, log, log, deeds, Deed.log_append,
      ← m.scope_perform]

theorem executed_append_effects (moves : List (Move ω α)) (e : Engine ω) :
    executed (happenings moves e) ++ (performAll moves e).scope.store.scheduler.effects =
      e.scope.store.scheduler.effects ++ deferred (happenings moves e) := by
  induction moves generalizing e with
  | nil => exact (List.append_nil _).symm
  | cons m rest ih =>
    have hrest := ih (m.perform e)
    rw [happenings, Happening.executed_append, Happening.deferred_append, List.append_assoc]
    change _ ++ (_ ++ (performAll rest (m.perform e)).scope.store.scheduler.effects) = _
    rw [hrest, ← List.append_assoc, m.executed_append_effects, List.append_assoc]

/-- At no time have other effects been run than the first of those that were there or have been
deferred since. -/
theorem executed_prefix {moves : List (Move ω α)} {e : Engine ω} {before after : List (Happening ω)}
    (h : happenings moves e = before ++ after) :
    executed before <+: e.scope.store.scheduler.effects ++ deferred before := by
  induction moves generalizing e before with
  | nil =>
    obtain ⟨rfl, -⟩ := List.append_eq_nil_iff.mp h.symm
    exact List.nil_prefix
  | cons m rest ih =>
    obtain ⟨between, hbefore, hrest⟩ | ⟨between, hm, -⟩ := List.append_eq_append_iff.mp h
    · have hlater := ih hrest
      rw [hbefore, Happening.executed_append, Happening.deferred_append, ← List.append_assoc,
        ← m.executed_append_effects, List.append_assoc]
      exact (List.prefix_append_right_inj _).mpr hlater
    · have hall : executed (m.happenings e) <+: e.scope.store.scheduler.effects := by
        rw [m.executed_happenings]
        split
        · exact List.prefix_rfl
        · exact List.nil_prefix
      rw [hm, Happening.executed_append] at hall
      exact ((List.prefix_append _ _).trans hall).trans (List.prefix_append _ _)

theorem executed_of_quiet {moves : List (Move ω α)} (h : ∀ m ∈ moves, m.drains = false)
    (e : Engine ω) : executed (happenings moves e) = [] := by
  induction moves generalizing e with
  | nil => rfl
  | cons m rest ih =>
    obtain ⟨hm, hrest⟩ := List.forall_mem_cons.mp h
    rw [happenings, Happening.executed_append, m.executed_happenings, hm, ih hrest]
    rfl

theorem executed_of_drain (host : ω) (first : List (Move ω α)) :
    executed (happenings (first ++ [.runEffects]) (start host)) =
        deferred (happenings first (start host)) ∧
      (performAll (first ++ [.runEffects]) (start host)).scope.store.scheduler.effects =
        deferred (Move.happenings (.runEffects : Move ω α) (performAll first (start host))) := by
  have hqueue := executed_append_effects first (start host)
  have hone : happenings [.runEffects] (performAll first (start host)) =
      Move.happenings (.runEffects : Move ω α) (performAll first (start host)) := List.append_nil _
  rw [happenings_append, Happening.executed_append, hone, Move.executed_happenings, performAll_append]
  exact ⟨hqueue, Move.effects_perform (.runEffects : Move ω α) _⟩

end Engine

/-- In a run of moves effects are deferred exactly on change, and are run once and in order. -/
structure Engine.Orderly (host : ω) (moves : List (Move ω α)) : Prop where
  /-- An effect is left exactly if its slot is new, was of another kind before or has been emptied,
  or was last evaluated with other dependencies. -/
  leaves_iff : ∀ (before after : List (Moment ω)) (c : SlotCall ω) deps program,
    log moves (start host) = before ++ c.moment :: after → c.use = .effect deps program →
      c.Plain before → (c.leaves = true ↔
        ∀ d old, c.previous? before = some d → d.use.deps? = some old → (old == deps) = false)
  /-- What is left joins the end of the queue. -/
  queue_eq : ∀ (c : SlotCall ω) deps program, c.use = .effect deps program →
    c.after.store.scheduler =
      if c.leaves then c.scope.store.scheduler.defer program else c.scope.store.scheduler
  /-- What happens are the deeds of the run, with the effects that are run in between. -/
  moments_eq : (happenings moves (start host)).filterMap Happening.moment? = log moves (start host)
  executed_prefix : ∀ before after, happenings moves (start host) = before ++ after →
    executed before <+: deferred before
  /-- What has been deferred and has not been run is in the queue. -/
  executed_append_effects : executed (happenings moves (start host)) ++
    (performAll moves (start host)).scope.store.scheduler.effects =
      deferred (happenings moves (start host))
  /-- No effects are run but in drains, so none is run in the pass that has deferred it. -/
  executed_of_quiet : ∀ first between rest, moves = first ++ between ++ rest →
    (∀ m ∈ between, m.drains = false) →
      executed (happenings between (performAll first (start host))) = []
  /-- A drain runs all that has been deferred before it and has not been run, and leaves what is
  deferred meanwhile. -/
  executed_of_drain : ∀ first rest, moves = first ++ .runEffects :: rest →
    executed (happenings (first ++ [.runEffects]) (start host)) =
        deferred (happenings first (start host)) ∧
      (performAll (first ++ [.runEffects]) (start host)).scope.store.scheduler.effects =
        deferred (Move.happenings (.runEffects : Move ω α) (performAll first (start host)))

theorem SlotCall.scheduler_after {c : SlotCall ω} {deps : Value} {program : Program ω .sync}
    (huse : c.use = .effect deps program) : c.after.store.scheduler =
      if c.leaves then c.scope.store.scheduler.defer program else c.scope.store.scheduler := by
  obtain ⟨use, s⟩ := c
  cases huse
  rw [leaves_effect]
  exact scheduler_effect deps program s

theorem Engine.orderly_of_moves (host : ω) (moves : List (Move ω α)) : Orderly host moves where
  leaves_iff _ _ _ _ _ hlog huse hplain := Deed.effect_leaves_iff hlog huse hplain
  queue_eq _ _ _ huse := SlotCall.scheduler_after huse
  moments_eq := moments_happenings moves (start host)
  executed_prefix _ _ h := Engine.executed_prefix h
  executed_append_effects := Engine.executed_append_effects moves (start host)
  executed_of_quiet _ _ _ _ h := Engine.executed_of_quiet h _
  executed_of_drain first _ _ := Engine.executed_of_drain host first

end ReactiveView
