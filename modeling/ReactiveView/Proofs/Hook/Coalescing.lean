import ReactiveView.Proofs.Hook.Deeds

namespace ReactiveView

variable {ω : Type}

namespace Moment

/-- Whether a pass is asked for at a moment. Whoever sets a state asks for one if the new content
differs from the content at that moment. -/
def asks (m : Moment ω) : Bool :=
  match m.deed with
  | .set state f => !(m.scope.store.get state == f (m.scope.store.get state))
  | .request => true
  | _ => false

/-- Whether a request is taken at a moment, with the answer that there was one. -/
def granted (m : Moment ω) : Bool :=
  match m.deed with
  | .takeRender => m.scope.store.scheduler.takeRender.1
  | _ => false

end Moment

def Scheduler.renders (s : Scheduler ω) : Bool × Nat := (s.renderPending, s.rendersScheduled)

theorem SlotUse.renders_perform (use : SlotUse ω) (s : Scope ω) :
    (use.perform s).store.scheduler.renders = s.store.scheduler.renders := by
  cases use with
  | state | ref => rfl
  | effect deps program =>
    have h := SlotCall.scheduler_effect deps program s
    change (⟨.effect deps program, s⟩ : SlotCall ω).after.store.scheduler.renders = _
    rw [h]
    split <;> rfl
  | effectAsync deps program =>
    have h := SlotCall.scheduler_effectAsync deps program s
    change (⟨.effectAsync deps program, s⟩ : SlotCall ω).after.store.scheduler.renders = _
    rw [h]
    split
    · split <;> rfl
    · rfl

namespace Moment

theorem renders_perform (m : Moment ω) (h : m.deed ≠ .takeRender) :
    (m.deed.perform m.scope).store.scheduler.renders =
      (if m.asks then m.scope.store.scheduler.request.2 else m.scope.store.scheduler).renders := by
  obtain ⟨d, s⟩ := m
  cases d with
  | call use => exact use.renders_perform s
  | set state f =>
    have hasks : (⟨.set state f, s⟩ : Moment ω).asks =
      !(s.store.get state == f (s.store.get state)) := rfl
    change (s.store.set state (f (s.store.get state))).scheduler.renders = _
    rw [hasks, Store.set]
    cases s.store.get state == f (s.store.get state) <;> rfl
  | takeRender => exact absurd rfl h
  | load | reset | clean | handler | alter | put | request | defer | deferAsync | takeEffects
  | takeAsync | finish => rfl

theorem renderPending_perform (m : Moment ω) (h : m.deed ≠ .takeRender) :
    (m.deed.perform m.scope).store.scheduler.renderPending =
      (m.asks || m.scope.store.scheduler.renderPending) := by
  refine (congrArg Prod.fst (m.renders_perform h)).trans ?_
  cases m.asks with
  | false => rfl
  | true =>
    rw [if_pos rfl, Bool.true_or, Scheduler.request]
    split
    · assumption
    · rfl

theorem rendersScheduled_perform (m : Moment ω) (h : m.deed ≠ .takeRender) :
    (m.deed.perform m.scope).store.scheduler.rendersScheduled =
      m.scope.store.scheduler.rendersScheduled +
        if m.asks && !m.scope.store.scheduler.renderPending then 1 else 0 := by
  refine (congrArg Prod.snd (m.renders_perform h)).trans ?_
  cases m.asks with
  | false => rfl
  | true =>
    rw [if_pos rfl, Bool.true_and, Scheduler.request]
    cases m.scope.store.scheduler.renderPending <;> rfl

end Moment

def Scope.idle (s : Scope ω) : Scope ω := { s with store.scheduler := Scheduler.idle }

namespace Deed

/-- A pass is pending exactly if somebody asked for one and no request has been taken since. -/
theorem renderPending_iff (deeds : List (Deed ω)) {s : Scope ω}
    (hs : s.store.scheduler.renderPending = false) :
    (performAll deeds s).store.scheduler.renderPending = true ↔
      ∃ before m after, log deeds s = before ++ m :: after ∧ m.asks = true ∧
        ∀ m' ∈ after, m'.deed ≠ .takeRender := by
  induction deeds using List.reverseRecOn with
  | nil =>
    rw [performAll, List.foldl_nil, hs]
    simp [log]
  | append_singleton deeds d ih =>
    let last : Moment ω := ⟨d, performAll deeds s⟩
    rw [performAll_concat, log_concat]
    constructor
    · intro hpending
      have hd : d ≠ .takeRender := by
        rintro rfl
        cases hpending
      have hlast : (last.asks || (performAll deeds s).store.scheduler.renderPending) = true :=
        (last.renderPending_perform hd).symm.trans hpending
      rcases Bool.or_eq_true _ _ |>.mp hlast with hasks | hbefore
      · exact ⟨log deeds s, last, [], rfl, hasks, by simp⟩
      · obtain ⟨before, m, after, hlog, hasks, hafter⟩ := ih.mp hbefore
        refine ⟨before, m, after ++ [last], by simp [hlog, last], hasks, fun m' hm' => ?_⟩
        rcases List.mem_append.mp hm' with hm' | hm'
        · exact hafter m' hm'
        · rw [List.mem_singleton.mp hm']
          exact hd
    · rintro ⟨before, m, after, hlog, hasks, hafter⟩
      rcases List.eq_nil_or_concat after with rfl | ⟨after, m', rfl⟩
      · obtain ⟨-, hm⟩ := List.append_inj' hlog rfl
        obtain rfl : last = m := List.head_eq_of_cons_eq hm
        have hd : d ≠ .takeRender := by
          rintro rfl
          cases hasks
        refine (last.renderPending_perform hd).trans ?_
        rw [hasks, Bool.true_or]
      · rw [List.concat_eq_append, ← List.cons_append, ← List.append_assoc] at hlog
        obtain ⟨hbefore, hm⟩ := List.append_inj' hlog rfl
        obtain rfl : last = m' := List.head_eq_of_cons_eq hm
        have hd : d ≠ .takeRender := hafter last (by simp)
        have hpending := ih.mpr ⟨before, m, after, hbefore, hasks, fun m' hm' =>
          hafter m' (by simp [hm'])⟩
        refine (last.renderPending_perform hd).trans ?_
        rw [hpending, Bool.or_true]

theorem rendersScheduled_eq (deeds : List (Deed ω)) (s : Scope ω) :
    (performAll deeds s.idle).store.scheduler.rendersScheduled =
      (log deeds s.idle).countP Moment.granted +
        if (performAll deeds s.idle).store.scheduler.renderPending then 1 else 0 := by
  induction deeds using List.reverseRecOn with
  | nil => rfl
  | append_singleton deeds d ih =>
    let last : Moment ω := ⟨d, performAll deeds s.idle⟩
    rw [performAll_concat, log_concat, List.countP_append, List.countP_singleton]
    by_cases hd : d = .takeRender
    · subst hd
      -- The count stays, and what was pending has now been taken.
      exact ih
    · have hgranted : last.granted = false := by
        unfold Moment.granted
        split
        · rename_i htake
          exact absurd htake hd
        · rfl
      have hscheduled := last.rendersScheduled_perform hd
      have hpending := last.renderPending_perform hd
      refine hscheduled.trans ?_
      rw [hgranted, hpending, ih]
      change _ + (if (last.asks && !(performAll deeds s.idle).store.scheduler.renderPending) = true
        then 1 else 0) = _ + _ + if (last.asks ||
          (performAll deeds s.idle).store.scheduler.renderPending) = true then 1 else 0
      cases last.asks <;> cases (performAll deeds s.idle).store.scheduler.renderPending <;> simp

theorem renders_of_untaken {deeds : List (Deed ω)} (h : ∀ d ∈ deeds, d ≠ .takeRender) {s : Scope ω}
    (hs : s.store.scheduler.renderPending = false) :
    (performAll deeds s).store.scheduler.renders =
      ((log deeds s).any Moment.asks,
        s.store.scheduler.rendersScheduled + if (log deeds s).any Moment.asks then 1 else 0) := by
  induction deeds using List.reverseRecOn with
  | nil => exact congrArg (·, s.store.scheduler.rendersScheduled) hs
  | append_singleton deeds d ih =>
    let last : Moment ω := ⟨d, performAll deeds s⟩
    have hd : last.deed ≠ .takeRender := h d (by simp)
    obtain ⟨hpending, hscheduled⟩ := Prod.mk.inj (ih fun d' hd' => h d' (by simp [hd']))
    have hlast : (d.perform (performAll deeds s)).store.scheduler.renders =
        (last.asks || (log deeds s).any Moment.asks,
          (performAll deeds s).store.scheduler.rendersScheduled +
            if last.asks && !(log deeds s).any Moment.asks then 1 else 0) := by
      rw [← hpending]
      exact Prod.ext (last.renderPending_perform hd) (last.rendersScheduled_perform hd)
    rw [performAll_concat, log_concat, List.any_append, hlast, hscheduled]
    change _ = ((log deeds s).any Moment.asks || (last.asks || false), _ +
      if ((log deeds s).any Moment.asks || (last.asks || false)) = true then 1 else 0)
    cases last.asks <;> cases (log deeds s).any Moment.asks <;> rfl

end Deed

/-- Requests that have fallen together in the deeds of a log, at whose end there is a scope. -/
structure Moment.Coalesced (log : List (Moment ω)) (s : Scope ω) : Prop where
  scheduled_eq : s.store.scheduler.rendersScheduled =
    log.countP Moment.granted + if s.store.scheduler.renderPending then 1 else 0
  pending_iff : s.store.scheduler.renderPending = true ↔
    ∃ before m after, log = before ++ m :: after ∧ m.asks = true ∧
      ∀ m' ∈ after, m'.deed ≠ .takeRender
  /-- After a take one pass is scheduled if any is asked for, and none otherwise. -/
  scheduled_since : ∀ before m after, log = before ++ m :: after → m.deed = .takeRender →
    (∀ m' ∈ after, m'.deed ≠ .takeRender) → s.store.scheduler.rendersScheduled =
      m.scope.store.scheduler.rendersScheduled + if after.any Moment.asks then 1 else 0

/-- Whatever happens after a scheduler was made, its requests fall together. -/
theorem Deed.coalesced (deeds : List (Deed ω)) (s : Scope ω) :
    Moment.Coalesced (log deeds s.idle) (performAll deeds s.idle) where
  scheduled_eq := rendersScheduled_eq deeds s
  pending_iff := renderPending_iff deeds rfl
  scheduled_since := by
    rintro before ⟨d, t⟩ after hlog rfl hafter
    obtain ⟨deeds', deeds'', rfl, -, hscope, rfl⟩ := exists_of_mem_log hlog
    have huntaken : ∀ d ∈ deeds'', d ≠ .takeRender := by
      intro d hd
      rw [← map_deed_log deeds'' (takeRender.perform t)] at hd
      obtain ⟨m, hm, rfl⟩ := List.mem_map.mp hd
      exact hafter m hm
    have hrenders := renders_of_untaken huntaken (s := takeRender.perform t) rfl
    rw [performAll_append, hscope]
    exact congrArg Prod.snd hrenders

end ReactiveView
