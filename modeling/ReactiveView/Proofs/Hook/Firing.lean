import ReactiveView.Proofs.Hook.Recorded
import ReactiveView.Proofs.Value.Equality

namespace ReactiveView

variable {ω : Type}

/-- If an effect was the last to take a slot, what is recorded there is equal to the same values as
its dependencies. -/
def Moment.Alike (log : List (Moment ω)) (key : Coordinate) (n : Nat) : Prop :=
  ∀ d deps program, latest? key n (events log) = some d → d.use = .effect deps program →
    (∀ m ∈ log, m.touches d.cell = false) →
      ∃ r, recorded? key n log = some r ∧ ∀ x : Value, (r == x) = (deps == x)

namespace Moment.Alike

variable {log : List (Moment ω)} {key : Coordinate} {n : Nat}

theorem of_same {m : Moment ω} (h : Alike log key n)
    (hlatest : latest? key n (events (log ++ [m])) = latest? key n (events log))
    (hinvoked : invoked? key n (events (log ++ [m])) = invoked? key n (events log)) :
    Alike (log ++ [m]) key n := by
  intro d deps program hd huse hcell
  rw [recorded?, hinvoked]
  exact h d deps program (hlatest ▸ hd) huse fun m hm => hcell m (List.mem_append_left _ hm)

theorem of_call {c : SlotCall ω} (hkey : c.key = some key)
    (hcontent : c.use.initial = .deps none → (∀ m ∈ log, m.touches c.cell = false) →
      c.content = .deps (recorded? key c.slot log)) : Alike (log ++ [c.moment]) key c.slot := by
  have hplace : c.key = some key ∧ c.slot = c.slot := ⟨hkey, rfl⟩
  intro d deps program hd huse hcell
  rw [c.events_concat, latest?_concat, SlotEvent.hold, if_pos hplace] at hd
  obtain rfl := Option.some.inj hd
  cases hleaves : c.leaves with
  | true =>
    rw [recorded?, c.events_concat, invoked?_concat, SlotEvent.invoke, if_pos hplace, if_pos hleaves,
      Option.bind_some, huse]
    exact ⟨deps, rfl, fun _ => rfl⟩
  | false =>
    have hkind : c.use.initial = .deps none := by rw [huse]; rfl
    have hfound := hcontent hkind fun m hm => hcell m (List.mem_append_left _ hm)
    rw [SlotCall.recorded?_of_dropped hleaves (congrArg Datum.kind hkind)]
    obtain ⟨use, s⟩ := c
    cases huse
    rw [SlotCall.leaves_effect, hfound] at hleaves
    cases hr : recorded? key (SlotCall.slot ⟨.effect deps program, s⟩) log with
    | none =>
      rw [hr] at hleaves
      cases hleaves
    | some r =>
      rw [hr] at hleaves
      exact ⟨r, rfl, Value.beq_congr ((Bool.not_eq_false' _).mp hleaves)⟩

end Moment.Alike

theorem Deed.alike_log (host : ω) (deeds : List (Deed ω)) (key : Coordinate) (n : Nat) :
    Moment.Alike (log deeds (.start host)) key n := by
  induction deeds using List.reverseRecOn with
  | nil => exact fun d deps program hd => by cases hd
  | append_singleton deeds x ih =>
    rw [log_concat]
    generalize hs : performAll deeds (.start host) = s
    have hevents := Moment.events_concat (log deeds (.start host)) ⟨x, s⟩
    cases x with
    | call use =>
      let c : SlotCall ω := ⟨use, s⟩
      by_cases hplace : c.key = some key ∧ c.slot = n
      · obtain ⟨hkey, rfl⟩ := hplace
        refine .of_call (c := c) hkey fun hinitial hcell => ?_
        have hrecords := records_log host deeds key c.slot
        have harises := arises_log host deeds
        rw [hs] at hrecords harises
        exact hrecords.content_eq harises.told hkey hinitial hcell
      · refine ih.of_same ?_ ?_ <;> rw [hevents]
        · exact (latest?_concat ..).trans (if_neg hplace)
        · exact (invoked?_concat ..).trans (if_neg hplace)
    | clean =>
      by_cases hactive : s.registry.active = some key
      · intro d deps program hd
        have hnone := latest?_concat key n (Moment.events (log deeds (.start host)))
          (.cleaned s.registry.active)
        rw [SlotEvent.hold, if_pos hactive] at hnone
        cases hnone.symm.trans (hevents ▸ hd)
      · refine ih.of_same ?_ ?_ <;> rw [hevents]
        · exact (latest?_concat ..).trans (if_neg hactive)
        · exact (invoked?_concat ..).trans (if_neg hactive)
    | load | reset | handler | alter | set | put | request | defer | deferAsync | takeRender
    | takeEffects | takeAsync | finish =>
      have hsame := hevents.trans (List.append_nil _)
      exact ih.of_same (by rw [hsame]) (by rw [hsame])

/-- The evaluation of the slot of a call before it, if the bucket has not been emptied since. -/
def SlotCall.previous? (before : List (Moment ω)) (c : SlotCall ω) : Option (SlotCall ω) :=
  c.key.bind fun key => latest? key c.slot (Moment.events before)

/-- A slot is evaluated through effects that are not asynchronous: no handle of its cell is given out
or written through, and the last evaluation was not that of an asynchronous effect. -/
structure SlotCall.Plain (before : List (Moment ω)) (c : SlotCall ω) : Prop where
  untouched : ∀ m ∈ before, m.touches c.cell = false
  sync : ∀ d, c.previous? before = some d → ∀ deps program, d.use ≠ .effectAsync deps program

theorem Moment.mem_of_called {log : List (Moment ω)} {c : SlotCall ω}
    (h : .called c ∈ events log) : c.moment ∈ log := by
  obtain ⟨⟨d, s⟩, hm, he⟩ := List.mem_filterMap.mp h
  cases d with
  | call use =>
    cases he
    exact hm
  | clean => cases he
  | load | reset | handler | alter | set | put | request | defer | deferAsync | takeRender
  | takeEffects | takeAsync | finish => cases he

theorem SlotCall.Plain.exists_effect {before : List (Moment ω)} {c d : SlotCall ω}
    (h : c.Plain before) (hd : c.previous? before = some d) (hcell : c.cell = d.cell)
    (hmem : .called d ∈ Moment.events before) : ∃ deps program, d.use = .effect deps program := by
  have htouches := h.untouched _ (Moment.mem_of_called hmem)
  have hsync := h.sync d hd
  obtain ⟨use, s⟩ := d
  cases use with
  | state initial | ref initial =>
    rw [hcell] at htouches
    exact absurd htouches (by simp [SlotCall.moment, Moment.touches, SlotUse.deps?])
  | effect deps program => exact ⟨deps, program, rfl⟩
  | effectAsync deps program => exact absurd rfl (hsync deps program)

theorem SlotCall.previous?_eq_latest? {c : SlotCall ω} {key : Coordinate} (hkey : c.key = some key)
    (before : List (Moment ω)) : c.previous? before = latest? key c.slot (Moment.events before) := by
  rw [previous?, hkey]
  rfl

section

variable {host : ω} {deeds : List (Deed ω)} {before after : List (Moment ω)} {c : SlotCall ω}

/-- What is recorded for a call of an effect is compared with dependencies as those of the
evaluation before are, though it may be that of an earlier one. -/
theorem Deed.recorded_cases (h : log deeds (.start host) = before ++ c.moment :: after)
    (hinitial : c.use.initial = .deps none) (hplain : c.Plain before) :
    (∃ d old r, c.previous? before = some d ∧ d.use.deps? = some old ∧
      c.recorded? before = some r ∧ ∀ x : Value, (r == x) = (old == x)) ∨
    (c.recorded? before = none ∧ ∀ d, c.previous? before = some d → d.use.deps? = none) := by
  cases hkey : c.key with
  | none =>
    rw [SlotCall.recorded?, SlotCall.previous?, hkey]
    exact .inr ⟨rfl, fun d hd => by cases hd⟩
  | some key =>
    have htold := told_of_log h
    have hprevious := SlotCall.previous?_eq_latest? hkey before
    obtain ⟨deeds', -, -, rfl, -⟩ := exists_of_mem_log h
    rw [SlotCall.recorded?, hkey, hprevious, Option.bind_some]
    by_cases hlatest : ∃ d, latest? key c.slot (Moment.events (log deeds' (.start host))) = some d ∧
        d.kind = .deps
    · obtain ⟨d, hd, hk⟩ := hlatest
      have hcell : c.cell = d.cell :=
        (htold.cell_of_latest hkey hd (hk.trans (congrArg Datum.kind hinitial).symm)).1
      obtain ⟨old, earlier, hold⟩ := hplain.exists_effect (hprevious.trans hd) hcell (mem_of_latest? hd)
      obtain ⟨r, hr, hbeq⟩ := alike_log host deeds' key c.slot d old earlier hd hold
        (hcell ▸ hplain.untouched)
      exact .inl ⟨d, old, r, hd, by rw [hold]; rfl, hr, hbeq⟩
    · have hother : ∀ d, latest? key c.slot (Moment.events (log deeds' (.start host))) = some d →
          d.kind ≠ .deps := fun d hd hk => hlatest ⟨d, hd, hk⟩
      refine .inr ⟨(records_log host deeds' key c.slot).recorded_eq hother, fun d hd => ?_⟩
      refine Option.eq_none_iff_forall_ne_some.mpr fun old hdeps => ?_
      exact hother d hd (congrArg Datum.kind (SlotUse.initial_of_deps? hdeps))

/-- An effect is left exactly if its slot is new, or was of another kind before, or has been emptied,
or was last evaluated with other dependencies. -/
theorem Deed.effect_leaves_iff {deps : Value} {program : Program ω .sync}
    (h : log deeds (.start host) = before ++ c.moment :: after) (huse : c.use = .effect deps program)
    (hplain : c.Plain before) : c.leaves = true ↔
      ∀ d old, c.previous? before = some d → d.use.deps? = some old → (old == deps) = false := by
  have hinitial : c.use.initial = .deps none := by rw [huse]; rfl
  have hleaves : c.leaves = Scope.depsChanged c.content deps := by
    obtain ⟨use, s⟩ := c
    cases huse
    exact SlotCall.leaves_effect deps program s
  rw [hleaves, content_of_log h hinitial hplain.untouched, Scope.depsChanged_iff]
  obtain ⟨d, old, r, hd, hold, hr, hbeq⟩ | ⟨hr, hnone⟩ := recorded_cases h hinitial hplain
  · rw [hr, hd]
    constructor
    · rintro hall _ _ ⟨⟩ hdeps
      cases hold.symm.trans hdeps
      exact (hbeq deps).symm.trans (hall r rfl)
    · rintro hall _ ⟨⟩
      exact (hbeq deps).trans (hall d old rfl hold)
  · rw [hr]
    refine iff_of_true (fun r hr => by cases hr) fun d old hd hdeps => ?_
    cases (hnone d hd).symm.trans hdeps

end

end ReactiveView
