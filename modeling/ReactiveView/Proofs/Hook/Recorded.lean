import ReactiveView.Proofs.Hook.Identity
import ReactiveView.Proofs.Hook.Writes

namespace ReactiveView

variable {ω : Type}

def SlotEvent.invoke (key : Coordinate) (slot : Nat) (held : Option (SlotCall ω)) :
    SlotEvent ω → Option (SlotCall ω)
  | described _ => held
  | called c =>
    if c.key = some key ∧ c.slot = slot then
      if c.leaves then some c else if c.kind = .deps then held else none
    else held
  | cleaned other => if other = some key then none else held

/-- The call that left an effect from a slot last, if neither the bucket has been emptied nor the
slot taken by another kind of hook since. -/
def invoked? (key : Coordinate) (slot : Nat) (events : List (SlotEvent ω)) : Option (SlotCall ω) :=
  events.foldl (SlotEvent.invoke key slot) none

theorem invoked?_concat (key : Coordinate) (slot : Nat) (events : List (SlotEvent ω))
    (e : SlotEvent ω) :
    invoked? key slot (events ++ [e]) = e.invoke key slot (invoked? key slot events) :=
  List.foldl_append

namespace Moment

def recorded? (key : Coordinate) (slot : Nat) (log : List (Moment ω)) : Option Value :=
  (invoked? key slot (events log)).bind fun c => c.use.deps?

/-- Whether a cell is given out as that of a state or a ref, or written as one. -/
def touches (cell : CellId) (m : Moment ω) : Bool :=
  match m.deed with
  | .set state _ => state.cell == cell
  | .put ref _ => ref.cell == cell
  | .call use => use.deps?.isNone && (⟨use, m.scope⟩ : SlotCall ω).cell == cell
  | _ => false

theorem events_concat (log : List (Moment ω)) (m : Moment ω) :
    events (log ++ [m]) = events log ++ m.event?.toList := by
  rw [events, List.filterMap_append, ← events]
  cases h : m.event? with
  | none => rw [List.filterMap_cons_none h, List.filterMap_nil, Option.toList_none]
  | some e => rw [List.filterMap_cons_some h, List.filterMap_nil, Option.toList_some]

theorem written?_of_untouched {m : Moment ω} {cell : CellId} (h : m.touches cell = false)
    (hevent : m.event? = none) : m.written? ≠ some cell := by
  obtain ⟨d, s⟩ := m
  cases d with
  | set state f =>
    intro hwritten
    have hne : state.cell ≠ cell := by simpa [touches] using h
    rw [written?] at hwritten
    dsimp only at hwritten
    split at hwritten
    · cases hwritten
    · exact hne (Option.some.inj hwritten)
  | put ref content =>
    intro hwritten
    have hne : ref.cell ≠ cell := by simpa [touches] using h
    exact hne (Option.some.inj hwritten)
  | call use => cases hevent
  | load | reset | clean | handler | alter | request | defer | deferAsync | takeRender | takeEffects
  | takeAsync | finish => exact fun hwritten => by cases hwritten

end Moment

/-- What the cell of a slot tells of the effects that were left from it. -/
structure Scope.Records (log : List (Moment ω)) (s : Scope ω) (key : Coordinate) (n : Nat) : Prop where
  read_eq : ∀ c, latest? key n (Moment.events log) = some c → c.kind = .deps →
    (∀ m ∈ log, m.touches c.cell = false) →
      s.store.cells.read c.cell = .deps (Moment.recorded? key n log)
  recorded_eq : (∀ c, latest? key n (Moment.events log) = some c → c.kind ≠ .deps) →
    Moment.recorded? key n log = none

theorem SlotUse.initial_of_deps? {use : SlotUse ω} {deps : Value} (h : use.deps? = some deps) :
    use.initial = .deps none := by
  cases use with
  | state | ref => cases h
  | effect | effectAsync => rfl

theorem SlotCall.events_concat (log : List (Moment ω)) (c : SlotCall ω) :
    Moment.events (log ++ [c.moment]) = Moment.events log ++ [.called c] :=
  Moment.events_concat log c.moment

theorem SlotCall.recorded?_of_dropped {c : SlotCall ω} (h : c.leaves = false) (hkind : c.kind = .deps)
    (before : List (Moment ω)) (key : Coordinate) (n : Nat) :
    Moment.recorded? key n (before ++ [c.moment]) = Moment.recorded? key n before := by
  have hevents := c.events_concat before
  rw [Moment.recorded?, hevents, invoked?_concat, SlotEvent.invoke, h, if_neg Bool.false_ne_true,
    if_pos hkind, ite_self]
  rfl

namespace Scope.Records

variable {log : List (Moment ω)} {key : Coordinate} {n : Nat}

theorem content_eq {c : SlotCall ω} (h : Records log c.scope key c.slot)
    (htold : Told (Moment.events log) c.scope) (hkey : c.key = some key)
    (hinitial : c.use.initial = .deps none) (hcell : ∀ m ∈ log, m.touches c.cell = false) :
    c.content = .deps (Moment.recorded? key c.slot log) := by
  have hkind : c.kind = .deps := congrArg Datum.kind hinitial
  by_cases hlatest : ∃ d, latest? key c.slot (Moment.events log) = some d ∧ d.kind = .deps
  · obtain ⟨d, hd, hk⟩ := hlatest
    obtain ⟨hsame, hcontent⟩ := htold.cell_of_latest hkey hd (hk.trans hkind.symm)
    rw [hsame] at hcell
    exact hcontent.trans (h.read_eq d hd hk hcell)
  · have hother : ∀ d, latest? key c.slot (Moment.events log) = some d → d.kind ≠ .deps :=
      fun d hd hk => hlatest ⟨d, hd, hk⟩
    have hfresh := htold.fresh_of_latest hkey fun d hd hk => hother d hd (hk.trans hkind)
    rw [hfresh.content_eq, hinitial, h.recorded_eq hother]

variable {s : Scope ω}

theorem of_event?_none (h : Records log s key n) (htold : Told (Moment.events log) s) {d : Deed ω}
    (hevent : (⟨d, s⟩ : Moment ω).event? = none) : Records (log ++ [⟨d, s⟩]) (d.perform s) key n := by
  have hevents : Moment.events (log ++ [⟨d, s⟩]) = Moment.events log := by
    rw [Moment.events_concat, hevent]
    exact List.append_nil _
  refine ⟨fun c hc hk hcell => ?_, fun hother => ?_⟩
  · rw [hevents] at hc
    have hlt := htold.cell_lt c (mem_of_latest? hc)
    have hwritten := Moment.written?_of_untouched (hcell ⟨d, s⟩ (by simp)) hevent
    rw [Moment.recorded?, hevents]
    exact ((⟨d, s⟩ : Moment ω).read_perform hlt hwritten).trans
      (h.read_eq c hc hk fun m hm => hcell m (List.mem_append_left _ hm))
  · rw [hevents] at hother
    rw [Moment.recorded?, hevents]
    exact h.recorded_eq hother

theorem of_call_at {c : SlotCall ω} (h : Records log c.scope key c.slot)
    (htold : Told (Moment.events log) c.scope) (hkey : c.key = some key) :
    Records (log ++ [c.moment]) c.after key c.slot := by
  have hevents := c.events_concat log
  have hinvoked : invoked? key c.slot (Moment.events (log ++ [c.moment])) =
      if c.leaves then some c else if c.kind = .deps then invoked? key c.slot (Moment.events log)
      else none := by
    rw [hevents, invoked?_concat, SlotEvent.invoke, if_pos ⟨hkey, rfl⟩]
  have hlatest : latest? key c.slot (Moment.events (log ++ [c.moment])) = some c := by
    rw [hevents, latest?_concat, SlotEvent.hold, if_pos ⟨hkey, rfl⟩]
  obtain ⟨-, hlt, hkind⟩ := htold.grown_taken
  refine ⟨fun d hd hk hcell => ?_, fun hother => ?_⟩
  · cases hlatest.symm.trans hd
    rw [Moment.recorded?, hinvoked]
    obtain ⟨hleaves, deps, hdeps, hcells⟩ | ⟨hleaves, hafter⟩ := c.after_cases
    · have hsame : (c.taken.2.store.cells.read c.cell).kind = (Datum.deps (some deps)).kind :=
        hkind.trans hk
      rw [if_pos hleaves, hcells, Cells.read_write _ _ hlt hsame, if_pos rfl, Option.bind_some, hdeps]
    · have htouches : (c.use.deps?.isNone && c.cell == c.cell) = false := hcell c.moment (by simp)
      obtain ⟨deps, hdeps⟩ : ∃ deps, c.use.deps? = some deps := by
        simpa [Option.eq_none_iff_forall_not_mem, Option.isSome_iff_exists] using htouches
      rw [hleaves, if_neg Bool.false_ne_true, if_pos hk, hafter]
      exact h.content_eq htold hkey (SlotUse.initial_of_deps? hdeps) fun m hm =>
        hcell m (List.mem_append_left _ hm)
  · have hk := hother c hlatest
    obtain ⟨-, deps, hdeps, -⟩ | ⟨hleaves, -⟩ := c.after_cases
    · exact absurd (congrArg Datum.kind (SlotUse.initial_of_deps? hdeps)) hk
    · rw [Moment.recorded?, hinvoked, hleaves, if_neg Bool.false_ne_true, if_neg hk]
      rfl

theorem of_call_beside {c : SlotCall ω} (h : Records log c.scope key n)
    (harises : Arises (Moment.events log) c.scope) (hplace : ¬(c.key = some key ∧ c.slot = n)) :
    Records (log ++ [c.moment]) c.after key n := by
  have hevents := c.events_concat log
  have hrecorded : Moment.recorded? key n (log ++ [c.moment]) = Moment.recorded? key n log := by
    rw [Moment.recorded?, hevents, invoked?_concat, SlotEvent.invoke, if_neg hplace]
    rfl
  have hlatest : latest? key n (Moment.events (log ++ [c.moment])) =
      latest? key n (Moment.events log) := by
    rw [hevents, latest?_concat, SlotEvent.hold, if_neg hplace]
  have htold := harises.told
  refine ⟨fun d hd hk hcell => ?_, fun hother => ?_⟩
  · rw [hlatest] at hd
    have hlt := htold.cell_lt d (mem_of_latest? hd)
    -- The cell of the call is that of another slot, or it is new.
    have hne : c.cell ≠ d.cell := by
      obtain ⟨other, e, hkey, he, hkept, -⟩ | hnew := htold.kept_cases
      · intro hsame
        obtain ⟨rfl, rfl⟩ := harises.latest?_inj he hd ((SlotCall.kept_eq_iff.mp hkept).1.trans hsame)
        exact hplace ⟨hkey, rfl⟩
      · rw [hnew]
        exact Nat.ne_of_gt hlt
    have hwritten : c.moment.written? ≠ some d.cell := by
      intro hwritten
      change (if c.leaves then some c.cell else none) = some d.cell at hwritten
      split at hwritten
      · exact hne (Option.some.inj hwritten)
      · cases hwritten
    rw [hrecorded]
    exact (c.moment.read_perform hlt hwritten).trans
      (h.read_eq d hd hk fun m hm => hcell m (List.mem_append_left _ hm))
  · rw [hlatest] at hother
    rw [hrecorded]
    exact h.recorded_eq hother

theorem of_clean (h : Records log s key n) :
    Records (log ++ [⟨.clean, s⟩]) (Deed.clean.perform s) key n := by
  have hevents : Moment.events (log ++ [⟨.clean, s⟩]) =
      Moment.events log ++ [.cleaned s.registry.active] := Moment.events_concat log ⟨.clean, s⟩
  by_cases hactive : s.registry.active = some key
  · have hinvoked : invoked? key n (Moment.events (log ++ [⟨.clean, s⟩])) = none := by
      rw [hevents, invoked?_concat, SlotEvent.invoke, if_pos hactive]
    refine ⟨fun c hc => ?_, fun hother => ?_⟩
    · rw [hevents, latest?_concat, SlotEvent.hold, if_pos hactive] at hc
      cases hc
    · rw [Moment.recorded?, hinvoked]
      rfl
  · have hinvoked : invoked? key n (Moment.events (log ++ [⟨.clean, s⟩])) =
        invoked? key n (Moment.events log) := by
      rw [hevents, invoked?_concat, SlotEvent.invoke, if_neg hactive]
    have hlatest : latest? key n (Moment.events (log ++ [⟨.clean, s⟩])) =
        latest? key n (Moment.events log) := by
      rw [hevents, latest?_concat, SlotEvent.hold, if_neg hactive]
    refine ⟨fun c hc hk hcell => ?_, fun hother => ?_⟩
    · rw [hlatest] at hc
      rw [Moment.recorded?, hinvoked]
      exact h.read_eq c hc hk fun m hm => hcell m (List.mem_append_left _ hm)
    · rw [hlatest] at hother
      rw [Moment.recorded?, hinvoked]
      exact h.recorded_eq hother

theorem perform (h : Records log s key n) (harises : Arises (Moment.events log) s) (d : Deed ω) :
    Records (log ++ [⟨d, s⟩]) (d.perform s) key n := by
  cases d with
  | call use =>
    by_cases hplace : (⟨use, s⟩ : SlotCall ω).key = some key ∧ (⟨use, s⟩ : SlotCall ω).slot = n
    · obtain ⟨hkey, rfl⟩ := hplace
      exact of_call_at (c := ⟨use, s⟩) h harises.told hkey
    · exact of_call_beside (c := ⟨use, s⟩) h harises hplace
  | clean => exact h.of_clean
  | load | reset | handler | alter | set | put | request | defer | deferAsync | takeRender
  | takeEffects | takeAsync | finish => exact h.of_event?_none harises.told rfl

end Scope.Records

theorem Deed.records_log (host : ω) (deeds : List (Deed ω)) (key : Coordinate) (n : Nat) :
    Scope.Records (log deeds (.start host)) (performAll deeds (.start host)) key n := by
  induction deeds using List.reverseRecOn with
  | nil => exact ⟨fun c hc => (by cases hc), fun _ => rfl⟩
  | append_singleton deeds d ih =>
    rw [log_concat, performAll_concat]
    exact ih.perform (arises_log host deeds) d

def SlotCall.recorded? (before : List (Moment ω)) (c : SlotCall ω) : Option Value :=
  c.key.bind fun key => Moment.recorded? key c.slot before

/-- An effect finds in its cell what is recorded for it, as long as the cell is not given out as
that of a state or a ref. -/
theorem Deed.content_of_log {host : ω} {deeds : List (Deed ω)} {before after : List (Moment ω)}
    {c : SlotCall ω} (h : log deeds (.start host) = before ++ c.moment :: after)
    (hinitial : c.use.initial = .deps none) (hcell : ∀ m ∈ before, m.touches c.cell = false) :
    c.content = .deps (c.recorded? before) := by
  rw [SlotCall.recorded?]
  cases hkey : c.key with
  | none =>
    have hserved := served_of_log h
    have hnew := (hserved.fresh fun key d hsome => by cases hkey.symm.trans hsome).1
    exact hnew.content_eq.trans hinitial
  | some key =>
    have htold := told_of_log h
    obtain ⟨deeds', deeds'', -, rfl, hscope, -⟩ := exists_of_mem_log h
    have hrecords := records_log host deeds' key c.slot
    rw [hscope] at hrecords
    exact hrecords.content_eq htold hkey hinitial hcell

end ReactiveView
