import Mathlib.Data.List.Induction
import ReactiveView.Proofs.Hook.Buckets
import ReactiveView.Proofs.Hook.Calls

namespace ReactiveView

variable {ω α : Type}

namespace SlotEvent

def hold (key : Coordinate) (slot : Nat) (held : Option (SlotCall ω)) :
    SlotEvent ω → Option (SlotCall ω)
  | described _ => held
  | called c => if c.key = some key ∧ c.slot = slot then some c else held
  | cleaned other => if other = some key then none else held

end SlotEvent

/-- The last call that took a slot, if the bucket has not been emptied since. -/
def latest? (key : Coordinate) (slot : Nat) (events : List (SlotEvent ω)) : Option (SlotCall ω) :=
  events.foldl (SlotEvent.hold key slot) none

theorem latest?_concat (key : Coordinate) (slot : Nat) (events : List (SlotEvent ω))
    (e : SlotEvent ω) :
    latest? key slot (events ++ [e]) = e.hold key slot (latest? key slot events) :=
  List.foldl_append

theorem latest?_of_cleaned {key : Coordinate} {n : Nat} (before : List (SlotEvent ω))
    {between : List (SlotEvent ω)}
    (hfirst : ∀ d, .called d ∈ between → d.key = some key → d.slot ≠ n) :
    latest? key n (before ++ .cleaned (some key) :: between) = none := by
  induction between using List.reverseRecOn with
  | nil => rw [latest?_concat, SlotEvent.hold, if_pos rfl]
  | append_singleton between e ih =>
    have hnone := ih fun d hd => hfirst d (List.mem_append_left _ hd)
    rw [← List.cons_append, ← List.append_assoc, latest?_concat, hnone]
    cases e with
    | described other => rfl
    | called d =>
      have hother : ¬(d.key = some key ∧ d.slot = n) := fun hplace =>
        hfirst d (List.mem_append_right _ (List.mem_singleton_self _)) hplace.1 hplace.2
      rw [SlotEvent.hold, if_neg hother]
    | cleaned other =>
      rw [SlotEvent.hold]
      split <;> rfl

/-- A scope comes about by events, with nothing else done to the buckets than to load them. The cells
may be written at any time. -/
inductive Scope.Arises : List (SlotEvent ω) → Scope ω → Prop
  | start (host : ω) : Arises [] ⟨Registry.empty, Store.start host⟩
  | reset {events : List (SlotEvent ω)} {s : Scope ω} (h : Arises events s) :
      Arises events { s with registry := s.registry.reset }
  | load {events : List (SlotEvent ω)} {s : Scope ω} (h : Arises events s) (key : Coordinate) :
      Arises events { s with registry := s.registry.load key }
  | store {events : List (SlotEvent ω)} {s : Scope ω} (h : Arises events s) {store : Store ω}
      (hg : s.store.cells.Grown store.cells) : Arises events { s with store := store }
  | describe {events : List (SlotEvent ω)} {s : Scope ω} (h : Arises events s) :
      Arises (events ++ [.described s.registry.active]) s
  | call {events : List (SlotEvent ω)} {c : SlotCall ω} (h : Arises events c.scope) :
      Arises (events ++ [.called c]) c.taken.2
  | clean {events : List (SlotEvent ω)} {s : Scope ω} (h : Arises events s) :
      Arises (events ++ [.cleaned s.registry.active]) { s with registry := s.registry.clean }

/-- What events tell of a scope: each slot holds the cell of the last call that took it, and every
call got a cell of its kind. -/
structure Scope.Told (events : List (SlotEvent ω)) (s : Scope ω) : Prop where
  held : ∀ key n, s.registry.cellAt key n = (latest? key n events).map SlotCall.cell
  cell_lt : ∀ c, .called c ∈ events → c.cell < s.store.cells.contents.size
  kind_eq : ∀ c, .called c ∈ events → (s.store.cells.read c.cell).kind = c.kind
  inStep : s.registry.InStep

theorem mem_of_latest? {key : Coordinate} {n : Nat} {events : List (SlotEvent ω)} {c : SlotCall ω}
    (h : latest? key n events = some c) : .called c ∈ events := by
  induction events using List.reverseRecOn with
  | nil => cases h
  | append_singleton events e ih =>
    rw [latest?_concat] at h
    apply List.mem_append.mpr
    cases e with
    | described _ => exact .inl (ih h)
    | called d =>
      simp only [SlotEvent.hold] at h
      split at h
      · cases h
        exact .inr (List.mem_singleton_self _)
      · exact .inl (ih h)
    | cleaned other =>
      simp only [SlotEvent.hold] at h
      split at h
      · cases h
      · exact .inl (ih h)

namespace Scope.Told

variable {events : List (SlotEvent ω)} {key : Coordinate} {c : SlotCall ω}

/-- A call gets the cell of the last call that took its slot, if that was of its kind, and else a
new one, which is then in the slot. -/
theorem call_cases (h : Told events c.scope) :
    (∃ key d, c.key = some key ∧ latest? key c.slot events = some d ∧ d.kind = c.kind ∧
      c.taken.2.registry.InStep ∧
      c.taken = (d.cell,
        { c.scope with registry := { c.scope.registry with cursor := c.scope.registry.cursor + 1 } })) ∨
    (∀ key d, c.key = some key → latest? key c.slot events = some d → d.kind ≠ c.kind) ∧
      c.taken.2.registry.InStep ∧
      (∀ key n, c.taken.2.registry.cellAt key n = if c.key = some key ∧ c.slot = n
        then some c.scope.store.cells.contents.size else c.scope.registry.cellAt key n) ∧
      c.cell = c.scope.store.cells.contents.size ∧
      c.taken.2.store.cells = (c.scope.store.cells.make c.use.initial).2 := by
  obtain ⟨key, cell, hactive, hcell, hk, hstep, hnext⟩ | ⟨hother, registry, hstep, hcells, hnext⟩ :=
    Registry.next_cases h.inStep c.scope.store.cells c.use.initial
  · rw [h.held] at hcell
    obtain ⟨d, hd, rfl⟩ := Option.map_eq_some_iff.mp hcell
    have htaken : c.taken = (d.cell, { c.scope with
        registry := { c.scope.registry with cursor := c.scope.registry.cursor + 1 } }) := by
      rw [SlotCall.taken, Scope.slot, hnext]
    exact .inl ⟨key, d, hactive, hd, (h.kind_eq d (mem_of_latest? hd)).symm.trans hk,
      by rw [htaken]; exact hstep, htaken⟩
  · have htaken : c.taken = (c.scope.store.cells.contents.size, ⟨registry,
        { c.scope.store with cells := (c.scope.store.cells.make c.use.initial).2 }⟩) := by
      rw [SlotCall.taken, Scope.slot, hnext]
    rw [SlotCall.cell, htaken]
    refine .inr ⟨fun key d hactive hd hk => ?_, hstep, hcells, rfl, rfl⟩
    apply hother key d.cell hactive
    · rw [h.held]
      exact congrArg (Option.map SlotCall.cell) hd
    · exact (h.kind_eq d (mem_of_latest? hd)).trans hk

theorem cell_of_latest {d : SlotCall ω} (h : Told events c.scope) (hkey : c.key = some key)
    (hd : latest? key c.slot events = some d) (hk : d.kind = c.kind) :
    c.cell = d.cell ∧ c.content = c.scope.store.get d.setter := by
  obtain ⟨other, e, hactive, he, -, -, htaken⟩ | ⟨hother, -⟩ := h.call_cases
  · cases hkey.symm.trans hactive
    cases hd.symm.trans he
    have hcell : c.cell = d.cell := congrArg (fun r => r.1) htaken
    refine ⟨hcell, ?_⟩
    rw [SlotCall.content, hcell, htaken]
    rfl
  · exact absurd hk (hother key d hkey hd)

theorem fresh_of_latest (h : Told events c.scope) (hkey : c.key = some key)
    (hd : ∀ d, latest? key c.slot events = some d → d.kind ≠ c.kind) : c.Fresh := by
  obtain ⟨other, e, hactive, he, hk, -⟩ | ⟨-, -, -, hcell, hcells⟩ := h.call_cases
  · cases hkey.symm.trans hactive
    exact absurd hk (hd e he)
  · apply SlotCall.Fresh.of_content hcell
    rw [SlotCall.content, hcell, hcells, Cells.read_make, if_pos rfl]

theorem grown_taken (h : Told events c.scope) :
    c.scope.store.cells.Grown c.taken.2.store.cells ∧
      c.cell < c.taken.2.store.cells.contents.size ∧
      (c.taken.2.store.cells.read c.cell).kind = c.kind := by
  obtain ⟨key, d, -, hd, hk, -, htaken⟩ | ⟨-, -, -, hcell, hcells⟩ := h.call_cases
  · have hmem := mem_of_latest? hd
    rw [SlotCall.cell, htaken]
    exact ⟨.refl _, h.cell_lt d hmem, (h.kind_eq d hmem).trans hk⟩
  · rw [hcell, hcells]
    refine ⟨Cells.grown_make _ _, ?_, ?_⟩
    · rw [Cells.size_make]
      exact Nat.lt_succ_self _
    · rw [Cells.read_make, if_pos rfl]
      rfl

theorem held_taken (h : Told events c.scope) (key : Coordinate) (n : Nat) :
    c.taken.2.registry.cellAt key n =
      (latest? key n (events ++ [.called c])).map SlotCall.cell := by
  rw [latest?_concat, SlotEvent.hold]
  obtain ⟨other, d, hkey, hd, hk, -, htaken⟩ | ⟨-, -, hcells, hcell, -⟩ := h.call_cases
  · have hcell : c.cell = d.cell := congrArg (fun r => r.1) htaken
    have hsame : c.taken.2.registry.cellAt key n = c.scope.registry.cellAt key n := by
      rw [htaken]
      rfl
    rw [hsame, h.held]
    split
    · rename_i hplace
      obtain ⟨hactive, rfl⟩ := hplace
      cases hkey.symm.trans hactive
      rw [hd, Option.map_some, Option.map_some, hcell]
    · rfl
  · rw [hcells, h.held]
    split
    · rw [Option.map_some, hcell]
    · rfl

theorem call (h : Told events c.scope) : Told (events ++ [.called c]) c.taken.2 := by
  obtain ⟨hgrown, hlt, hk⟩ := h.grown_taken
  have hstep : c.taken.2.registry.InStep := by
    obtain ⟨-, -, -, -, -, hstep, -⟩ | ⟨-, hstep, -⟩ := h.call_cases <;> exact hstep
  refine ⟨h.held_taken, fun d hd => ?_, fun d hd => ?_, hstep⟩
  · rcases List.mem_append.mp hd with hd | hd
    · exact Nat.lt_of_lt_of_le (h.cell_lt d hd) hgrown.size_le
    · cases List.mem_singleton.mp hd
      exact hlt
  · rcases List.mem_append.mp hd with hd | hd
    · rw [hgrown.kind_eq _ (h.cell_lt d hd), h.kind_eq d hd]
    · cases List.mem_singleton.mp hd
      exact hk

end Scope.Told

theorem Scope.Arises.told {events : List (SlotEvent ω)} {s : Scope ω} (h : Arises events s) :
    Told events s := by
  induction h with
  | start host =>
    refine ⟨fun key n => rfl, fun c hc => ?_, fun c hc => ?_, fun key hkey => (by cases hkey)⟩
    all_goals cases hc
  | reset h ih => exact ⟨ih.held, ih.cell_lt, ih.kind_eq, Registry.inStep_reset _⟩
  | load h key ih =>
    refine ⟨fun other n => ?_, ih.cell_lt, ih.kind_eq, Registry.inStep_load _ _⟩
    rw [Registry.cellAt_load, ih.held]
  | store h hg ih =>
    refine ⟨ih.held, fun c hc => ?_, fun c hc => ?_, ih.inStep⟩
    · exact Nat.lt_of_lt_of_le (ih.cell_lt c hc) hg.size_le
    · rw [hg.kind_eq _ (ih.cell_lt c hc), ih.kind_eq c hc]
  | describe h ih =>
    refine ⟨fun key n => ?_, fun c hc => ih.cell_lt c (by simpa using hc),
      fun c hc => ih.kind_eq c (by simpa using hc), ih.inStep⟩
    rw [latest?_concat, ih.held]
    rfl
  | call h ih => exact ih.call
  | @clean events s h ih =>
    refine ⟨fun key n => ?_, fun c hc => ih.cell_lt c (by simpa using hc),
      fun c hc => ih.kind_eq c (by simpa using hc), Registry.inStep_clean ih.inStep⟩
    rw [latest?_concat, SlotEvent.hold]
    cases hactive : s.registry.active with
    | none =>
      rw [if_neg fun hn => (by cases hn), ← ih.held, Registry.clean, hactive]
      rfl
    | some other =>
      rw [Registry.cellAt_clean hactive, ih.held]
      by_cases hkey : key = other
      · rw [if_pos hkey, if_pos (congrArg some hkey.symm)]
        rfl
      · rw [if_neg hkey, if_neg fun hn => hkey (Option.some.inj hn).symm]

namespace Scope.Arises

variable {events before between after : List (SlotEvent ω)} {s : Scope ω} {key : Coordinate}
  {c d : SlotCall ω}

theorem of_concat {e : SlotEvent ω} (h : Arises (events ++ [e]) s) :
    (∃ s', Arises events s') ∧ ∀ c, e = .called c → Arises events c.scope := by
  generalize hall : events ++ [e] = all at h
  induction h with
  | start host => simp at hall
  | reset h ih => exact ih hall
  | load h key ih => exact ih hall
  | store h hg ih => exact ih hall
  | @describe events' s h ih =>
    obtain ⟨rfl, rfl⟩ := List.append_inj' hall rfl |>.imp id (List.cons.inj · |>.1)
    exact ⟨⟨s, h⟩, fun c hc => (by cases hc)⟩
  | @call events' c h ih =>
    obtain ⟨rfl, rfl⟩ := List.append_inj' hall rfl |>.imp id (List.cons.inj · |>.1)
    refine ⟨⟨_, h⟩, fun d hd => ?_⟩
    cases hd
    exact h
  | @clean events' s h ih =>
    obtain ⟨rfl, rfl⟩ := List.append_inj' hall rfl |>.imp id (List.cons.inj · |>.1)
    exact ⟨⟨s, h⟩, fun c hc => (by cases hc)⟩

theorem of_append {events' : List (SlotEvent ω)} (h : Arises (events ++ events') s) :
    ∃ s', Arises events s' := by
  induction events' using List.reverseRecOn generalizing s with
  | nil => exact ⟨s, by simpa using h⟩
  | append_singleton events' e ih =>
    rw [← List.append_assoc] at h
    obtain ⟨s', hs'⟩ := h.of_concat.1
    exact ih hs'

theorem of_called (h : Arises (before ++ .called c :: after) s) : Arises before c.scope := by
  rw [List.append_cons] at h
  obtain ⟨s', hs'⟩ := h.of_append
  exact hs'.of_concat.2 c rfl

theorem latest?_of_not_cleaned (h : Arises (before ++ .called c :: between) s)
    (hkey : c.key = some key) (hclean : .cleaned (some key) ∉ between)
    (hkind : ∀ d, .called d ∈ between → d.key = some key → d.slot = c.slot → d.kind = c.kind) :
    ∃ d, latest? key c.slot (before ++ .called c :: between) = some d ∧ d.cell = c.cell ∧
      d.kind = c.kind := by
  induction between using List.reverseRecOn generalizing s with
  | nil =>
    refine ⟨c, ?_, rfl, rfl⟩
    rw [latest?_concat, SlotEvent.hold, if_pos ⟨hkey, rfl⟩]
  | append_singleton between e ih =>
    rw [← List.cons_append, ← List.append_assoc] at h ⊢
    obtain ⟨s', hs'⟩ := h.of_append
    -- The cell is in the slot before the last event, and only a call at the slot could change that.
    obtain ⟨d, hd, hcell, hk⟩ := ih hs' (fun hmem => hclean (List.mem_append_left _ hmem))
      fun d hmem => hkind d (List.mem_append_left _ hmem)
    have hmem : e ∈ between ++ [e] := List.mem_append_right _ (List.mem_singleton_self e)
    rw [latest?_concat, hd]
    cases e with
    | described other => exact ⟨d, rfl, hcell, hk⟩
    | called e =>
      rw [SlotEvent.hold]
      split
      · rename_i hplace
        obtain ⟨hkey', hslot⟩ := hplace
        have he := hkind e hmem hkey' hslot
        have htold := (h.of_concat.2 e rfl).told
        have hkept := (htold.cell_of_latest hkey' (hslot ▸ hd) (hk.trans he.symm)).1
        exact ⟨e, rfl, hkept.trans hcell, he⟩
      · exact ⟨d, rfl, hcell, hk⟩
    | cleaned other =>
      have hother : other ≠ some key := by
        rintro rfl
        exact hclean hmem
      rw [SlotEvent.hold, if_neg hother]
      exact ⟨d, rfl, hcell, hk⟩

theorem cell_lt_of_cleaned {n : Nat} (h : Arises (before ++ .cleaned (some key) :: between) s)
    (hc : .called c ∈ before)
    (hd : latest? key n (before ++ .cleaned (some key) :: between) = some d) :
    c.cell < d.cell := by
  induction between using List.reverseRecOn generalizing s d with
  | nil =>
    rw [latest?_concat, SlotEvent.hold, if_pos rfl] at hd
    cases hd
  | append_singleton between e ih =>
    rw [← List.cons_append, ← List.append_assoc] at h hd
    obtain ⟨s', hs'⟩ := h.of_append
    rw [latest?_concat] at hd
    cases e with
    | described other => exact ih hs' hd
    | called e =>
      rw [SlotEvent.hold] at hd
      split at hd
      · rename_i hplace
        obtain ⟨hkey, rfl⟩ := hplace
        obtain rfl := Option.some.inj hd
        -- What the call gets is either in the slot already or newer than all that there is.
        have htold := (h.of_concat.2 e rfl).told
        by_cases hkept : ∃ f, latest? key e.slot (before ++ .cleaned (some key) :: between) = some f ∧
            f.kind = e.kind
        · obtain ⟨f, hf, hk⟩ := hkept
          rw [(htold.cell_of_latest hkey hf hk).1]
          exact ih hs' hf
        · have hfresh := htold.fresh_of_latest hkey fun f hf hk => hkept ⟨f, hf, hk⟩
          rw [hfresh.cell_eq]
          exact htold.cell_lt c (List.mem_append_left _ hc)
      · exact ih hs' hd
    | cleaned other =>
      rw [SlotEvent.hold] at hd
      split at hd
      · cases hd
      · exact ih hs' hd

/-- A cell is kept exactly as long as its bucket is not emptied, if the hooks of its slot keep their
kind. A call that gets it finds what it holds. -/
theorem cell_eq_iff {c' : SlotCall ω}
    (h : Arises (before ++ .called c :: (between ++ .called c' :: after)) s)
    (hkey : c.key = some key) (hkey' : c'.key = some key) (hslot : c'.slot = c.slot)
    (hkind : c'.kind = c.kind)
    (hkinds : ∀ d, .called d ∈ between → d.key = some key → d.slot = c.slot → d.kind = c.kind) :
    (c'.cell = c.cell ↔ .cleaned (some key) ∉ between) ∧
      (.cleaned (some key) ∉ between → c'.content = c'.scope.store.get c.setter) := by
  rw [← List.cons_append, ← List.append_assoc] at h
  have htold := h.of_called.told
  have hkept : .cleaned (some key) ∉ between →
      c'.cell = c.cell ∧ c'.content = c'.scope.store.get c.setter := by
    intro hclean
    obtain ⟨d, hd, hcell, hk⟩ := latest?_of_not_cleaned h.of_called hkey hclean hkinds
    rw [← hslot] at hd
    obtain ⟨hcell', hcontent⟩ := htold.cell_of_latest hkey' hd (hk.trans hkind.symm)
    refine ⟨hcell'.trans hcell, ?_⟩
    rw [hcontent, SlotCall.setter, hcell]
    rfl
  refine ⟨⟨fun hcell hclean => ?_, fun hclean => (hkept hclean).1⟩, fun hclean => (hkept hclean).2⟩
  -- Emptied in between, the slot holds a newer cell when the later call has taken it.
  obtain ⟨between, rest, rfl⟩ := List.append_of_mem hclean
  have hall : before ++ .called c :: (between ++ .cleaned (some key) :: rest) ++ .called c' :: after =
      before ++ .called c :: between ++ .cleaned (some key) :: (rest ++ [.called c']) ++ after := by
    simp
  rw [hall] at h
  obtain ⟨s', hs'⟩ := h.of_append
  have hlatest : latest? key c'.slot (before ++ .called c :: between ++
      .cleaned (some key) :: (rest ++ [.called c'])) = some c' := by
    rw [← List.cons_append, ← List.append_assoc, latest?_concat, SlotEvent.hold, if_pos ⟨hkey', rfl⟩]
  exact Nat.ne_of_gt (hs'.cell_lt_of_cleaned (c := c) (by simp) hlatest) hcell

theorem fresh_of_cleaned
    (h : Arises (before ++ .cleaned (some key) :: (between ++ .called c :: after)) s)
    (hkey : c.key = some key)
    (hfirst : ∀ d, .called d ∈ between → d.key = some key → d.slot ≠ c.slot) : c.Fresh := by
  rw [← List.cons_append, ← List.append_assoc] at h
  apply h.of_called.told.fresh_of_latest hkey
  intro d hd
  rw [latest?_of_cleaned before hfirst] at hd
  cases hd

theorem fresh_iff_cleaned {c' : SlotCall ω}
    (h : Arises (before ++ .called c :: (between ++ .called c' :: after)) s)
    (hkey : c.key = some key) (hkey' : c'.key = some key) (hslot : c'.slot = c.slot)
    (hkind : c'.kind = c.kind)
    (hnext : ∀ d, .called d ∈ between → d.key = some key → d.slot ≠ c.slot) :
    c'.Fresh ↔ .cleaned (some key) ∈ between := by
  constructor
  · intro hfresh
    by_contra hclean
    have hcell := (h.cell_eq_iff hkey hkey' hslot hkind fun d hd hk hs => absurd hs (hnext d hd hk)).1.mpr
      hclean
    rw [← List.cons_append, ← List.append_assoc] at h
    have hlt := h.of_called.told.cell_lt c (by simp)
    exact Nat.ne_of_lt hlt (hcell.symm.trans hfresh.cell_eq)
  · intro hclean
    obtain ⟨between, rest, rfl⟩ := List.append_of_mem hclean
    have hall : before ++ .called c :: (between ++ .cleaned (some key) :: rest ++ .called c' :: after) =
        before ++ .called c :: between ++ .cleaned (some key) :: (rest ++ .called c' :: after) := by
      simp
    rw [hall] at h
    apply h.fresh_of_cleaned hkey'
    intro d hd hk
    rw [hslot]
    exact hnext d (List.mem_append_right _ (List.mem_cons_of_mem _ hd)) hk

theorem useEffect (h : Arises events s) (deps : Value) (effect : Program ω .sync) :
    Arises (events ++ [.called ⟨.effect deps effect, s⟩]) (s.useEffect deps effect) := by
  have htaken := h.call (c := ⟨.effect deps effect, s⟩)
  rw [Scope.useEffect]
  dsimp only
  split
  · exact htaken.store (Cells.grown_write _ _ _)
  · exact htaken

theorem useEffectAsync (h : Arises events s) (deps : Value) (effect : Program ω .async) :
    Arises (events ++ [.called ⟨.effectAsync deps effect, s⟩]) (s.useEffectAsync deps effect) := by
  have htaken := h.call (c := ⟨.effectAsync deps effect, s⟩)
  rw [Scope.useEffectAsync]
  dsimp only
  split
  · split
    · exact htaken.store (.refl _)
    · exact htaken.store (Cells.grown_write _ _ _)
  · exact htaken

theorem run (d : Describe ω α) :
    ∀ {events : List (SlotEvent ω)} {s : Scope ω}, Arises events s →
      Arises (events ++ (d.calls s).map .called) (d.run s).2 := by
  induction d with
  | done result =>
    intro events s h
    rw [Describe.calls, List.map_nil, List.append_nil]
    exact h
  | state initial next ih =>
    intro events s h
    rw [Describe.calls, List.map_cons, List.append_cons]
    exact ih _ _ (h.call (c := ⟨.state initial, s⟩))
  | ref initial next ih =>
    intro events s h
    rw [Describe.calls, List.map_cons, List.append_cons]
    exact ih _ (h.call (c := ⟨.ref initial, s⟩))
  | effect deps program next ih =>
    intro events s h
    rw [Describe.calls, List.map_cons, List.append_cons]
    exact ih (h.useEffect deps program)
  | effectAsync deps program next ih =>
    intro events s h
    rw [Describe.calls, List.map_cons, List.append_cons]
    exact ih (h.useEffectAsync deps program)
  | handler react next ih =>
    intro events s h
    exact ih _ (h.store (.refl _))
  | reuse id next ih =>
    intro events s h
    exact ih _ h
  | look next ih =>
    intro events s h
    exact ih _ h
  | act program next ih =>
    intro events s h
    exact ih (h.store (Store.lasting_grown.run program s.store))

end Scope.Arises

end ReactiveView
