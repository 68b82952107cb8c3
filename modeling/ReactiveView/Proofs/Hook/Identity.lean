import ReactiveView.Proofs.Hook.Deeds

namespace ReactiveView

variable {ω : Type}

def SlotEvent.store (key : Coordinate) (slot : Nat) (held : Option (SlotCall ω)) :
    SlotEvent ω → Option (SlotCall ω)
  | described _ => held
  | called c =>
    if (c.key = some key ∧ c.slot = slot) ∧ c.cell = c.scope.store.cells.contents.size then some c
    else held
  | cleaned other => if other = some key then none else held

/-- The last call that put a cell made for it into a slot, if the bucket has not been emptied
since. -/
def stored? (key : Coordinate) (slot : Nat) (events : List (SlotEvent ω)) : Option (SlotCall ω) :=
  events.foldl (SlotEvent.store key slot) none

theorem stored?_concat (key : Coordinate) (slot : Nat) (events : List (SlotEvent ω))
    (e : SlotEvent ω) : stored? key slot (events ++ [e]) = e.store key slot (stored? key slot events) :=
  List.foldl_append

def SlotCall.kept (c : SlotCall ω) : CellId × DatumKind := (c.cell, c.kind)

theorem SlotCall.kept_eq_iff {c d : SlotCall ω} :
    d.kept = c.kept ↔ d.cell = c.cell ∧ d.kind = c.kind := Prod.mk.injEq .. |>.to_iff

namespace Scope.Told

variable {events : List (SlotEvent ω)} {c d : SlotCall ω} {key : Coordinate}

theorem kept_cases (h : Told events c.scope) :
    (∃ key d, c.key = some key ∧ latest? key c.slot events = some d ∧ d.kept = c.kept ∧
      c.cell ≠ c.scope.store.cells.contents.size) ∨
    c.cell = c.scope.store.cells.contents.size := by
  obtain ⟨key, d, hkey, hd, hk, -, htaken⟩ | ⟨-, -, -, hcell, -⟩ := h.call_cases
  · have hcell : c.cell = d.cell := congrArg (fun r => r.1) htaken
    have hlt := h.cell_lt d (mem_of_latest? hd)
    rw [← hcell] at hlt
    exact .inl ⟨key, d, hkey, hd, SlotCall.kept_eq_iff.mpr ⟨hcell.symm, hk⟩, Nat.ne_of_lt hlt⟩
  · exact .inr hcell

end Scope.Told

namespace Scope.Arises

variable {events before between after : List (SlotEvent ω)} {s : Scope ω} {c d : SlotCall ω}
  {key : Coordinate}

theorem kept_latest? (h : Arises events s) (key : Coordinate) (n : Nat) :
    (latest? key n events).map SlotCall.kept = (stored? key n events).map SlotCall.kept := by
  induction h with
  | start host => rfl
  | reset h ih => exact ih
  | load h other ih => exact ih
  | store h hg ih => exact ih
  | describe h ih =>
    rw [latest?_concat, stored?_concat]
    exact ih
  | @call events c h ih =>
    rw [latest?_concat, stored?_concat, SlotEvent.hold, SlotEvent.store]
    by_cases hplace : c.key = some key ∧ c.slot = n
    · obtain ⟨other, d, hkey, hd, hkept, hne⟩ | hcell := h.told.kept_cases
      · cases hkey.symm.trans hplace.1
        rw [if_pos hplace, if_neg fun hn => hne hn.2, ← ih, ← hplace.2, hd, Option.map_some,
          Option.map_some, hkept]
      · rw [if_pos hplace, if_pos ⟨hplace, hcell⟩]
    · rw [if_neg hplace, if_neg fun hn => hplace hn.1, ih]
  | @clean events s h ih =>
    rw [latest?_concat, stored?_concat, SlotEvent.hold, SlotEvent.store]
    split
    · rfl
    · exact ih

theorem exists_stored? {n : Nat} (h : Arises events s) (hd : latest? key n events = some d) :
    ∃ d', stored? key n events = some d' ∧ d'.kept = d.kept := by
  have hmap := h.kept_latest? key n
  rw [hd] at hmap
  exact Option.map_eq_some_iff.mp hmap.symm

theorem exists_latest? {n : Nat} (h : Arises events s) (hd : stored? key n events = some d) :
    ∃ d', latest? key n events = some d' ∧ d'.kept = d.kept := by
  have hmap := h.kept_latest? key n
  rw [hd] at hmap
  exact Option.map_eq_some_iff.mp hmap

theorem latest?_inj (h : Arises events s) {key key' : Coordinate} {n n' : Nat}
    (hc : latest? key n events = some c) (hd : latest? key' n' events = some d)
    (hcell : c.cell = d.cell) : key = key' ∧ n = n' := by
  induction h generalizing key key' n n' c d with
  | start host => cases hc
  | reset h ih => exact ih hc hd hcell
  | load h other ih => exact ih hc hd hcell
  | store h hg ih => exact ih hc hd hcell
  | describe h ih =>
    rw [latest?_concat] at hc hd
    exact ih hc hd hcell
  | @call events e h ih =>
    -- The cell of the call is that of its slot, or it is newer than all that are in slots.
    have hother : ∀ {key n f}, ¬(e.key = some key ∧ e.slot = n) → latest? key n events = some f →
        e.cell ≠ f.cell := by
      intro key n f hplace hf heq
      obtain ⟨other, g, hkey, hg, hkept, -⟩ | hnew := h.told.kept_cases
      · obtain ⟨rfl, rfl⟩ := ih hg hf ((SlotCall.kept_eq_iff.mp hkept).1.trans heq)
        exact hplace ⟨hkey, rfl⟩
      · exact Nat.ne_of_gt (h.told.cell_lt f (mem_of_latest? hf)) (hnew.symm.trans heq)
    rw [latest?_concat, SlotEvent.hold] at hc hd
    split at hc <;> split at hd
    · rename_i hplace hplace'
      exact ⟨Option.some.inj (hplace.1.symm.trans hplace'.1), hplace.2.symm.trans hplace'.2⟩
    · rename_i hplace
      cases hc
      exact absurd hcell (hother hplace hd)
    · rename_i hplace _
      cases hd
      exact absurd hcell.symm (hother hplace hc)
    · exact ih hc hd hcell
  | clean h ih =>
    rw [latest?_concat, SlotEvent.hold] at hc hd
    split at hc
    · cases hc
    · split at hd
      · cases hd
      · exact ih hc hd hcell

def Unheld (events : List (SlotEvent ω)) (cell : CellId) : Prop :=
  ∀ key n c, latest? key n events = some c → c.cell ≠ cell

theorem unheld_concat {e : SlotEvent ω} (h : Arises (events ++ [e]) s) (hc : .called c ∈ events)
    (hu : Unheld events c.cell) :
    Unheld (events ++ [e]) c.cell ∧ ∀ d, e = .called d → d.cell ≠ c.cell := by
  -- A call gets a cell that is in a slot or a new one, and this one is neither.
  have hcalled : ∀ d, e = .called d → d.cell ≠ c.cell := by
    rintro d rfl
    have htold := (h.of_concat.2 d rfl).told
    obtain ⟨key, f, -, hf, hkept, -⟩ | hnew := htold.kept_cases
    · rw [← (SlotCall.kept_eq_iff.mp hkept).1]
      exact hu key d.slot f hf
    · rw [hnew]
      exact Nat.ne_of_gt (htold.cell_lt c hc)
  refine ⟨fun key n d hd => ?_, hcalled⟩
  rw [latest?_concat] at hd
  cases e with
  | described other => exact hu key n d hd
  | called f =>
    rw [SlotEvent.hold] at hd
    split at hd
    · cases hd
      exact hcalled d rfl
    · exact hu key n d hd
  | cleaned other =>
    rw [SlotEvent.hold] at hd
    split at hd
    · cases hd
    · exact hu key n d hd

theorem unheld_append (h : Arises (before ++ after) s) (hc : .called c ∈ before)
    (hu : Unheld before c.cell) :
    Unheld (before ++ after) c.cell ∧ ∀ d, .called d ∈ after → d.cell ≠ c.cell := by
  induction after using List.reverseRecOn generalizing s with
  | nil =>
    rw [List.append_nil]
    exact ⟨hu, fun d hd => absurd hd List.not_mem_nil⟩
  | append_singleton after e ih =>
    rw [← List.append_assoc] at h ⊢
    obtain ⟨s', hs'⟩ := h.of_append
    obtain ⟨hafter, hcalls⟩ := ih hs'
    obtain ⟨hlast, hcalled⟩ := h.unheld_concat (List.mem_append_left _ hc) hafter
    refine ⟨hlast, fun d hd => ?_⟩
    rcases List.mem_append.mp hd with hd | hd
    · exact hcalls d hd
    · exact hcalled d (List.mem_singleton.mp hd).symm

theorem unheld_of_key_eq_none (h : Arises (before ++ [.called c]) s) (hkey : c.key = none) :
    Unheld (before ++ [.called c]) c.cell := by
  have htold := (h.of_concat.2 c rfl).told
  intro key n d hd
  rw [latest?_concat, SlotEvent.hold, if_neg fun hplace => by simp [hkey] at hplace] at hd
  obtain ⟨other, -, hother, -⟩ | hnew := htold.kept_cases
  · cases hkey.symm.trans hother
  · rw [hnew]
    exact Nat.ne_of_lt (htold.cell_lt d (mem_of_latest? hd))

theorem stays_or_leaves_called {n : Nat} (h : Arises (events ++ [.called c]) s)
    (hd : latest? key n events = some d) :
    (∃ d', latest? key n (events ++ [.called c]) = some d' ∧ d'.kept = d.kept ∧
      (c.key = some key → c.slot = n → c.kind = d.kind)) ∨
    Unheld (events ++ [.called c]) d.cell := by
  obtain ⟨s', hs'⟩ := h.of_append
  have htold := (h.of_concat.2 c rfl).told
  by_cases hplace : c.key = some key ∧ c.slot = n
  · obtain ⟨other, g, hkey, hg, hkept, -⟩ | hnew := htold.kept_cases
    · cases hkey.symm.trans hplace.1
      cases hd.symm.trans (hplace.2 ▸ hg)
      refine .inl ⟨c, ?_, hkept.symm, fun _ _ => (SlotCall.kept_eq_iff.mp hkept).2.symm⟩
      rw [latest?_concat, SlotEvent.hold, if_pos hplace]
    · refine .inr fun key' n' g hg hcell => ?_
      rw [latest?_concat, SlotEvent.hold] at hg
      split at hg
      · cases hg
        exact Nat.ne_of_gt (htold.cell_lt d (mem_of_latest? hd)) (hnew.symm.trans hcell)
      · rename_i hplace'
        obtain ⟨rfl, rfl⟩ := hs'.latest?_inj hg hd hcell
        exact hplace' hplace
  · refine .inl ⟨d, ?_, rfl, fun hk hs => absurd ⟨hk, hs⟩ hplace⟩
    rw [latest?_concat, SlotEvent.hold, if_neg hplace, hd]

theorem stays_or_leaves_cleaned {other : Option Coordinate} {n : Nat}
    (h : Arises (events ++ [.cleaned other]) s) (hd : latest? key n events = some d) :
    (latest? key n (events ++ [.cleaned other]) = some d ∧ other ≠ some key) ∨
    Unheld (events ++ [.cleaned other]) d.cell := by
  obtain ⟨s', hs'⟩ := h.of_append
  by_cases hkey : other = some key
  · refine .inr fun key' n' g hg hcell => ?_
    rw [latest?_concat, SlotEvent.hold] at hg
    split at hg
    · cases hg
    · rename_i hkey'
      obtain ⟨rfl, rfl⟩ := hs'.latest?_inj hg hd hcell
      exact hkey' hkey
  · exact .inl ⟨by rw [latest?_concat, SlotEvent.hold, if_neg hkey, hd], hkey⟩

theorem stays_or_leaves {e : SlotEvent ω} {n : Nat} (h : Arises (events ++ [e]) s)
    (hd : latest? key n events = some d) :
    (∃ d', latest? key n (events ++ [e]) = some d' ∧ d'.kept = d.kept ∧ e ≠ .cleaned (some key) ∧
      ∀ f, e = .called f → f.key = some key → f.slot = n → f.kind = d.kind) ∨
    Unheld (events ++ [e]) d.cell := by
  cases e with
  | described other =>
    exact .inl ⟨d, (latest?_concat ..).trans hd, rfl, fun he => (by cases he), fun f hf => (by cases hf)⟩
  | called f =>
    refine (h.stays_or_leaves_called hd).imp_left ?_
    rintro ⟨d', hd', hkept, hkind⟩
    refine ⟨d', hd', hkept, fun he => (by cases he), fun f' hf' => ?_⟩
    cases hf'
    exact hkind
  | cleaned other =>
    refine (h.stays_or_leaves_cleaned hd).imp_left ?_
    rintro ⟨hd', hkey⟩
    refine ⟨d, hd', rfl, fun he => ?_, fun f hf => (by cases hf)⟩
    cases he
    exact hkey rfl

theorem held_or_unheld (h : Arises (before ++ .called c :: between) s) (hkey : c.key = some key) :
    (∃ d, latest? key c.slot (before ++ .called c :: between) = some d ∧ d.kept = c.kept ∧
      .cleaned (some key) ∉ between ∧
      ∀ e, .called e ∈ between → e.key = some key → e.slot = c.slot → e.kind = c.kind) ∨
    Unheld (before ++ .called c :: between) c.cell := by
  induction between using List.reverseRecOn generalizing s with
  | nil =>
    refine .inl ⟨c, ?_, rfl, List.not_mem_nil, fun e he => absurd he List.not_mem_nil⟩
    rw [latest?_concat, SlotEvent.hold, if_pos ⟨hkey, rfl⟩]
  | append_singleton between e ih =>
    rw [← List.cons_append, ← List.append_assoc] at h ⊢
    obtain ⟨s', hs'⟩ := h.of_append
    rcases ih hs' with ⟨d, hd, hkept, hclean, hkinds⟩ | hu
    · obtain ⟨hcell, hkind⟩ := SlotCall.kept_eq_iff.mp hkept
      obtain ⟨d', hd', hkept', hclean', hkind'⟩ | hu := h.stays_or_leaves hd
      · refine .inl ⟨d', hd', hkept'.trans hkept, fun hmem => ?_, fun f hf hk hs => ?_⟩
        · rcases List.mem_append.mp hmem with hmem | hmem
          · exact hclean hmem
          · exact hclean' (List.mem_singleton.mp hmem).symm
        · rcases List.mem_append.mp hf with hf | hf
          · exact hkinds f hf hk hs
          · exact (hkind' f (List.mem_singleton.mp hf).symm hk hs).trans hkind
      · rw [hcell] at hu
        exact .inr hu
    · exact .inr (h.unheld_concat (by simp) hu).1

/-- Two calls get the same cell exactly if they take the same slot of the same bucket for the same
kind, and neither was the bucket emptied in between nor the slot taken for another kind. -/
theorem cell_eq_iff_undisturbed {c' : SlotCall ω}
    (h : Arises (before ++ .called c :: (between ++ .called c' :: after)) s) :
    c'.cell = c.cell ↔ ∃ key, c.key = some key ∧ c'.key = some key ∧ c'.slot = c.slot ∧
      c'.kind = c.kind ∧ .cleaned (some key) ∉ between ∧
      ∀ d, .called d ∈ between → d.key = some key → d.slot = c.slot → d.kind = c.kind := by
  constructor
  · intro hcell
    have hsplit := h
    rw [← List.cons_append, ← List.append_assoc] at hsplit
    have hs := hsplit.of_called
    have hunheld : ¬Unheld (before ++ .called c :: between) c.cell := by
      intro hu
      rw [List.append_cons] at hsplit
      obtain ⟨s', hs'⟩ := hsplit.of_append
      exact (hs'.unheld_concat (by simp) hu).2 c' rfl hcell
    cases hkey : c.key with
    | none =>
      have hbetween := hs
      rw [List.append_cons] at hbetween hunheld
      obtain ⟨s', hs'⟩ := hbetween.of_append
      exact absurd (hbetween.unheld_append (by simp) (hs'.unheld_of_key_eq_none hkey)).1 hunheld
    | some key =>
      obtain ⟨d, hd, hkept, hclean, hkinds⟩ := (hs.held_or_unheld hkey).resolve_right hunheld
      obtain ⟨hcell', hkind⟩ := SlotCall.kept_eq_iff.mp hkept
      obtain ⟨key', e, hkey', he, hkept', -⟩ | hnew := hs.told.kept_cases
      · obtain ⟨hcell'', hkind'⟩ := SlotCall.kept_eq_iff.mp hkept'
        obtain ⟨rfl, hslot⟩ := hs.latest?_inj hd he (hcell'.trans (hcell.symm.trans hcell''.symm))
        rw [← hslot, hd] at he
        cases he
        exact ⟨key, rfl, hkey', hslot.symm, hkind'.symm.trans hkind, hclean, hkinds⟩
      · exact absurd (hnew.symm.trans hcell) (Nat.ne_of_gt (hs.told.cell_lt c (by simp)))
  · rintro ⟨key, hkey, hkey', hslot, hkind, hclean, hkinds⟩
    exact (h.cell_eq_iff hkey hkey' hslot hkind hkinds).1.mpr hclean

end Scope.Arises

namespace Registry

theorem active_next (r : Registry) (cells : Cells) (initial : Datum) :
    (r.next cells initial).2.2.active = r.active := by
  obtain ⟨⟨buckets, hnext⟩, -⟩ := r.next_moves cells initial
  rw [hnext]

theorem cursor_next (r : Registry) (cells : Cells) (initial : Datum) :
    (r.next cells initial).2.2.cursor = r.cursor + 1 := by
  obtain ⟨⟨buckets, hnext⟩, -⟩ := r.next_moves cells initial
  rw [hnext]

end Registry

theorem SlotUse.registry_perform (use : SlotUse ω) (s : Scope ω) :
    (use.perform s).registry = (s.slot use.initial).2.registry := by
  cases use with
  | state | ref => rfl
  | effect deps program =>
    dsimp only [perform, Scope.useEffect]
    split <;> rfl
  | effectAsync deps program =>
    dsimp only [perform, Scope.useEffectAsync]
    split
    · split <;> rfl
    · rfl

namespace Moment

def loading (active : Option Coordinate) (m : Moment ω) : Option Coordinate :=
  match m.deed with
  | .load key => some key
  | .reset => none
  | _ => active

def loaded? (log : List (Moment ω)) : Option Coordinate := log.foldl loading none

def counting (n : Nat) (m : Moment ω) : Nat :=
  match m.deed with
  | .load _ => 0
  | .clean => 0
  | .call _ => n + 1
  | _ => n

def calls (log : List (Moment ω)) : Nat := log.foldl counting 0

end Moment

theorem Deed.active_log (host : ω) (deeds : List (Deed ω)) :
    (performAll deeds (.start host)).registry.active = Moment.loaded? (log deeds (.start host)) := by
  induction deeds using List.reverseRecOn with
  | nil => rfl
  | append_singleton deeds d ih =>
    rw [performAll_concat, log_concat, Moment.loaded?, List.foldl_append, ← Moment.loaded?, ← ih]
    cases d with
    | clean =>
      dsimp only [perform, Registry.clean]
      split <;> rfl
    | call use =>
      dsimp only [perform]
      rw [use.registry_perform]
      exact Registry.active_next _ _ _
    | load | reset | handler | alter | set | put | request | defer | deferAsync | takeRender
    | takeEffects | takeAsync | finish => rfl

theorem Deed.cursor_log (host : ω) (deeds : List (Deed ω))
    (hactive : (performAll deeds (.start host)).registry.active ≠ none) :
    (performAll deeds (.start host)).registry.cursor = Moment.calls (log deeds (.start host)) := by
  induction deeds using List.reverseRecOn with
  | nil => rfl
  | append_singleton deeds d ih =>
    rw [performAll_concat] at hactive ⊢
    rw [log_concat, Moment.calls, List.foldl_append, ← Moment.calls]
    cases d with
    | load key => rfl
    | reset => exact absurd rfl hactive
    | clean =>
      dsimp only [perform, Registry.clean]
      split <;> rfl
    | call use =>
      dsimp only [perform] at hactive ⊢
      rw [use.registry_perform] at hactive ⊢
      rw [← ih fun hnone => hactive ((Registry.active_next _ _ _).trans hnone)]
      exact Registry.cursor_next _ _ _
    | handler | alter | set | put | request | defer | deferAsync | takeRender | takeEffects
    | takeAsync | finish => exact ih hactive

/-- What a call gets and what it changes in slots, by what happened before it. -/
structure SlotCall.Served (before : List (Moment ω)) (c : SlotCall ω) : Prop where
  key_eq : c.key = Moment.loaded? before
  slot_eq : c.key ≠ none → c.slot = Moment.calls before
  /-- A slot that is not there yet is the one behind the last. -/
  slot_le : ∀ key, c.key = some key →
    ∃ slots, c.scope.registry.bucket? key = some slots ∧ c.slot ≤ slots.length
  /-- The cell that was put into the slot last is given out to hooks of its kind. -/
  kept : ∀ key d, c.key = some key → stored? key c.slot (Moment.events before) = some d →
    d.kind = c.kind → c.cell = d.cell ∧ c.taken.2.store = c.scope.store ∧
      ∀ other n, c.after.registry.cellAt other n = c.scope.registry.cellAt other n
  /-- Otherwise the cell is new, and it is put into the slot if there is one. -/
  fresh : (∀ key d, c.key = some key → stored? key c.slot (Moment.events before) = some d →
    d.kind ≠ c.kind) → c.Fresh ∧ (∀ d, .called d ∈ Moment.events before → d.cell ≠ c.cell) ∧
      ∀ other n, c.after.registry.cellAt other n =
        if c.key = some other ∧ c.slot = n then some c.cell else c.scope.registry.cellAt other n

/-- Which calls of a log get which cells, with the scope at its end. -/
structure Moment.Identified (log : List (Moment ω)) (s : Scope ω) : Prop where
  served : ∀ (before after : List (Moment ω)) (c : SlotCall ω),
    log = before ++ c.moment :: after → c.Served before
  /-- Calls get the same cell only if they agree on bucket, slot and kind. -/
  cell_eq_iff : ∀ (before between after : List (Moment ω)) (c c' : SlotCall ω),
    log = before ++ c.moment :: (between ++ c'.moment :: after) →
      (c'.cell = c.cell ↔ ∃ key, c.key = some key ∧ c'.key = some key ∧ c'.slot = c.slot ∧
        c'.kind = c.kind ∧ .cleaned (some key) ∉ events between ∧
        ∀ d, .called d ∈ events between → d.key = some key → d.slot = c.slot → d.kind = c.kind)
  /-- What is got without a bucket is in none. -/
  detached : ∀ (before after : List (Moment ω)) (c : SlotCall ω),
    log = before ++ c.moment :: after → c.key = none → ∀ key n, s.registry.cellAt key n ≠ some c.cell
  inStep : s.registry.InStep

namespace Deed

variable {host : ω} {deeds : List (Deed ω)} {before after : List (Moment ω)} {c : SlotCall ω}

theorem served_of_log (h : log deeds (.start host) = before ++ c.moment :: after) :
    c.Served before := by
  have htold := told_of_log h
  obtain ⟨deeds', deeds'', -, rfl, hscope, -⟩ := exists_of_mem_log h
  have hafter : c.after.registry = c.taken.2.registry := c.use.registry_perform c.scope
  have harises := arises_log host deeds'
  refine ⟨?_, fun hkey => ?_, fun key hkey => htold.inStep key hkey, fun key d hkey hd hk => ?_,
    fun hother => ?_⟩
  · rw [← active_log, hscope]
    rfl
  · rw [← cursor_log, hscope]
    · rfl
    · rw [hscope]
      exact hkey
  · obtain ⟨other, e, hactive, he, hk', -, htaken⟩ | ⟨hother, -⟩ := htold.call_cases
    · cases hkey.symm.trans hactive
      obtain ⟨d', hd', hkept⟩ := harises.exists_stored? he
      cases hd.symm.trans hd'
      have hcell : c.cell = e.cell := congrArg (fun r => r.1) htaken
      refine ⟨hcell.trans (SlotCall.kept_eq_iff.mp hkept).1.symm, ?_, fun other n => ?_⟩
      · rw [htaken]
      · rw [hafter, htaken]
        rfl
    · obtain ⟨e, he, hkept⟩ := harises.exists_latest? hd
      exact absurd ((SlotCall.kept_eq_iff.mp hkept).2.trans hk) (hother key e hkey he)
  · obtain ⟨key, e, hkey, he, hk, -⟩ | ⟨-, -, hcells, hcell, hmade⟩ := htold.call_cases
    · obtain ⟨d', hd', hkept⟩ := harises.exists_stored? he
      exact absurd ((SlotCall.kept_eq_iff.mp hkept).2.trans hk) (hother key d' hkey hd')
    · refine ⟨.of_content hcell ?_, fun d hd => ?_, fun other n => ?_⟩
      · rw [SlotCall.content, hcell, hmade, Cells.read_make, if_pos rfl]
      · rw [hcell]
        exact Nat.ne_of_lt (htold.cell_lt d hd)
      · rw [hafter, hcells, hcell]

/-- Whatever happens after the first start, hooks that are called in their order keep their cells,
and no two slots share one. -/
theorem identified (host : ω) (deeds : List (Deed ω)) :
    Moment.Identified (log deeds (.start host)) (performAll deeds (.start host)) where
  served := fun _ _ _ h => served_of_log h
  cell_eq_iff := by
    intro before between after c c' h
    have harises := arises_log host deeds
    rw [h, Moment.events_call, Moment.events_call] at harises
    exact harises.cell_eq_iff_undisturbed
  detached := by
    intro before after c h hkey key n hcell
    have harises := arises_log host deeds
    rw [h, Moment.events_call, List.append_cons] at harises
    obtain ⟨s', hs'⟩ := harises.of_append
    have hunheld := (harises.unheld_append (by simp) (hs'.unheld_of_key_eq_none hkey)).1
    rw [harises.told.held] at hcell
    obtain ⟨d, hd, heq⟩ := Option.map_eq_some_iff.mp hcell
    exact hunheld key n d hd heq
  inStep := (arises_log host deeds).told.inStep

end Deed

end ReactiveView
