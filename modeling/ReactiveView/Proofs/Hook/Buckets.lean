import ReactiveView.Proofs.Hook.Lasting

namespace ReactiveView

variable {ω : Type}

/-- Cells among which those that there were have kept their kinds. -/
structure Cells.Grown (c c' : Cells) : Prop where
  size_le : c.contents.size ≤ c'.contents.size
  kind_eq : ∀ id < c.contents.size, (c'.read id).kind = (c.read id).kind

namespace Cells

theorem Grown.refl (c : Cells) : c.Grown c := ⟨Nat.le_refl _, fun _ _ => rfl⟩

theorem Grown.trans {c c' c'' : Cells} (h : c.Grown c') (h' : c'.Grown c'') : c.Grown c'' where
  size_le := Nat.le_trans h.size_le h'.size_le
  kind_eq := fun id hid =>
    (h'.kind_eq id (Nat.lt_of_lt_of_le hid h.size_le)).trans (h.kind_eq id hid)

theorem size_write (c : Cells) (id : CellId) (d : Datum) :
    (c.write id d).contents.size = c.contents.size := by
  rw [write]
  split
  · exact Array.size_setIfInBounds
  · rfl

theorem grown_write (c : Cells) (id : CellId) (d : Datum) : c.Grown (c.write id d) where
  size_le := Nat.le_of_eq (c.size_write id d).symm
  kind_eq := fun other _ => c.kind_write id d other

theorem size_make (c : Cells) (d : Datum) : (c.make d).2.contents.size = c.contents.size + 1 :=
  Array.size_push d

theorem grown_make (c : Cells) (d : Datum) : c.Grown (c.make d).2 where
  size_le := by
    rw [size_make]
    exact Nat.le_succ _
  kind_eq := fun id hid => by rw [read_make, if_neg (Nat.ne_of_lt hid)]

end Cells

theorem Store.lasting_grown : Store.Lasting fun s s' : Store ω => s.cells.Grown s'.cells where
  refl := fun s => .refl s.cells
  trans := fun h h' => h.trans h'
  alter := fun s _ => .refl s.cells
  write := fun s cell content => s.cells.grown_write cell content
  request := fun s => .refl s.cells
  defer := fun s _ => .refl s.cells
  deferAsync := fun s _ => .refl s.cells

namespace Registry

variable {r : Registry} {key : Coordinate}

def cellAt (r : Registry) (key : Coordinate) (slot : Nat) : Option CellId :=
  (r.bucket? key).bind (·[slot]?)

/-- The slots of the active bucket that have been taken are there. -/
def InStep (r : Registry) : Prop :=
  ∀ key, r.active = some key → ∃ slots, r.bucket? key = some slots ∧ r.cursor ≤ slots.length

theorem cellAt_load (r : Registry) (key other : Coordinate) (n : Nat) :
    (r.load key).cellAt other n = r.cellAt other n := by
  simp only [cellAt, load]
  split
  · rfl
  · rename_i hnone
    have hkey : r.bucket? key = none := by simpa using hnone
    simp only [bucket?] at hkey ⊢
    rw [List.lookup_append]
    by_cases ho : other = key
    · subst ho
      simp [hkey]
    · simp [List.lookup_cons, beq_false_of_ne ho]

theorem bucket?_load (r : Registry) (key other : Coordinate) : (r.load key).bucket? other =
    if other = key then some ((r.bucket? key).getD []) else r.bucket? other := by
  simp only [load]
  cases hb : r.bucket? key with
  | none =>
    simp only [bucket?] at hb ⊢
    by_cases ho : other = key
    · subst ho
      simp [List.lookup_append, hb]
    · simp [List.lookup_append, List.lookup_cons, beq_false_of_ne ho, ho]
  | some slots =>
    by_cases ho : other = key
    · rw [if_pos ho, ho]
      exact hb
    · rw [if_neg ho]
      rfl

theorem inStep_load (r : Registry) (key : Coordinate) : (r.load key).InStep := by
  intro other hother
  cases hother
  simp only [load]
  cases hb : r.bucket? key with
  | none =>
    refine ⟨[], ?_, Nat.zero_le _⟩
    simp only [bucket?] at hb ⊢
    simp [List.lookup_append, hb]
  | some slots => exact ⟨slots, hb, Nat.zero_le _⟩

theorem inStep_reset (r : Registry) : r.reset.InStep := by
  intro key hkey
  cases hkey

theorem cellAt_replace (r : Registry) (key other : Coordinate) (slots : Bucket) (n : Nat) :
    (r.replace key slots).cellAt other n =
      if other = key then (r.bucket? key).bind fun _ => slots[n]? else r.cellAt other n := by
  rw [cellAt, bucket?_replace]
  split
  · rename_i heq
    subst heq
    rw [Option.bind_map]
    rfl
  · rfl

theorem cellAt_clean (hactive : r.active = some key) (other : Coordinate) (n : Nat) :
    r.clean.cellAt other n = if other = key then none else r.cellAt other n := by
  have hclean : r.clean.cellAt other n = (r.replace key []).cellAt other n := by
    rw [clean, hactive]
    rfl
  rw [hclean, cellAt_replace]
  simp

theorem inStep_clean (h : r.InStep) : r.clean.InStep := by
  intro key hkey
  have hactive : r.active = some key := by
    rw [clean] at hkey
    split at hkey <;> exact hkey
  obtain ⟨slots, hslots, -⟩ := h key hactive
  refine ⟨[], ?_, ?_⟩
  · rw [clean, hactive]
    change (r.replace key []).bucket? key = some []
    rw [bucket?_replace, if_pos rfl, hslots]
    rfl
  · rw [clean, hactive]
    exact Nat.zero_le _

theorem getElem?_concat (slots : Bucket) (cell : CellId) (n : Nat) :
    (slots ++ [cell])[n]? = if slots.length = n then some cell else slots[n]? := by
  rcases Nat.lt_trichotomy n slots.length with hlt | heq | hgt
  · rw [List.getElem?_append_left hlt, if_neg (by omega)]
  · rw [heq, List.getElem?_concat_length, if_pos rfl]
  · rw [List.getElem?_eq_none (by simp; omega), if_neg (by omega), List.getElem?_eq_none (by omega)]

theorem put_cell {slots slots' : Bucket} {cell : CellId} (hactive : r.active = some key)
    (hslots : r.bucket? key = some slots) (hlt : r.cursor < slots'.length)
    (hput : ∀ n, slots'[n]? = if r.cursor = n then some cell else slots[n]?) :
    (({ r with cursor := r.cursor + 1 } : Registry).replace key slots').InStep ∧
      ∀ other n, (({ r with cursor := r.cursor + 1 } : Registry).replace key slots').cellAt other n =
        if r.active = some other ∧ r.cursor = n then some cell else r.cellAt other n := by
  obtain ⟨buckets, active, cursor⟩ := r
  cases hactive
  have hmoved : bucket? ⟨buckets, some key, cursor + 1⟩ key = some slots := hslots
  constructor
  · intro other hother
    cases hother
    refine ⟨slots', ?_, hlt⟩
    rw [bucket?_replace, if_pos rfl, hmoved]
    rfl
  · intro other n
    rw [cellAt_replace]
    by_cases ho : other = key
    · subst ho
      rw [if_pos rfl, hmoved, Option.bind_some, hput, cellAt, hslots, Option.bind_some]
      simp
    · rw [if_neg ho, if_neg fun hn => ho (Option.some.inj hn.1).symm]
      rfl

theorem next_moves (r : Registry) (cells : Cells) (initial : Datum) :
    (∃ buckets, (r.next cells initial).2.2 = ⟨buckets, r.active, r.cursor + 1⟩) ∧
      ((r.next cells initial).2.1 = cells ∨ (r.next cells initial).2.1 = (cells.make initial).2) := by
  unfold next
  dsimp only
  split
  · exact ⟨⟨_, rfl⟩, .inr rfl⟩
  · split
    · exact ⟨⟨_, rfl⟩, .inr rfl⟩
    · split
      · split
        · exact ⟨⟨_, rfl⟩, .inl rfl⟩
        · exact ⟨⟨_, rfl⟩, .inr rfl⟩
      · exact ⟨⟨_, rfl⟩, .inr rfl⟩

/-- A hook takes the cell in its slot, if that has its kind, and else a new one, which is then in
the slot. -/
theorem next_cases (hs : r.InStep) (cells : Cells) (initial : Datum) :
    (∃ key cell, r.active = some key ∧ r.cellAt key r.cursor = some cell ∧
      (cells.read cell).kind = initial.kind ∧
      ({ r with cursor := r.cursor + 1 } : Registry).InStep ∧
      r.next cells initial = (cell, cells, { r with cursor := r.cursor + 1 })) ∨
    (∀ key cell, r.active = some key → r.cellAt key r.cursor = some cell →
        (cells.read cell).kind ≠ initial.kind) ∧
      ∃ registry : Registry, registry.InStep ∧
        (∀ key n, registry.cellAt key n = if r.active = some key ∧ r.cursor = n
          then some cells.contents.size else r.cellAt key n) ∧
        r.next cells initial = (cells.contents.size, (cells.make initial).2, registry) := by
  obtain ⟨buckets, _ | key, cursor⟩ := r
  · refine .inr ⟨fun key cell hkey => (by cases hkey), ⟨buckets, none, cursor + 1⟩,
      fun key hkey => (by cases hkey), fun key n => ?_, rfl⟩
    rw [if_neg fun hn => (by cases hn.1)]
    rfl
  · obtain ⟨slots, hslots, hle⟩ := hs key rfl
    have hcell : ∀ n, cellAt ⟨buckets, some key, cursor⟩ key n = slots[n]? := fun n => by
      rw [cellAt, hslots, Option.bind_some]
    simp only [next, hslots]
    cases hn : slots[cursor]? with
    | none =>
      have hlen : slots.length = cursor := Nat.le_antisymm (List.getElem?_eq_none_iff.mp hn) hle
      have hput : ∀ n, (slots ++ [cells.contents.size])[n]? =
          if cursor = n then some cells.contents.size else slots[n]? :=
        hlen ▸ getElem?_concat slots cells.contents.size
      obtain ⟨hstep, hcells⟩ := put_cell rfl hslots (by simp [hlen]) hput
      refine .inr ⟨fun other cell hkey hc => ?_, _, hstep, hcells, rfl⟩
      cases hkey
      rw [hcell, hn] at hc
      cases hc
    | some cell =>
      have hlt : cursor < slots.length := (List.getElem?_eq_some_iff.mp hn).1
      by_cases hk : (cells.read cell).kind = initial.kind
      · refine .inl ⟨key, cell, rfl, (hcell _).trans hn, hk, fun other hother => ?_, if_pos hk⟩
        cases hother
        exact ⟨slots, hslots, hlt⟩
      · have hput : ∀ n, (slots.set cursor cells.contents.size)[n]? =
            if cursor = n then some cells.contents.size else slots[n]? := by
          intro n
          rw [List.getElem?_set, if_pos hlt]
        obtain ⟨hstep, hcells⟩ := put_cell rfl hslots (by simpa using hlt) hput
        refine .inr ⟨fun other c hkey hc => ?_, _, hstep, hcells, if_neg hk⟩
        cases hkey
        rw [hcell, hn] at hc
        cases hc
        exact hk

/-- Registries between which at most the active bucket has got other slots. -/
structure Confined (r r' : Registry) : Prop where
  active_eq : r'.active = r.active
  bucket?_eq : ∀ key, r.active ≠ some key → r'.bucket? key = r.bucket? key
  isSome_eq : ∀ key, (r'.bucket? key).isSome = (r.bucket? key).isSome

theorem Confined.refl (r : Registry) : r.Confined r := ⟨rfl, fun _ _ => rfl, fun _ => rfl⟩

theorem Confined.trans {r r' r'' : Registry} (h : r.Confined r') (h' : r'.Confined r'') :
    r.Confined r'' where
  active_eq := h'.active_eq.trans h.active_eq
  bucket?_eq := fun key hkey =>
    (h'.bucket?_eq key (by rwa [h.active_eq])).trans (h.bucket?_eq key hkey)
  isSome_eq := fun key => (h'.isSome_eq key).trans (h.isSome_eq key)

theorem confined_move (r : Registry) (n : Nat) : r.Confined { r with cursor := n } :=
  ⟨rfl, fun _ _ => rfl, fun _ => rfl⟩

theorem confined_replace (hactive : r.active = some key) (slots : Bucket) :
    r.Confined (r.replace key slots) where
  active_eq := rfl
  bucket?_eq := fun other hother => by
    have ho : other ≠ key := fun ho => hother (hactive.trans (congrArg some ho.symm))
    rw [bucket?_replace, if_neg ho]
  isSome_eq := fun other => by
    rw [bucket?_replace]
    split
    · exact Option.isSome_map
    · rfl

theorem confined_clean (r : Registry) : r.Confined r.clean := by
  rw [clean]
  split
  · rename_i key hactive
    exact (confined_replace hactive []).trans (confined_move _ 0)
  · exact confined_move r 0

theorem confined_next (r : Registry) (cells : Cells) (initial : Datum) :
    r.Confined (r.next cells initial).2.2 := by
  have hmove := r.confined_move (r.cursor + 1)
  unfold next
  dsimp only
  split
  · exact hmove
  · rename_i key hactive
    have hput : ∀ slots, r.Confined
        (({ r with cursor := r.cursor + 1 } : Registry).replace key slots) := fun slots =>
      hmove.trans (confined_replace (r := { r with cursor := r.cursor + 1 }) hactive slots)
    split
    · exact hmove
    · split
      · split
        · exact hmove
        · exact hput _
      · exact hput _

end Registry

end ReactiveView
