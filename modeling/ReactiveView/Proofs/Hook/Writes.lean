import ReactiveView.Proofs.Hook.Deeds

namespace ReactiveView

variable {ω : Type}

def SlotUse.deps? : SlotUse ω → Option Value
  | effect deps _ => some deps
  | effectAsync deps _ => some deps
  | _ => none

def Scheduler.left (s : Scheduler ω) : Nat := s.effects.length + s.asyncEffects.length

theorem Scope.depsChanged_iff {content : Datum} {deps : Value} :
    depsChanged content deps = true ↔ ∀ d, content = .deps (some d) → (d == deps) = false := by
  constructor
  · rintro h d rfl
    exact (Bool.not_eq_true' _).mp h
  · intro h
    unfold depsChanged
    split
    · rename_i d
      exact (Bool.not_eq_true' _).mpr (h d rfl)
    · rfl

namespace SlotCall

def leaves (c : SlotCall ω) : Bool := c.scope.store.scheduler.left < c.after.store.scheduler.left

/-- The scope in which the call has taken its slot and put down dependencies. -/
def recorded (c : SlotCall ω) (deps : Value) : Scope ω :=
  { c.taken.2 with store.cells := c.taken.2.store.cells.write c.cell (.deps (some deps)) }

theorem after_effect (deps : Value) (program : Program ω .sync) (s : Scope ω) :
    (⟨.effect deps program, s⟩ : SlotCall ω).after =
      if Scope.depsChanged (⟨.effect deps program, s⟩ : SlotCall ω).content deps then
        { (⟨.effect deps program, s⟩ : SlotCall ω).recorded deps with
          store.scheduler := s.store.scheduler.defer program }
      else (⟨.effect deps program, s⟩ : SlotCall ω).taken.2 := rfl

theorem after_effectAsync (deps : Value) (program : Program ω .async) (s : Scope ω) :
    (⟨.effectAsync deps program, s⟩ : SlotCall ω).after =
      if Scope.depsChanged (⟨.effectAsync deps program, s⟩ : SlotCall ω).content deps &&
          !s.store.scheduler.asyncInFlight then
        { (⟨.effectAsync deps program, s⟩ : SlotCall ω).recorded deps with
          store.scheduler := s.store.scheduler.beginAsync.2.deferAsync program }
      else (⟨.effectAsync deps program, s⟩ : SlotCall ω).taken.2 := by
  have hafter : (⟨.effectAsync deps program, s⟩ : SlotCall ω).after =
    if Scope.depsChanged (⟨.effectAsync deps program, s⟩ : SlotCall ω).content deps then _
    else _ := rfl
  rw [hafter]
  obtain ⟨registry, cells, ⟨pending, scheduled, effects, asyncEffects, inFlight⟩, handlers, host⟩ := s
  cases Scope.depsChanged (⟨.effectAsync deps program, _⟩ : SlotCall ω).content deps
  · rfl
  · cases inFlight <;> rfl

theorem leaves_of_after_eq {c : SlotCall ω} (h : c.after = c.taken.2) : c.leaves = false := by
  rw [leaves, h]
  exact decide_eq_false (Nat.lt_irrefl _)

theorem leaves_effect (deps : Value) (program : Program ω .sync) (s : Scope ω) :
    (⟨.effect deps program, s⟩ : SlotCall ω).leaves =
      Scope.depsChanged (⟨.effect deps program, s⟩ : SlotCall ω).content deps := by
  rw [leaves, after_effect]
  cases Scope.depsChanged (⟨.effect deps program, s⟩ : SlotCall ω).content deps
  · exact decide_eq_false (Nat.lt_irrefl _)
  · simp [Scheduler.left, Scheduler.defer]

theorem leaves_effectAsync (deps : Value) (program : Program ω .async) (s : Scope ω) :
    (⟨.effectAsync deps program, s⟩ : SlotCall ω).leaves =
      (Scope.depsChanged (⟨.effectAsync deps program, s⟩ : SlotCall ω).content deps &&
        !s.store.scheduler.asyncInFlight) := by
  rw [leaves, after_effectAsync]
  cases Scope.depsChanged (⟨.effectAsync deps program, s⟩ : SlotCall ω).content deps &&
    !s.store.scheduler.asyncInFlight
  · exact decide_eq_false (Nat.lt_irrefl _)
  · simp [Scheduler.left, Scheduler.deferAsync, Scheduler.beginAsync, ← Nat.add_assoc]

theorem after_cases (c : SlotCall ω) :
    (c.leaves = true ∧ ∃ deps, c.use.deps? = some deps ∧
      c.after.store.cells = c.taken.2.store.cells.write c.cell (.deps (some deps))) ∨
    c.leaves = false ∧ c.after = c.taken.2 := by
  obtain ⟨use, s⟩ := c
  cases use with
  | state initial | ref initial => exact .inr ⟨leaves_of_after_eq rfl, rfl⟩
  | effect deps program =>
    rw [leaves_effect, after_effect]
    cases Scope.depsChanged (⟨.effect deps program, s⟩ : SlotCall ω).content deps
    · exact .inr ⟨rfl, rfl⟩
    · exact .inl ⟨rfl, deps, rfl, rfl⟩
  | effectAsync deps program =>
    rw [leaves_effectAsync, after_effectAsync]
    cases Scope.depsChanged (⟨.effectAsync deps program, s⟩ : SlotCall ω).content deps &&
      !s.store.scheduler.asyncInFlight
    · exact .inr ⟨rfl, rfl⟩
    · exact .inl ⟨rfl, deps, rfl, rfl⟩

end SlotCall

namespace Cells

theorem read_write_of_ne (c : Cells) (d : Datum) {id other : CellId} (h : id ≠ other) :
    (c.write id d).read other = c.read other := by
  unfold write
  split
  · simp only [read, Array.getElem?_setIfInBounds, if_neg h]
  · rfl

end Cells

namespace Moment

def written? (m : Moment ω) : Option CellId :=
  match m.deed with
  | .set state f =>
    if m.scope.store.get state == f (m.scope.store.get state) then none else some state.cell
  | .put ref _ => some ref.cell
  | .call use =>
    if (⟨use, m.scope⟩ : SlotCall ω).leaves then some (⟨use, m.scope⟩ : SlotCall ω).cell else none
  | _ => none

theorem read_perform (m : Moment ω) {cell : CellId} (hcell : cell < m.scope.store.cells.contents.size)
    (h : m.written? ≠ some cell) :
    (m.deed.perform m.scope).store.cells.read cell = m.scope.store.cells.read cell := by
  obtain ⟨d, s⟩ := m
  cases d with
  | set state f =>
    have hset : (s.store.set state (f (s.store.get state))).cells.read cell =
        s.store.cells.read cell := by
      rw [Store.set]
      split
      · rfl
      · rename_i hne
        apply Cells.read_write_of_ne
        rintro rfl
        exact h (if_neg hne)
    exact hset
  | put ref content =>
    apply Cells.read_write_of_ne
    rintro rfl
    exact h rfl
  | call use =>
    let c : SlotCall ω := ⟨use, s⟩
    have htaken : c.taken.2.store.cells.read cell = s.store.cells.read cell := by
      obtain hcells | hcells := (s.registry.next_moves s.store.cells use.initial).2
      · exact congrArg (Cells.read · cell) hcells
      · refine (congrArg (Cells.read · cell) hcells).trans ?_
        rw [Cells.read_make, if_neg (Nat.ne_of_lt hcell)]
    change c.after.store.cells.read cell = _
    rw [← htaken]
    obtain ⟨hleaves, deps, -, hcells⟩ | ⟨-, hafter⟩ := c.after_cases
    · rw [hcells]
      apply Cells.read_write_of_ne
      rintro rfl
      exact h (if_pos hleaves)
    · rw [hafter]
  | load | reset | clean | handler | alter | request | defer | deferAsync | takeRender | takeEffects
  | takeAsync | finish => rfl

end Moment

namespace Deed

theorem size_le_perform (d : Deed ω) (s : Scope ω) :
    s.store.cells.contents.size ≤ (d.perform s).store.cells.contents.size := by
  cases d with
  | set state f => exact (Store.lasting_grown.set s.store state _).size_le
  | put ref content => exact (s.store.cells.grown_write ref.cell content).size_le
  | request => exact (Store.lasting_grown.request s.store).size_le
  | call use =>
    let c : SlotCall ω := ⟨use, s⟩
    have htaken : s.store.cells.contents.size ≤ c.taken.2.store.cells.contents.size := by
      obtain hcells | hcells := (s.registry.next_moves s.store.cells use.initial).2
      · exact Nat.le_of_eq (congrArg (fun cells : Cells => cells.contents.size) hcells).symm
      · refine Nat.le_of_lt (Nat.lt_of_lt_of_eq ?_
          (congrArg (fun cells : Cells => cells.contents.size) hcells).symm)
        rw [Cells.size_make]
        exact Nat.lt_succ_self _
    refine Nat.le_trans htaken ?_
    change _ ≤ c.after.store.cells.contents.size
    obtain ⟨-, deps, -, hcells⟩ | ⟨-, hafter⟩ := c.after_cases
    · exact Nat.le_of_eq ((Cells.size_write _ _ _).symm.trans (by rw [hcells]))
    · exact Nat.le_of_eq (by rw [hafter])
  | load | reset | clean | handler | alter | defer | deferAsync | takeRender | takeEffects | takeAsync
  | finish => exact Nat.le_refl _

theorem read_performAll {deeds : List (Deed ω)} {s : Scope ω} {cell : CellId}
    (hcell : cell < s.store.cells.contents.size) (h : ∀ m ∈ log deeds s, m.written? ≠ some cell) :
    (performAll deeds s).store.cells.read cell = s.store.cells.read cell := by
  induction deeds generalizing s with
  | nil => rfl
  | cons d rest ih =>
    obtain ⟨hfirst, hlater⟩ := List.forall_mem_cons.mp h
    exact (ih (Nat.lt_of_lt_of_le hcell (d.size_le_perform s)) hlater).trans
      ((⟨d, s⟩ : Moment ω).read_perform hcell hfirst)

end Deed

end ReactiveView
