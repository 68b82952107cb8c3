import ReactiveView.Hook.Scope

namespace ReactiveView

variable {ω α : Type}

/-- A hook that takes a slot. -/
inductive SlotUse (ω : Type) where
  | state (initial : Datum)
  | ref (initial : Datum)
  | effect (deps : Value) (effect : Program ω .sync)
  | effectAsync (deps : Value) (effect : Program ω .async)

namespace SlotUse

def initial : SlotUse ω → Datum
  | state initial => initial
  | ref initial => initial
  | effect _ _ => .deps none
  | effectAsync _ _ => .deps none

def perform : SlotUse ω → Scope ω → Scope ω
  | state initial, s => (s.useState initial).2.2
  | ref initial, s => (s.useRef initial).2
  | effect deps program, s => s.useEffect deps program
  | effectAsync deps program, s => s.useEffectAsync deps program

end SlotUse

/-- A hook and the scope that it is called on. -/
structure SlotCall (ω : Type) where
  use : SlotUse ω
  scope : Scope ω

namespace SlotCall

def key (c : SlotCall ω) : Option Coordinate := c.scope.registry.active

def slot (c : SlotCall ω) : Nat := c.scope.registry.cursor

def kind (c : SlotCall ω) : DatumKind := c.use.initial.kind

/-- The cell that the call gets, with the scope in which its slot is taken. -/
def taken (c : SlotCall ω) : CellId × Scope ω := c.scope.slot c.use.initial

def cell (c : SlotCall ω) : CellId := c.taken.1

/-- What the call finds in its cell. A state results in this, and whether an effect is left depends
on it. -/
def content (c : SlotCall ω) : Datum := c.taken.2.store.cells.read c.cell

def setter (c : SlotCall ω) : Setter := ⟨c.cell⟩

def after (c : SlotCall ω) : Scope ω := c.use.perform c.scope

/-- The call gets a cell that is made for it, so the hook does what it does when it is called for
the first time. -/
structure Fresh (c : SlotCall ω) : Prop where
  cell_eq : c.cell = c.scope.store.cells.contents.size
  content_eq : c.content = c.use.initial
  /-- An effect is left whatever its dependencies are. -/
  effect_left : ∀ deps program, c.use = .effect deps program →
    c.after.store.scheduler = c.scope.store.scheduler.defer program
  effectAsync_left : ∀ deps program, c.use = .effectAsync deps program →
    c.scope.store.scheduler.asyncInFlight = false →
    c.after.store.scheduler = c.scope.store.scheduler.beginAsync.2.deferAsync program

theorem scheduler_effect (deps : Value) (program : Program ω .sync) (s : Scope ω) :
    (⟨.effect deps program, s⟩ : SlotCall ω).after.store.scheduler =
      if Scope.depsChanged (⟨.effect deps program, s⟩ : SlotCall ω).content deps then
        s.store.scheduler.defer program
      else s.store.scheduler := by
  by_cases hchanged : Scope.depsChanged (⟨.effect deps program, s⟩ : SlotCall ω).content deps = true
  · have hafter : s.useEffect deps program = _ := if_pos hchanged
    rw [if_pos hchanged, after, SlotUse.perform, hafter]
  · have hafter : s.useEffect deps program = _ := if_neg hchanged
    rw [if_neg hchanged, after, SlotUse.perform, hafter]

theorem scheduler_effectAsync (deps : Value) (program : Program ω .async) (s : Scope ω) :
    (⟨.effectAsync deps program, s⟩ : SlotCall ω).after.store.scheduler =
      if Scope.depsChanged (⟨.effectAsync deps program, s⟩ : SlotCall ω).content deps then
        if s.store.scheduler.asyncInFlight then s.store.scheduler.beginAsync.2
        else s.store.scheduler.beginAsync.2.deferAsync program
      else s.store.scheduler := by
  by_cases hchanged :
      Scope.depsChanged (⟨.effectAsync deps program, s⟩ : SlotCall ω).content deps = true
  · have hread : Scope.depsChanged
        ((s.slot (.deps none)).2.store.cells.read (s.slot (.deps none)).1) deps = true := hchanged
    have hbegin : (s.slot (.deps none)).2.store.scheduler.beginAsync =
        (!s.store.scheduler.asyncInFlight, s.store.scheduler.beginAsync.2) := rfl
    rw [if_pos hchanged, after, SlotUse.perform, Scope.useEffectAsync]
    simp only [hread, hbegin]
    cases s.store.scheduler.asyncInFlight <;> rfl
  · have hafter : s.useEffectAsync deps program = _ := if_neg hchanged
    rw [if_neg hchanged, after, SlotUse.perform, hafter]

theorem Fresh.of_content {c : SlotCall ω} (hcell : c.cell = c.scope.store.cells.contents.size)
    (hcontent : c.content = c.use.initial) : c.Fresh where
  cell_eq := hcell
  content_eq := hcontent
  effect_left := by
    obtain ⟨use, s⟩ := c
    intro deps program huse
    cases huse
    rw [scheduler_effect, hcontent]
    exact if_pos rfl
  effectAsync_left := by
    obtain ⟨use, s⟩ := c
    intro deps program huse hfree
    cases huse
    rw [scheduler_effectAsync, hcontent, hfree]
    exact if_pos rfl

end SlotCall

def Describe.calls : Describe ω α → Scope ω → List (SlotCall ω)
  | done _, _ => []
  | state initial next, s =>
    let (content, setter, after) := s.useState initial
    ⟨.state initial, s⟩ :: (next content setter).calls after
  | ref initial next, s =>
    let (cell, after) := s.useRef initial
    ⟨.ref initial, s⟩ :: (next cell).calls after
  | effect deps program next, s =>
    ⟨.effect deps program, s⟩ :: next.calls (s.useEffect deps program)
  | effectAsync deps program next, s =>
    ⟨.effectAsync deps program, s⟩ :: next.calls (s.useEffectAsync deps program)
  | handler react next, s =>
    let (made, s) := s.makeHandler react
    (next made).calls s
  | reuse id next, s => (next (s.store.handler? id)).calls s
  | look next, s => (next s.store.view).calls s
  | act program next, s => next.calls { s with store := program.run s.store }

/-- What happens to the slots of hooks. -/
inductive SlotEvent (ω : Type) where
  /-- A component is described, with the bucket at the coordinate active. -/
  | described (key : Option Coordinate)
  | called (call : SlotCall ω)
  /-- The bucket at the coordinate is emptied. -/
  | cleaned (key : Option Coordinate)

namespace SlotEvent

def described? : SlotEvent ω → Option Coordinate
  | described key => key
  | _ => none

def call? : SlotEvent ω → Option (SlotCall ω)
  | called c => some c
  | _ => none

def cleaned? : SlotEvent ω → Option Coordinate
  | cleaned key => key
  | _ => none

variable {events : List (SlotEvent ω)} {key : Coordinate}

theorem described_mem_iff : .described (some key) ∈ events ↔ key ∈ events.filterMap described? := by
  rw [List.mem_filterMap]
  constructor
  · exact fun h => ⟨_, h, rfl⟩
  · rintro ⟨_ | _ | _, he, hkey⟩ <;> cases hkey
    exact he

theorem called_mem_iff {c : SlotCall ω} : .called c ∈ events ↔ c ∈ events.filterMap call? := by
  rw [List.mem_filterMap]
  constructor
  · exact fun h => ⟨_, h, rfl⟩
  · rintro ⟨_ | _ | _, he, hc⟩ <;> cases hc
    exact he

theorem cleaned_mem_iff : .cleaned (some key) ∈ events ↔ key ∈ events.filterMap cleaned? := by
  rw [List.mem_filterMap]
  constructor
  · exact fun h => ⟨_, h, rfl⟩
  · rintro ⟨_ | _ | _, he, hkey⟩ <;> cases hkey
    exact he

theorem exists_called_mem (events : List (SlotEvent ω)) (p : SlotCall ω → Bool)
    (h : (events.filterMap call?).any p = true) : ∃ c, .called c ∈ events ∧ p c = true := by
  obtain ⟨c, hc, hp⟩ := List.any_eq_true.mp h
  exact ⟨c, called_mem_iff.mpr hc, hp⟩

theorem not_called_mem (events : List (SlotEvent ω)) (h : (events.filterMap call?).isEmpty = true)
    (c : SlotCall ω) : .called c ∉ events := by
  rw [called_mem_iff, List.isEmpty_iff.mp h]
  exact List.not_mem_nil

theorem exists_call (events : List (SlotEvent ω)) (n : Nat) (p : SlotCall ω → Bool)
    (h : (events[n]?.bind call?).any p = true) :
    ∃ c, events = events.take n ++ .called c :: events.drop (n + 1) ∧ p c = true := by
  cases he : events[n]? with
  | none =>
    rw [he] at h
    cases h
  | some e =>
    rw [he] at h
    cases e with
    | described key => cases h
    | called c =>
      obtain ⟨hlt, hget⟩ := List.getElem?_eq_some_iff.mp he
      refine ⟨c, ?_, h⟩
      rw [← hget, List.getElem_cons_drop, List.take_append_drop]
    | cleaned key => cases h

theorem exists_calls (events : List (SlotEvent ω)) (n m : Nat) (p : SlotCall ω → Bool)
    (h : (events[n]?.bind call?).any p = true)
    (h' : ((events.drop (n + 1))[m]?.bind call?).any p = true) :
    ∃ c c', events = events.take n ++ .called c :: ((events.drop (n + 1)).take m ++
        .called c' :: (events.drop (n + 1)).drop (m + 1)) ∧ p c = true ∧ p c' = true := by
  obtain ⟨c, hevents, hc⟩ := exists_call events n p h
  obtain ⟨c', hrest, hc'⟩ := exists_call (events.drop (n + 1)) m p h'
  refine ⟨c, c', ?_, hc, hc'⟩
  rw [← hrest]
  exact hevents

end SlotEvent

end ReactiveView
