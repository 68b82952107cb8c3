import ReactiveView.Proofs.Hook.Identity
import ReactiveView.Proofs.Render.Remount

namespace ReactiveView

variable {ω : Type}

/-- A slot with a cell of some kind is left as it is: its bucket is not emptied, and hooks of other
kinds do not take it. -/
structure Undisturbed (events : List (SlotEvent ω)) (key : Coordinate) (slot : Nat)
    (kind : DatumKind) : Prop where
  not_cleaned : .cleaned (some key) ∉ events
  kind_eq : ∀ c, .called c ∈ events → c.key = some key → c.slot = slot → c.kind = kind

section Slots

variable {events events' later after : List (SlotEvent ω)} {key : Coordinate} {n : Nat}
  {kind : DatumKind} {c d : SlotCall ω} {s : Scope ω}

theorem undisturbed_append : Undisturbed (events ++ events') key n kind ↔
    Undisturbed events key n kind ∧ Undisturbed events' key n kind := by
  constructor
  · intro h
    refine ⟨⟨fun hc => ?_, fun c hc => ?_⟩, fun hc => ?_, fun c hc => ?_⟩
    · exact h.not_cleaned (List.mem_append_left _ hc)
    · exact h.kind_eq c (List.mem_append_left _ hc)
    · exact h.not_cleaned (List.mem_append_right _ hc)
    · exact h.kind_eq c (List.mem_append_right _ hc)
  · rintro ⟨h, h'⟩
    refine ⟨fun hc => ?_, fun c hc => ?_⟩
    · exact (List.mem_append.mp hc).elim h.not_cleaned h'.not_cleaned
    · exact (List.mem_append.mp hc).elim (h.kind_eq c) (h'.kind_eq c)

theorem exists_split_of_latest? (h : latest? key n events = some c) :
    ∃ before quiet, events = before ++ .called c :: quiet ∧ c.key = some key ∧ c.slot = n ∧
      Undisturbed quiet key n c.kind := by
  induction events using List.reverseRecOn with
  | nil => cases h
  | append_singleton events e ih =>
    rw [latest?_concat] at h
    -- An event that leaves the slot alone only makes the quiet part longer.
    have hquiet : latest? key n events = some c → Undisturbed [e] key n c.kind →
        ∃ before quiet, events ++ [e] = before ++ .called c :: quiet ∧ c.key = some key ∧
          c.slot = n ∧ Undisturbed quiet key n c.kind := by
      intro hc he
      obtain ⟨before, quiet, rfl, hkey, hslot, hquiet⟩ := ih hc
      exact ⟨before, quiet ++ [e], by simp, hkey, hslot, undisturbed_append.mpr ⟨hquiet, he⟩⟩
    cases e with
    | described other => exact hquiet h ⟨by simp, by simp⟩
    | called d =>
      rw [SlotEvent.hold] at h
      split at h
      · rename_i hplace
        cases h
        exact ⟨events, [], rfl, hplace.1, hplace.2, by simp, by simp⟩
      · rename_i hplace
        refine hquiet h ⟨by simp, fun f hf hkey hslot => ?_⟩
        cases List.mem_singleton.mp hf
        exact absurd ⟨hkey, hslot⟩ hplace
    | cleaned other =>
      rw [SlotEvent.hold] at h
      split at h
      · cases h
      · rename_i hother
        refine hquiet h ⟨fun hmem => ?_, by simp⟩
        cases List.mem_singleton.mp hmem
        exact hother rfl

namespace Scope.Arises

theorem held_iff_undisturbed (h : Arises (events ++ later) s) (hd : latest? key n events = some d) :
    (latest? key n (events ++ later)).map SlotCall.cell = some d.cell ↔
      Undisturbed later key n d.kind := by
  obtain ⟨before, quiet, rfl, hkey, rfl, hquiet⟩ := exists_split_of_latest? hd
  rw [List.append_assoc, List.cons_append] at h ⊢
  rw [Option.map_eq_some_iff]
  constructor
  · rintro ⟨d', hd', hcell⟩
    obtain ⟨-, -, -, hclean, hkinds⟩ | hu := h.held_or_unheld hkey
    · exact (undisturbed_append.mp ⟨hclean, hkinds⟩).2
    · exact absurd hcell (hu key d.slot d' hd')
  · intro hlater
    obtain ⟨hclean, hkinds⟩ := undisturbed_append.mpr ⟨hquiet, hlater⟩
    obtain ⟨d', hd', hcell, -⟩ := h.latest?_of_not_cleaned hkey hclean hkinds
    exact ⟨d', hd', hcell⟩

theorem cell_eq_iff_of_latest? (h : Arises (events ++ (later ++ .called c :: after)) s)
    (hd : latest? key n events = some d) :
    (c.cell = d.cell ↔ (c.key = some key ∧ c.slot = n ∧ c.kind = d.kind) ∧
      Undisturbed later key n d.kind) ∧
    (c.cell = d.cell → c.content = c.scope.store.get d.setter) := by
  obtain ⟨before, quiet, rfl, hkey, rfl, hquiet⟩ := exists_split_of_latest? hd
  have hall : before ++ .called d :: quiet ++ (later ++ .called c :: after) =
      before ++ .called d :: (quiet ++ later ++ .called c :: after) := by simp
  rw [hall] at h
  have hcell : c.cell = d.cell ↔ (c.key = some key ∧ c.slot = d.slot ∧ c.kind = d.kind) ∧
      Undisturbed later key d.slot d.kind := by
    rw [h.cell_eq_iff_undisturbed]
    constructor
    · rintro ⟨key', hkey', hc, hslot, hkind, hclean, hkinds⟩
      cases hkey.symm.trans hkey'
      exact ⟨⟨hc, hslot, hkind⟩, (undisturbed_append.mp ⟨hclean, hkinds⟩).2⟩
    · rintro ⟨⟨hc, hslot, hkind⟩, hlater⟩
      obtain ⟨hclean, hkinds⟩ := undisturbed_append.mpr ⟨hquiet, hlater⟩
      exact ⟨key, hkey, hc, hslot, hkind, hclean, hkinds⟩
  refine ⟨hcell, fun hc => ?_⟩
  obtain ⟨⟨hc, hslot, hkind⟩, hlater⟩ := hcell.mp hc
  obtain ⟨hclean, hkinds⟩ := undisturbed_append.mpr ⟨hquiet, hlater⟩
  exact (h.cell_eq_iff hkey hc hslot hkind hkinds).2 hclean

end Scope.Arises

end Slots

namespace Session

/-- Sessions of which each comes about by what happened before and in the passes of those in front of
it. -/
def AriseInTurn (before : List (SlotEvent ω)) : List (Session ω) → Prop
  | [] => True
  | s :: rest => s.Arises before ∧ AriseInTurn (before ++ s.slotEvents) rest

variable {before : List (SlotEvent ω)} {s : Session ω}

theorem ariseInTurn_append {passes rest : List (Session ω)} : AriseInTurn before (passes ++ rest) ↔
    AriseInTurn before passes ∧ AriseInTurn (before ++ passes.flatMap slotEvents) rest := by
  induction passes generalizing before with
  | nil => simp [AriseInTurn]
  | cons s passes ih => simp [AriseInTurn, ih, and_assoc]

namespace Arises

theorem passOfTick (h : Arises before s) : AriseInTurn before s.passOfTick := by
  rw [Session.passOfTick]
  split
  · exact ⟨h.taken, trivial⟩
  · trivial

theorem passesOfTurns (turns : Nat) (h : Arises before s) :
    AriseInTurn before (Session.passesOfTurns turns s) := by
  induction turns generalizing before s with
  | zero => trivial
  | succ turns ih =>
    have htick := h.tick
    rw [Session.passesOfTurns, ariseInTurn_append]
    refine ⟨h.passOfTick, ?_⟩
    rcases ht : s.tick with ⟨e | _ | _, s'⟩ <;> rw [ht] at htick
    · trivial
    · trivial
    · exact ih htick

theorem passes (h : Arises before s) (a : Action ω) : AriseInTurn before (a.passes s) := by
  cases a with
  | rerender => exact ⟨h, trivial⟩
  | tick => exact h.passOfTick
  | runUntilIdle => exact h.passesOfTurns _
  | request | dispatch | act | openGate | alter => trivial

theorem passesOf (actions : List (Action ω)) (h : Arises before s) :
    AriseInTurn before (Session.passesOf actions s) := by
  induction actions generalizing before s with
  | nil => trivial
  | cons a actions ih =>
    rw [Session.passesOf, ariseInTurn_append]
    exact ⟨h.passes a, ih (h.perform a)⟩

end Arises

theorem ariseInTurn_history (app : Application ω) (host : ω) (actions : List (Action ω)) :
    AriseInTurn [] (history app host actions) := by
  have hstart : Arises [] (start app host) := Scope.Arises.start host
  exact ⟨hstart, hstart.rerender.passesOf actions⟩

variable {app : Application ω} {host : ω} {actions : List (Action ω)} {passes rest : List (Session ω)}
  {e : RenderError} {key : Coordinate} {n : Nat} {cell : CellId}

/-- A pass that fails changes nothing of what is shown. A cell that was in a slot before it is there
afterwards exactly if the pass left the slot as it was. Calls in later passes get that cell, with what
it holds by then, exactly if no pass up to them did anything to the slot. -/
theorem slots_of_error (hhistory : history app host actions = passes ++ s :: rest)
    (herror : s.rerender.1 = .error e) (hcell : s.registry.cellAt key n = some cell) :
    Unmoved s s.rerender.2 ∧
    (s.rerender.2.registry.cellAt key n = some cell ↔
      Undisturbed s.slotEvents key n (s.store.get ⟨cell⟩).kind) ∧
    ∀ (between later : List (Session ω)) (s' : Session ω) (before after : List (SlotEvent ω))
      (c : SlotCall ω), rest = between ++ s' :: later → s'.slotEvents = before ++ .called c :: after →
      (c.setter = ⟨cell⟩ ↔
        (c.key = some key ∧ c.slot = n ∧ c.kind = (s.store.get ⟨cell⟩).kind) ∧
        Undisturbed ((s :: between).flatMap slotEvents ++ before) key n (s.store.get ⟨cell⟩).kind) ∧
      (c.setter = ⟨cell⟩ → c.content = c.scope.store.get ⟨cell⟩) := by
  have hinturn := ariseInTurn_history app host actions
  rw [hhistory, ariseInTurn_append] at hinturn
  obtain ⟨-, hs, hrest⟩ := hinturn
  have htold := Scope.Arises.told hs
  obtain ⟨d, hd, rfl⟩ := Option.map_eq_some_iff.mp ((htold.held key n).symm.trans hcell)
  have hkind : (s.store.get ⟨d.cell⟩).kind = d.kind := htold.kind_eq d (mem_of_latest? hd)
  rw [hkind]
  refine ⟨unmoved_rerender herror, ?_, ?_⟩
  · rw [(Scope.Arises.told hs.rerender).held]
    exact Scope.Arises.held_iff_undisturbed hs.rerender hd
  · rintro between later s' before after c rfl hevents
    rw [ariseInTurn_append] at hrest
    have hs' := hrest.2.1.expand
    rw [hevents, List.append_assoc _ s.slotEvents, ← List.flatMap_cons, List.append_assoc,
      ← List.append_assoc _ before] at hs'
    have hsetter : c.setter = ⟨d.cell⟩ ↔ c.cell = d.cell := (Setter.mk.injEq ..).to_iff
    rw [hsetter]
    exact Scope.Arises.cell_eq_iff_of_latest? hs' hd

/-- A component with a state in front of one that fails while the host is off. -/
def guarded (uses : String) : Application Bool where
  library key :=
    if key = "inner" then
      ⟨"Inner", fun _ => .state (.flag false) fun _ _ => .done (.ok ⟨[], "x", Dict.empty, true⟩)⟩
    else if key = "guard" then
      ⟨"Guard", fun _ => .look fun v => .done (if v.host then .ok ⟨[], "y", Dict.empty, true⟩
        else .error (.failed "Guard" "off"))⟩
    else
      ⟨"App", fun _ => .look fun v => .done (.ok ⟨["inner", "guard"], "<p>" ++ uses ++ "<Guard/></p>",
        Dict.empty.insert "on" (.value (.bool v.host)), true⟩)⟩
  root := "app"
  options := .standard

theorem slots_of_error_shown : ∃ s e,
    history (guarded "<Inner/>") true (setFirst :: turn false) =
        [start (guarded "<Inner/>") true] ++ s :: [] ∧
      s.rerender.1 = .error e ∧ s.registry.cellAt ⟨"Inner", 1⟩ 0 = some 0 ∧
      s.rerender.2.registry.cellAt ⟨"Inner", 1⟩ 0 = some 0 := by
  let app := guarded "<Inner/>"
  let s := (Action.alter fun _ => false).perform (setFirst.perform (mount app true).2)
  have herror : s.rerender.1 = .error (.failed "Guard" "off") := by decide +kernel
  have hcell : s.registry.cellAt ⟨"Inner", 1⟩ 0 = some 0 := by decide +kernel
  have hhistory : history app true (setFirst :: turn false) = [start app true] ++ s :: [] := rfl
  refine ⟨s, _, hhistory, herror, hcell, ?_⟩
  apply (slots_of_error hhistory herror hcell).2.1.mpr
  refine ⟨?_, fun c hc _ _ => ?_⟩
  · rw [SlotEvent.cleaned_mem_iff]
    decide +kernel
  · have hkinds : (s.slotEvents.filterMap SlotEvent.call?).all
        (fun c => decide (c.kind = (s.store.get ⟨0⟩).kind)) = true := by decide +kernel
    exact of_decide_eq_true (List.all_eq_true.mp hkinds c (SlotEvent.called_mem_iff.mp hc))

/-- A state that is hidden in a pass that fails loses its cell. -/
theorem not_kept_by_error : ¬ ∀ (app : Application Bool) (host : Bool) (actions : List (Action Bool))
    (passes rest : List (Session Bool)) (s : Session Bool) (e : RenderError) (key : Coordinate)
    (n : Nat) (cell : CellId), history app host actions = passes ++ s :: rest →
    (∀ c d, .called c ∈ trace app host actions → .called d ∈ trace app host actions →
      c.key = d.key → c.slot = d.slot → c.kind = d.kind) →
    s.rerender.1 = .error e → s.registry.cellAt key n = some cell →
    s.rerender.2.registry.cellAt key n = some cell := by
  intro h
  let app := guarded (switched "Inner")
  let s := (Action.alter fun _ => false).perform (setFirst.perform (mount app true).2)
  have hflags : ((trace app true (setFirst :: turn false)).filterMap SlotEvent.call?).all
      (fun c => decide (c.kind = .flag)) = true := by decide +kernel
  have hkinds : ∀ c, .called c ∈ trace app true (setFirst :: turn false) → c.kind = .flag :=
    fun c hc => of_decide_eq_true (List.all_eq_true.mp hflags c (SlotEvent.called_mem_iff.mp hc))
  have hkept := h app true (setFirst :: turn false) [start app true] [] s (.failed "Guard" "off")
    ⟨"Inner", 1⟩ 0 0 rfl (fun c d hc hd _ _ => (hkinds c hc).trans (hkinds d hd).symm)
    (by decide +kernel) (by decide +kernel)
  revert hkept
  decide +kernel

end Session

end ReactiveView
