import ReactiveView.Proofs.Render.Trace

namespace ReactiveView

namespace Session

section Runs

variable {ω : Type} {before between after : List (SlotEvent ω)} {c c' : SlotCall ω}
  {key : Coordinate}

/-- Of two calls that take one slot the later one gets the cell of the earlier one, and with it what
was set in the meantime, exactly if no use at the coordinate is hidden between them. -/
theorem keeps_iff (app : Application ω) (host : ω) (actions : List (Action ω))
    (htrace : trace app host actions = before ++ .called c :: (between ++ .called c' :: after))
    (hkey : c.key = some key) (hkey' : c'.key = some key) (hslot : c'.slot = c.slot)
    (hkind : c'.kind = c.kind)
    (hkinds : ∀ d, .called d ∈ between → d.key = some key → d.slot = c.slot → d.kind = c.kind) :
    (c'.setter = c.setter ↔ .cleaned (some key) ∉ between) ∧
      (.cleaned (some key) ∉ between → c'.content = c'.scope.store.get c.setter) := by
  have harises := arises_trace app host actions
  rw [htrace] at harises
  obtain ⟨hcell, hcontent⟩ := harises.cell_eq_iff hkey hkey' hslot hkind hkinds
  rw [SlotCall.setter, SlotCall.setter, Setter.mk.injEq]
  exact ⟨hcell, hcontent⟩

theorem fresh_iff (app : Application ω) (host : ω) (actions : List (Action ω))
    (htrace : trace app host actions = before ++ .called c :: (between ++ .called c' :: after))
    (hkey : c.key = some key) (hkey' : c'.key = some key) (hslot : c'.slot = c.slot)
    (hkind : c'.kind = c.kind)
    (hnext : ∀ d, .called d ∈ between → d.key = some key → d.slot ≠ c.slot) :
    c'.Fresh ↔ .cleaned (some key) ∈ between := by
  have harises := arises_trace app host actions
  rw [htrace] at harises
  exact harises.fresh_iff_cleaned hkey hkey' hslot hkind hnext

end Runs

def switching (uses : String) : Application Bool where
  library key :=
    if key = "inner" then
      ⟨"Inner", fun _ => .state (.flag false) fun _ _ => .done (.ok ⟨[], "x", Dict.empty, true⟩)⟩
    else if key = "outer" then
      ⟨"Outer", fun _ => .done (.ok ⟨["inner"], "<Inner/>", Dict.empty, true⟩)⟩
    else
      ⟨"App", fun _ => .look fun v => .done (.ok ⟨["inner", "outer"], "<p>" ++ uses ++ "</p>",
        Dict.empty.insert "on" (.value (.bool v.host)), true⟩)⟩
  root := "app"
  options := .standard

def switched (name : String) : String := "<" ++ name ++ " $shouldRender=\x7bon\x7d/>"

def setFirst : Action Bool := .act (.set ⟨0⟩ (.flag true) .done)

def turn (on : Bool) : List (Action Bool) := [.alter fun _ => on, .rerender]

def isInner (c : SlotCall Bool) : Bool :=
  decide (c.key = some ⟨"Inner", 1⟩ ∧ c.slot = 0 ∧ c.kind = .flag)

theorem keeps_iff_set : ∃ before between after c c',
    trace (switching "<Inner/>") true [setFirst, .rerender] =
        before ++ .called c :: (between ++ .called c' :: after) ∧
      .cleaned (some ⟨"Inner", 1⟩) ∉ between ∧
      c'.setter = c.setter ∧ c'.content = c'.scope.store.get c.setter := by
  obtain ⟨c, c', htrace, hc, hc'⟩ := SlotEvent.exists_calls
    (trace (switching "<Inner/>") true [setFirst, .rerender]) 2 2 isInner (by decide +kernel)
    (by decide +kernel)
  obtain ⟨hkey, hslot, hkind⟩ := of_decide_eq_true hc
  obtain ⟨hkey', hslot', hkind'⟩ := of_decide_eq_true hc'
  have hclean : .cleaned (some ⟨"Inner", 1⟩) ∉
      ((trace (switching "<Inner/>") true [setFirst, .rerender]).drop 3).take 2 := by
    rw [SlotEvent.cleaned_mem_iff]
    decide +kernel
  have hcalls := SlotEvent.not_called_mem
    (((trace (switching "<Inner/>") true [setFirst, .rerender]).drop 3).take 2) (by decide +kernel)
  have hiff := keeps_iff _ _ _ htrace hkey hkey' (hslot'.trans hslot.symm) (hkind'.trans hkind.symm)
    fun d hd => absurd hd (hcalls d)
  exact ⟨_, _, _, c, c', htrace, hclean, hiff.1.mpr hclean, hiff.2 hclean⟩

/-- A use that is hidden beside one that is shown takes the state of both. -/
theorem not_keeps_beside_hidden : ¬ ∀ (app : Application Bool) (host : Bool)
    (actions : List (Action Bool)) (passes rest : List (Session Bool)) (p q : Session Bool)
    (c c' : SlotCall Bool), history app host actions = passes ++ p :: q :: rest →
    (∀ s ∈ history app host actions, s.rerender.1 = .ok ()) →
    (∀ d e, .called d ∈ trace app host actions → .called e ∈ trace app host actions →
      d.key = e.key → d.slot = e.slot → d.kind = e.kind) →
    .called c ∈ p.slotEvents → .called c' ∈ q.slotEvents → c'.key = c.key → c'.slot = c.slot →
    c'.content = c'.scope.store.get c.setter := by
  intro h
  let app := switching ("<Inner/>" ++ switched "Inner")
  let p := start app false
  let q := setFirst.perform (mount app false).2
  obtain ⟨c, hc, hp⟩ := SlotEvent.exists_called_mem p.slotEvents
    (fun c => isInner c && decide (c.setter = ⟨0⟩)) (by decide +kernel)
  obtain ⟨c', hc', hp'⟩ := SlotEvent.exists_called_mem q.slotEvents
    (fun c => isInner c && (c.content == .flag false && !(c.scope.store.get ⟨0⟩ == .flag false)))
    (by decide +kernel)
  rw [Bool.and_eq_true] at hp hp'
  obtain ⟨hkey, hslot, -⟩ := of_decide_eq_true hp.1
  obtain ⟨hkey', hslot', -⟩ := of_decide_eq_true hp'.1
  have hpasses : ∀ s ∈ [p, q], s.rerender.1 = .ok () :=
    List.forall_mem_cons.mpr ⟨by decide +kernel, List.forall_mem_singleton.mpr (by decide +kernel)⟩
  have hflags : ((trace app false [setFirst, .rerender]).filterMap SlotEvent.call?).all
      (fun d => decide (d.kind = .flag)) = true := by decide +kernel
  have hkinds : ∀ d, .called d ∈ trace app false [setFirst, .rerender] → d.kind = .flag :=
    fun d hd => of_decide_eq_true (List.all_eq_true.mp hflags d (SlotEvent.called_mem_iff.mp hd))
  have hcontent := h app false [setFirst, .rerender] [] [] p q c c' rfl hpasses
    (fun d e hd he _ _ => (hkinds d hd).trans (hkinds e he).symm) hc hc'
    (hkey'.trans hkey.symm) (hslot'.trans hslot.symm)
  -- The call finds `false`, and the cell of the one before holds something else.
  rw [of_decide_eq_true hp.2] at hcontent
  rw [hcontent] at hp'
  simp at hp'

theorem fresh_iff_turned : ∃ before between after c c',
    trace (switching (switched "Inner")) true (setFirst :: (turn false ++ turn true)) =
        before ++ .called c :: (between ++ .called c' :: after) ∧
      .cleaned (some ⟨"Inner", 1⟩) ∈ between ∧ c'.Fresh := by
  obtain ⟨c, c', htrace, hc, hc'⟩ := SlotEvent.exists_calls
    (trace (switching (switched "Inner")) true (setFirst :: (turn false ++ turn true))) 2 4 isInner
    (by decide +kernel) (by decide +kernel)
  obtain ⟨hkey, hslot, hkind⟩ := of_decide_eq_true hc
  obtain ⟨hkey', hslot', hkind'⟩ := of_decide_eq_true hc'
  have hclean : .cleaned (some ⟨"Inner", 1⟩) ∈ ((trace (switching (switched "Inner")) true
      (setFirst :: (turn false ++ turn true))).drop 3).take 4 := by
    rw [SlotEvent.cleaned_mem_iff]
    decide +kernel
  have hcalls := SlotEvent.not_called_mem (((trace (switching (switched "Inner")) true
    (setFirst :: (turn false ++ turn true))).drop 3).take 4) (by decide +kernel)
  have hiff := fresh_iff _ _ _ htrace hkey hkey' (hslot'.trans hslot.symm)
    (hkind'.trans hkind.symm) fun d hd => absurd hd (hcalls d)
  exact ⟨_, _, _, c, c', htrace, hclean, hiff.mpr hclean⟩

/-- A component that is gone because the one around it is hidden keeps its state. -/
theorem not_fresh_inside_hidden : ¬ ∀ (app : Application Bool) (host : Bool)
    (actions : List (Action Bool)) (passes between rest : List (Session Bool)) (p q : Session Bool)
    (key : Coordinate) (before after : List (SlotEvent Bool)) (c : SlotCall Bool),
    history app host actions = passes ++ p :: (between ++ q :: rest) → p.rerender.1 = .ok () →
    (∀ s ∈ p :: between, .described (some key) ∉ s.slotEvents) →
    q.slotEvents = before ++ .called c :: after → c.key = some key →
    (∀ d, .called d ∈ before → d.key = some key → d.slot ≠ c.slot) → c.Fresh := by
  intro h
  let app := switching (switched "Outer")
  let p := (Action.alter fun _ => false).perform (setFirst.perform (mount app true).2)
  let q := (Action.alter fun _ => true).perform (Action.rerender.perform p)
  obtain ⟨c, hevents, hc⟩ := SlotEvent.exists_call q.slotEvents 3
    (fun c => decide (c.key = some ⟨"Inner", 2⟩) &&
      (c.content == .flag true && !(c.use.initial == .flag true))) (by decide +kernel)
  rw [Bool.and_eq_true] at hc
  have hgone : ∀ s ∈ [p], .described (some ⟨"Inner", 2⟩) ∉ s.slotEvents := by
    rw [List.forall_mem_singleton, SlotEvent.described_mem_iff]
    decide +kernel
  have hfirst := SlotEvent.not_called_mem (q.slotEvents.take 3) (by decide +kernel)
  have hfresh := h app true (setFirst :: (turn false ++ turn true)) [start app true] [] [] p q
    ⟨"Inner", 2⟩ _ _ c rfl (by decide +kernel) hgone hevents (of_decide_eq_true hc.1)
    fun d hd => absurd hd (hfirst d)
  rw [hfresh.content_eq] at hc
  simp at hc

end Session

end ReactiveView
