import Mathlib.Data.List.Induction
import ReactiveView.Proofs.Hook.Slots

namespace ReactiveView

variable {ω α : Type}

/-- The smallest thing that happens to hooks and to what they work on. -/
inductive Deed (ω : Type) where
  | load (key : Coordinate)
  | reset
  | clean
  /-- A hook takes a slot. -/
  | call (use : SlotUse ω)
  | handler (react : Reaction ω)
  | alter (change : ω → ω)
  /-- Set a state to what is made of its content, or to a content whatever there is. -/
  | set (state : Setter) (f : Datum → Datum)
  | put (ref : Ref) (content : Datum)
  | request
  | defer (effect : Program ω .sync)
  | deferAsync (effect : Program ω .async)
  | takeRender
  | takeEffects
  | takeAsync
  /-- An asynchronous effect comes to its end. -/
  | finish

def Scope.start (host : ω) : Scope ω := ⟨Registry.empty, Store.start host⟩

namespace Deed

def perform : Deed ω → Scope ω → Scope ω
  | load key, s => { s with registry := s.registry.load key }
  | reset, s => { s with registry := s.registry.reset }
  | clean, s => { s with registry := s.registry.clean }
  | call use, s => use.perform s
  | handler react, s => (s.makeHandler react).2
  | alter change, s => { s with store.host := change s.store.host }
  | set state f, s => { s with store := s.store.set state (f (s.store.get state)) }
  | put ref content, s => { s with store := s.store.put ref content }
  | request, s => { s with store := s.store.request }
  | defer effect, s => { s with store.scheduler := s.store.scheduler.defer effect }
  | deferAsync effect, s => { s with store.scheduler := s.store.scheduler.deferAsync effect }
  | takeRender, s => { s with store.scheduler := s.store.scheduler.takeRender.2 }
  | takeEffects, s => { s with store.scheduler := s.store.scheduler.takeEffects.2 }
  | takeAsync, s => { s with store.scheduler := s.store.scheduler.takeAsync.2 }
  | finish, s => { s with store.scheduler := s.store.scheduler.endAsync }

def performAll (deeds : List (Deed ω)) (s : Scope ω) : Scope ω :=
  deeds.foldl (fun s d => d.perform s) s

theorem performAll_append (deeds deeds' : List (Deed ω)) (s : Scope ω) :
    performAll (deeds ++ deeds') s = performAll deeds' (performAll deeds s) := List.foldl_append

theorem performAll_concat (deeds : List (Deed ω)) (d : Deed ω) (s : Scope ω) :
    performAll (deeds ++ [d]) s = d.perform (performAll deeds s) := List.foldl_append

end Deed

/-- A deed and the scope on which it is done. -/
structure Moment (ω : Type) where
  deed : Deed ω
  scope : Scope ω

def SlotCall.moment (c : SlotCall ω) : Moment ω := ⟨.call c.use, c.scope⟩

def Moment.event? (m : Moment ω) : Option (SlotEvent ω) :=
  match m.deed with
  | .clean => some (.cleaned m.scope.registry.active)
  | .call use => some (.called ⟨use, m.scope⟩)
  | _ => none

def Moment.events (log : List (Moment ω)) : List (SlotEvent ω) := log.filterMap Moment.event?

namespace Deed

def log : List (Deed ω) → Scope ω → List (Moment ω)
  | [], _ => []
  | d :: rest, s => ⟨d, s⟩ :: log rest (d.perform s)

theorem log_append (deeds deeds' : List (Deed ω)) (s : Scope ω) :
    log (deeds ++ deeds') s = log deeds s ++ log deeds' (performAll deeds s) := by
  induction deeds generalizing s with
  | nil => rfl
  | cons d rest ih => exact congrArg (Moment.mk d s :: ·) (ih (d.perform s))

theorem log_concat (deeds : List (Deed ω)) (d : Deed ω) (s : Scope ω) :
    log (deeds ++ [d]) s = log deeds s ++ [⟨d, performAll deeds s⟩] := log_append deeds [d] s

theorem map_deed_log (deeds : List (Deed ω)) (s : Scope ω) :
    (log deeds s).map Moment.deed = deeds := by
  induction deeds generalizing s with
  | nil => rfl
  | cons d rest ih => exact congrArg (d :: ·) (ih (d.perform s))

theorem mem_of_mem_log {deeds : List (Deed ω)} {s : Scope ω} {m : Moment ω} (h : m ∈ log deeds s) :
    m.deed ∈ deeds := by
  rw [← map_deed_log deeds s]
  exact List.mem_map_of_mem h

theorem exists_of_log_eq {deeds : List (Deed ω)} {s : Scope ω} {before after : List (Moment ω)}
    (h : log deeds s = before ++ after) :
    ∃ deeds' deeds'', deeds = deeds' ++ deeds'' ∧ log deeds' s = before ∧
      log deeds'' (performAll deeds' s) = after := by
  have hdeeds : deeds = before.map Moment.deed ++ after.map Moment.deed := by
    rw [← List.map_append, ← h, map_deed_log]
  refine ⟨_, _, hdeeds, ?_⟩
  rw [hdeeds, log_append] at h
  refine List.append_inj h ?_
  rw [← List.length_map (f := Moment.deed), map_deed_log, List.length_map]

theorem exists_of_mem_log {deeds : List (Deed ω)} {s : Scope ω} {m : Moment ω}
    {before after : List (Moment ω)} (h : log deeds s = before ++ m :: after) :
    ∃ deeds' deeds'', deeds = deeds' ++ m.deed :: deeds'' ∧ log deeds' s = before ∧
      performAll deeds' s = m.scope ∧ log deeds'' (m.deed.perform m.scope) = after := by
  obtain ⟨deeds', _ | ⟨d, deeds''⟩, rfl, hbefore, hafter⟩ := exists_of_log_eq h
  · cases hafter
  · obtain ⟨rfl, hrest⟩ := List.cons.inj hafter
    exact ⟨deeds', deeds'', rfl, hbefore, rfl, hrest⟩

end Deed

/-- A deed of programs and descriptions, which leave to others when passes begin and queues are
taken. -/
def Deed.Inner : Deed ω → Prop
  | call _ | handler _ | alter _ | set _ _ | put _ _ | request | defer _ | deferAsync _ => True
  | _ => False

def Program.deeds (opened : List String) : {m : Mode} → Program ω m → Store ω → List (Deed ω)
  | _, done, _ => []
  | _, look next, s => (next s.view).deeds opened s
  | _, alter change next, s =>
    .alter change :: next.deeds opened { s with host := change s.host }
  | _, set state content next, s =>
    .set state (fun _ => content) :: next.deeds opened (s.set state content)
  | _, put ref content next, s => .put ref content :: next.deeds opened (s.put ref content)
  | _, request next, s => .request :: next.deeds opened s.request
  | _, defer effect next, s =>
    .defer effect :: next.deeds opened { s with scheduler := s.scheduler.defer effect }
  | _, deferAsync effect next, s =>
    .deferAsync effect :: next.deeds opened { s with scheduler := s.scheduler.deferAsync effect }
  | _, await gate next, s => if gate ∈ opened then next.deeds opened s else []

theorem Program.performAll_deeds (opened : List String) {m : Mode} (p : Program ω m) :
    ∀ s : Scope ω, Deed.performAll (p.deeds opened s.store) s =
      { s with store := (p.advance opened s.store).2 } := by
  induction p with
  | done =>
    intro s
    rfl
  | look next ih =>
    intro s
    exact ih s.store.view s
  | alter change next ih =>
    intro s
    exact ih ((Deed.alter change).perform s)
  | set state content next ih =>
    intro s
    exact ih ((Deed.set state fun _ => content).perform s)
  | put ref content next ih =>
    intro s
    exact ih ((Deed.put ref content).perform s)
  | request next ih =>
    intro s
    exact ih (Deed.request.perform s)
  | defer effect next _ ih =>
    intro s
    exact ih ((Deed.defer effect).perform s)
  | deferAsync effect next _ ih =>
    intro s
    exact ih ((Deed.deferAsync effect).perform s)
  | await gate next ih =>
    intro s
    rw [Program.deeds, Program.advance]
    split
    · exact ih s
    · rfl

theorem Program.inner_deeds (opened : List String) {m : Mode} (p : Program ω m) :
    ∀ (s : Store ω), ∀ d ∈ p.deeds opened s, d.Inner := by
  induction p with
  | done =>
    intro s d hd
    cases hd
  | look next ih =>
    intro s
    exact ih s.view s
  | alter change next ih | set state content next ih | put ref content next ih | request next ih
  | defer effect next _ ih | deferAsync effect next _ ih =>
    intro s
    exact List.forall_mem_cons.mpr ⟨trivial, ih _⟩
  | await gate next ih =>
    intro s
    rw [Program.deeds]
    split
    · exact ih s
    · intro d hd
      cases hd

/-- The deeds of programs that run one after another, each made when it is its turn. -/
def Program.deedsAll {β : Type} (f : β → Store ω → Program ω .sync) :
    List β → Store ω → List (Deed ω)
  | [], _ => []
  | b :: rest, s => (f b s).deeds [] s ++ deedsAll f rest ((f b s).run s)

theorem Program.performAll_deedsAll {β : Type} (f : β → Store ω → Program ω .sync) (bs : List β)
    (s : Scope ω) : Deed.performAll (Program.deedsAll f bs s.store) s =
      { s with store := bs.foldl (fun s b => (f b s).run s) s.store } := by
  induction bs generalizing s with
  | nil => rfl
  | cons b rest ih =>
    rw [Program.deedsAll, Deed.performAll_append, Program.performAll_deeds]
    exact ih _

theorem Program.inner_deedsAll {β : Type} (f : β → Store ω → Program ω .sync) (bs : List β) :
    ∀ s : Store ω, ∀ d ∈ Program.deedsAll f bs s, d.Inner := by
  induction bs with
  | nil =>
    intro s d hd
    cases hd
  | cons b rest ih =>
    intro s d hd
    rcases List.mem_append.mp hd with hd | hd
    · exact Program.inner_deeds [] _ s d hd
    · exact ih _ d hd

def Describe.deeds : Describe ω α → Scope ω → List (Deed ω)
  | done _, _ => []
  | state initial next, s =>
    let (content, setter, after) := s.useState initial
    .call (.state initial) :: (next content setter).deeds after
  | ref initial next, s =>
    let (cell, after) := s.useRef initial
    .call (.ref initial) :: (next cell).deeds after
  | effect deps program next, s =>
    .call (.effect deps program) :: next.deeds (s.useEffect deps program)
  | effectAsync deps program next, s =>
    .call (.effectAsync deps program) :: next.deeds (s.useEffectAsync deps program)
  | handler react next, s =>
    let (made, after) := s.makeHandler react
    .handler react :: (next made).deeds after
  | reuse id next, s => (next (s.store.handler? id)).deeds s
  | look next, s => (next s.store.view).deeds s
  | act program next, s =>
    program.deeds [] s.store ++ next.deeds { s with store := program.run s.store }

theorem Describe.performAll_deeds (d : Describe ω α) :
    ∀ s : Scope ω, Deed.performAll (d.deeds s) s = (d.run s).2 := by
  induction d with
  | done result =>
    intro s
    rfl
  | state initial next ih =>
    intro s
    exact ih _ _ (s.useState initial).2.2
  | ref initial next ih =>
    intro s
    exact ih _ (s.useRef initial).2
  | effect deps program next ih =>
    intro s
    exact ih (s.useEffect deps program)
  | effectAsync deps program next ih =>
    intro s
    exact ih (s.useEffectAsync deps program)
  | handler react next ih =>
    intro s
    exact ih _ (s.makeHandler react).2
  | reuse id next ih =>
    intro s
    exact ih _ s
  | look next ih =>
    intro s
    exact ih _ s
  | act program next ih =>
    intro s
    rw [Describe.deeds, Deed.performAll_append, program.performAll_deeds]
    exact ih _

theorem Describe.inner_deeds (d : Describe ω α) : ∀ (s : Scope ω), ∀ x ∈ d.deeds s, x.Inner := by
  induction d with
  | done result =>
    intro s x hx
    cases hx
  | state initial next ih =>
    intro s
    exact List.forall_mem_cons.mpr ⟨trivial, ih _ _ _⟩
  | ref initial next ih =>
    intro s
    exact List.forall_mem_cons.mpr ⟨trivial, ih _ _⟩
  | effect deps program next ih | effectAsync deps program next ih =>
    intro s
    exact List.forall_mem_cons.mpr ⟨trivial, ih _⟩
  | handler react next ih =>
    intro s
    exact List.forall_mem_cons.mpr ⟨trivial, ih _ _⟩
  | reuse id next ih =>
    intro s
    exact ih _ s
  | look next ih =>
    intro s
    exact ih _ s
  | act program next ih =>
    intro s x hx
    rcases List.mem_append.mp hx with hx | hx
    · exact Program.inner_deeds [] program s.store x hx
    · exact ih _ x hx

theorem Scope.Arises.perform {events : List (SlotEvent ω)} {s : Scope ω} (h : s.Arises events)
    (d : Deed ω) : (d.perform s).Arises (events ++ Moment.events [⟨d, s⟩]) := by
  have hstill : ∀ store : Store ω, s.store.cells.Grown store.cells →
      Scope.Arises (events ++ []) { s with store := store } := by
    intro store hg
    rw [List.append_nil]
    exact h.store hg
  cases d with
  | load key =>
    rw [Moment.events, List.filterMap_cons_none rfl, List.filterMap_nil, List.append_nil]
    exact h.load key
  | reset =>
    rw [Moment.events, List.filterMap_cons_none rfl, List.filterMap_nil, List.append_nil]
    exact h.reset
  | clean => exact h.clean
  | call use =>
    cases use with
    | state initial => exact h.call (c := ⟨.state initial, s⟩)
    | ref initial => exact h.call (c := ⟨.ref initial, s⟩)
    | effect deps program => exact h.useEffect deps program
    | effectAsync deps program => exact h.useEffectAsync deps program
  | set state f => exact hstill _ (Store.lasting_grown.set s.store state _)
  | put ref content => exact hstill _ (s.store.cells.grown_write ref.cell content)
  | request => exact hstill _ (Store.lasting_grown.request s.store)
  | handler | alter | defer | deferAsync | takeRender | takeEffects | takeAsync | finish =>
    exact hstill _ (.refl _)

/-- The slots come about by what the log tells of them. -/
theorem Deed.arises_log (host : ω) (deeds : List (Deed ω)) :
    Scope.Arises (Moment.events (log deeds (.start host))) (performAll deeds (.start host)) := by
  induction deeds using List.reverseRecOn with
  | nil => exact .start host
  | append_singleton deeds d ih =>
    rw [log_concat, performAll_concat, Moment.events, List.filterMap_append]
    exact ih.perform d

theorem Moment.events_call (before after : List (Moment ω)) (c : SlotCall ω) :
    events (before ++ c.moment :: after) = events before ++ .called c :: events after := by
  have hevent : c.moment.event? = some (.called c) := rfl
  rw [events, List.filterMap_append, List.filterMap_cons_some hevent]
  rfl

theorem Deed.told_of_log {host : ω} {deeds : List (Deed ω)} {before after : List (Moment ω)}
    {c : SlotCall ω} (h : log deeds (.start host) = before ++ c.moment :: after) :
    Scope.Told (Moment.events before) c.scope := by
  have harises := arises_log host deeds
  rw [h, Moment.events_call] at harises
  exact harises.of_called.told

end ReactiveView
