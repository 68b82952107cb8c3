import Mathlib.Data.List.Basic
import ReactiveView.Proofs.Render.Closed
import ReactiveView.Proofs.Render.History
import ReactiveView.Proofs.Template.Caching

namespace ReactiveView

variable {ω α : Type} {source : String → String}

/-- Every component has one text for its template, unless it says that the template depends on the
pass. -/
def Library.Steady (library : Library ω) (source : String → String) : Prop :=
  ∀ key props scope d, (((library key).describe props).run scope).1 = .ok d → d.dynamic = false →
    d.template = source (library key).id

/-- States of two passes that have done the same and differ in what their caches hold. -/
structure PassState.Alike (source : String → String) (s s' : PassState ω) : Prop where
  scope_eq : s.scope = s'.scope
  steps_eq : s.steps = s'.steps
  faithful_left : s.cache.Faithful source
  faithful_right : s'.cache.Faithful source

namespace Pass

/-- What a part of a pass does and results in does not depend on the cache. -/
def Blind (source : String → String) (p : Pass ω α) : Prop :=
  ∀ s s' : PassState ω, s.Alike source s' →
    (p.run s).1 = (p.run s').1 ∧ (p.run s).2.Alike source (p.run s').2

theorem blind_template (hr : Readable source) {id text : String} {dynamic : Bool}
    (hs : dynamic = false → text = source id) :
    Blind source (Pass.template id text dynamic : Pass ω Template) := by
  intro s s' h
  obtain ⟨hload, hleft⟩ := h.faithful_left.load hr hs
  obtain ⟨hload', hright⟩ := h.faithful_right.load hr hs
  rw [run_template, run_template, hload, hload']
  exact ⟨rfl, h.scope_eq, h.steps_eq, hleft, hright⟩

theorem closed_blind {library : Library ω} (hl : library.Steady source) (hr : Readable source) :
    Closed library fun _ p => Blind source p where
  pure := fun _ _ _ h => ⟨rfl, h⟩
  throw := fun _ _ _ h => ⟨rfl, h⟩
  bind := by
    intro α β p f hp hf s s' h
    exact bind_alike (hp s s' h) fun a ha => hf s a ha
  load := fun key s s' h => by
    obtain ⟨scope, cache, steps⟩ := s
    obtain ⟨scope', cache', steps'⟩ := s'
    obtain ⟨rfl, rfl, hleft, hright⟩ := h
    exact ⟨rfl, rfl, rfl, hleft, hright⟩
  clean := fun s s' h => by
    obtain ⟨scope, cache, steps⟩ := s
    obtain ⟨scope', cache', steps'⟩ := s'
    obtain ⟨rfl, rfl, hleft, hright⟩ := h
    exact ⟨rfl, rfl, rfl, hleft, hright⟩
  describe := fun key props s s' h => by
    obtain ⟨scope, cache, steps⟩ := s
    obtain ⟨scope', cache', steps'⟩ := s'
    obtain ⟨rfl, rfl, hleft, hright⟩ := h
    exact ⟨rfl, rfl, rfl, hleft, hright⟩
  template := fun hd => blind_template hr (hl _ _ _ _ hd)

end Pass

def Application.caching (app : Application ω) (caches : Bool) : Application ω :=
  { app with options := { app.options with cacheTemplates := caches } }

namespace Session

def recached (s : Session ω) (cache : Cache) : Session ω :=
  { s with app := s.app.caching false, cache := cache }

structure Alike (source : String → String) (s s' : Session ω) : Prop where
  eq_recached : ∃ cache, s' = s.recached cache
  steady : s.app.library.Steady source
  faithful_left : s.cache.Faithful source
  faithful_right : s'.cache.Faithful source

def outcome (s : Session ω) : Except RenderError Unit × VirtualTree × Surface :=
  (s.rerender.1, s.rerender.2.tree, s.rerender.2.surface)

namespace Alike

variable {s s' : Session ω}

theorem map (h : Alike source s s') {f : Session ω → Session ω}
    (hf : ∀ s cache, f (s.recached cache) = (f s).recached cache)
    (happ : (f s).app = s.app) (hcache : (f s).cache = s.cache) : Alike source (f s) (f s') := by
  obtain ⟨⟨cache, rfl⟩, hsteady, hleft, hright⟩ := h
  refine ⟨⟨cache, hf s cache⟩, happ ▸ hsteady, hcache ▸ hleft, ?_⟩
  rw [hf]
  exact hright

theorem expand (h : Alike source s s') (hr : Readable source) :
    s.expand.1 = s'.expand.1 ∧ Alike source s.expand.2 s'.expand.2 := by
  obtain ⟨⟨cache, rfl⟩, hsteady, hleft, hright⟩ := h
  obtain ⟨hresult, hscope, -, hleft', hright'⟩ := (Pass.closed_blind hsteady hr).mount
    s.app.options.nestingLimit 0 s.app.root Dict.empty ⟨⟨s.registry.reset, s.store⟩, s.cache, []⟩
    ⟨⟨s.registry.reset, s.store⟩, cache, []⟩ ⟨rfl, rfl, hleft, hright⟩
  have hpass : (s.recached cache).pass.2.scope = s.pass.2.scope := hscope.symm
  refine ⟨congrArg (Except.map fun node => VirtualTree.ofChildren [node]) hresult,
    ⟨(s.recached cache).pass.2.cache, ?_⟩, hsteady, hleft', hright'⟩
  simp only [Session.expand, hpass]
  rfl

theorem rerender (h : Alike source s s') (hr : Readable source) :
    s.rerender.1 = s'.rerender.1 ∧ Alike source s.rerender.2 s'.rerender.2 := by
  obtain ⟨hresult, hafter⟩ := h.expand hr
  cases he : s.expand.1 with
  | error e =>
    rw [rerender_of_error he, rerender_of_error (hresult ▸ he)]
    exact ⟨rfl, hafter⟩
  | ok next =>
    rw [rerender_of_ok he, rerender_of_ok (hresult ▸ he)]
    exact ⟨rfl, hafter.map (f := fun s => s.present next) (fun _ _ => rfl) rfl rfl⟩

theorem outcome_eq (h : Alike source s s') (hr : Readable source) : s.outcome = s'.outcome := by
  obtain ⟨hresult, ⟨cache, hafter⟩, -⟩ := h.rerender hr
  rw [outcome, outcome, hresult, hafter]
  rfl

theorem taken (h : Alike source s s') : Alike source s.taken s'.taken :=
  h.map (f := Session.taken) (fun _ _ => rfl) rfl rfl

theorem renderPending_eq (h : Alike source s s') :
    s.store.scheduler.renderPending = s'.store.scheduler.renderPending := by
  obtain ⟨⟨cache, rfl⟩, -⟩ := h
  rfl

theorem renderPending (h : Alike source s s') (hr : Readable source) :
    s.renderPending.1 = s'.renderPending.1 ∧ Alike source s.renderPending.2 s'.renderPending.2 := by
  cases hp : s.store.scheduler.renderPending with
  | false =>
    rw [renderPending_of_idle hp, renderPending_of_idle (h.renderPending_eq ▸ hp)]
    exact ⟨rfl, h⟩
  | true =>
    rw [renderPending_of_pending hp, renderPending_of_pending (h.renderPending_eq ▸ hp)]
    obtain ⟨hresult, hafter⟩ := h.taken.rerender hr
    exact ⟨congrArg (Except.map fun _ => true) hresult, hafter⟩

theorem runEffects (h : Alike source s s') :
    s.runEffects.1 = s'.runEffects.1 ∧ Alike source s.runEffects.2 s'.runEffects.2 := by
  refine ⟨?_, h.map (f := fun s => s.runEffects.2) (fun _ _ => rfl) rfl rfl⟩
  obtain ⟨⟨cache, rfl⟩, -⟩ := h
  rfl

theorem tick (h : Alike source s s') (hr : Readable source) :
    s.tick.1 = s'.tick.1 ∧ Alike source s.tick.2 s'.tick.2 := by
  obtain ⟨hpending, hrendered⟩ := h.renderPending hr
  obtain ⟨hcount, hafter⟩ := hrendered.runEffects
  rw [fst_tick, fst_tick, hpending, hcount]
  exact ⟨rfl, hafter⟩

theorem passOfTick (h : Alike source s s') (hr : Readable source) :
    s.passOfTick.map outcome = s'.passOfTick.map outcome := by
  rw [Session.passOfTick, Session.passOfTick, ← h.renderPending_eq]
  split
  · rw [List.map_singleton, List.map_singleton, h.taken.outcome_eq hr]
  · rfl

theorem runTurns (turns : Nat) (h : Alike source s s') (hr : Readable source) :
    (passesOfTurns turns s).map outcome = (passesOfTurns turns s').map outcome ∧
      Alike source (Session.runTurns turns s).2 (Session.runTurns turns s').2 := by
  induction turns generalizing s s' with
  | zero => exact ⟨rfl, h⟩
  | succ turns ih =>
    obtain ⟨hresult, hafter⟩ := h.tick hr
    have hfirst := h.passOfTick hr
    simp only [passesOfTurns, Session.runTurns, List.map_append, hfirst]
    rcases ht : s.tick with ⟨e | worked, t⟩ <;> rcases ht' : s'.tick with ⟨e' | worked', t'⟩ <;>
      rw [ht, ht'] at hresult hafter <;> cases hresult
    · exact ⟨rfl, hafter⟩
    · cases worked with
      | false => exact ⟨rfl, hafter⟩
      | true =>
        obtain ⟨hpasses, hlast⟩ := ih hafter
        exact ⟨congrArg _ hpasses, hlast⟩

theorem perform (h : Alike source s s') (hr : Readable source) (a : Action ω) :
    (a.passes s).map outcome = (a.passes s').map outcome ∧
      Alike source (a.perform s) (a.perform s') := by
  cases a with
  | rerender => exact ⟨congrArg (fun o => [o]) (h.outcome_eq hr), (h.rerender hr).2⟩
  | tick => exact ⟨h.passOfTick hr, (h.tick hr).2⟩
  | runUntilIdle =>
    have hturns := h.runTurns s.app.options.maxTurns hr
    obtain ⟨⟨cache, rfl⟩, -⟩ := h
    exact hturns
  | request => exact ⟨rfl, h.map (f := fun s => s.request.2) (fun _ _ => rfl) rfl rfl⟩
  | dispatch target event =>
    exact ⟨rfl, h.map (f := fun s => (s.dispatch target event).2) (fun _ _ => rfl) rfl rfl⟩
  | act program =>
    exact ⟨rfl, h.map (f := (Action.act program).perform) (fun _ _ => rfl) rfl rfl⟩
  | openGate gate =>
    exact ⟨rfl, h.map (f := fun s => s.openGate gate) (fun _ _ => rfl) rfl rfl⟩
  | alter change =>
    exact ⟨rfl, h.map (f := fun s => s.alter change) (fun _ _ => rfl) rfl rfl⟩

theorem performAll (actions : List (Action ω)) (h : Alike source s s') (hr : Readable source) :
    (passesOf actions s).map outcome = (passesOf actions s').map outcome ∧
      Alike source (Session.performAll actions s) (Session.performAll actions s') := by
  induction actions generalizing s s' with
  | nil => exact ⟨rfl, h⟩
  | cons a actions ih =>
    obtain ⟨hpasses, hafter⟩ := h.perform hr a
    obtain ⟨hrest, hlast⟩ := ih hafter
    refine ⟨?_, hlast⟩
    rw [passesOf, passesOf, List.map_append, List.map_append, hpasses, hrest]

end Alike

theorem alike_start (app : Application ω) (host : ω) (hs : app.library.Steady source) :
    Alike source (start (app.caching true) host) (start (app.caching false) host) where
  eq_recached := ⟨Cache.disabled, rfl⟩
  steady := hs
  faithful_left := Cache.faithful_of_empty rfl
  faithful_right := Cache.faithful_of_empty rfl

/-- Whether or not a session keeps compiled templates, its passes result in the same and show the
same, if each component has one static template and the stored form of that can be read back. -/
theorem history_caching (app : Application ω) (host : ω) (actions : List (Action ω))
    (hs : app.library.Steady source) (hr : Readable source) :
    (history (app.caching true) host actions).map outcome =
        (history (app.caching false) host actions).map outcome ∧
      ∃ cache, (run (app.caching false) host actions).1 =
        (run (app.caching true) host actions).1.recached cache := by
  have hstart := alike_start app host hs
  obtain ⟨hpasses, hlast⟩ := (hstart.rerender hr).2.performAll actions hr
  constructor
  · rw [history, history, List.map_cons, List.map_cons, hstart.outcome_eq hr]
    exact congrArg _ hpasses
  · rw [run_eq, run_eq]
    exact hlast.eq_recached

def towering (levels : Nat) : Application Unit where
  library := fun _ =>
    ⟨"app", fun _ => .done (.ok ⟨[], String.ofList (towerText levels), Dict.empty, false⟩)⟩
  root := "app"
  options := .standard

theorem steady_towering (levels : Nat) :
    (towering levels).library.Steady fun _ => String.ofList (towerText levels) := by
  intro key props scope d hd hstatic
  cases hd
  rfl

theorem history_caching_towering :
    Readable (fun _ => String.ofList (towerText 62)) ∧
      (history ((towering 62).caching true) () [.rerender]).map outcome =
        (history ((towering 62).caching false) () [.rerender]).map outcome := by
  have hr : Readable fun _ => String.ofList (towerText 62) := readable_tower (by decide)
  exact ⟨hr, (history_caching (towering 62) () [.rerender] (steady_towering 62) hr).1⟩

theorem run_tower (library : Library ω) (mount : Mount ω) (f : Frame ω) (s : PassState ω)
    (levels : Nat) : ∃ node, ((tower levels).expand library mount f).run s = (.ok node, s) := by
  induction levels with
  | zero => exact ⟨_, rfl⟩
  | succ levels ih =>
    obtain ⟨node, hnode⟩ := ih
    refine ⟨.element "b" Dict.empty [] [node] none, ?_⟩
    rw [tower, Node.expand, Pass.run_bind]
    change ((Node.expandAll library mount f [tower levels] >>= _ : Pass ω _).run s) = _
    rw [Pass.run_bind, Node.expandAll, Pass.run_bind, hnode]
    rfl

section Towering

variable {s : Session Unit} {caches : Bool} {levels : Nat} {cache : Cache}

theorem pass_towering (hs : s.app = (towering levels).caching caches) :
    ∃ state f, state.cache = s.cache ∧ s.pass = (do
      let template ← Pass.template "app" (String.ofList (towerText levels)) false
      let root ← template.root.expand s.app.library (s.app.library.mount 4095 1) f
      return VirtualNode.fragment (.component "app") true [root] : Pass Unit _).run state := by
  have hpass : s.pass = ((towering levels).library.mount (4095 + 1) 0 "app" Dict.empty).run
      ⟨⟨s.registry.reset, s.store⟩, s.cache, []⟩ := by
    rw [pass, hs]
    rfl
  rw [hpass, hs]
  exact ⟨_, _, rfl, rfl⟩

theorem rerender_of_load_error {e : TemplateError} (hs : s.app = (towering levels).caching caches)
    (hload : s.cache.load "app" (String.ofList (towerText levels)) false = (.error e, cache)) :
    s.rerender.1 = .error (.template "app" e) := by
  obtain ⟨state, f, hcache, hpass⟩ := pass_towering hs
  rw [Pass.run_bind, Pass.run_template, hcache, hload] at hpass
  have hexpand : s.expand.1 = .error (.template "app" e) := by
    rw [expand, hpass]
    rfl
  rw [rerender_of_error hexpand]

theorem rerender_of_load_ok (hs : s.app = (towering levels).caching caches)
    (hload : s.cache.load "app" (String.ofList (towerText levels)) false =
      (.ok ⟨tower levels⟩, cache)) :
    s.rerender.1 = .ok () ∧ s.rerender.2.cache = cache ∧ s.rerender.2.app = s.app := by
  obtain ⟨state, f, hcache, hpass⟩ := pass_towering hs
  obtain ⟨node, hnode⟩ := run_tower s.app.library (s.app.library.mount 4095 1) f
    { state with cache } levels
  rw [Pass.run_bind, Pass.run_template, hcache, hload] at hpass
  dsimp only [Except.mapError] at hpass
  rw [Pass.run_bind, hnode] at hpass
  have hexpand : s.expand.1 = .ok (.ofChildren [.fragment (.component "app") true [node]]) := by
    rw [expand, hpass]
    rfl
  have hkept : s.expand.2.cache = cache := by
    rw [expand, hpass]
    rfl
  rw [rerender_of_ok hexpand]
  exact ⟨rfl, hkept, rfl⟩

theorem rerender_of_get_none (hs : s.app = (towering levels).caching caches)
    (hget : s.cache.get "app" = .ok none) :
    s.rerender.1 = .ok () ∧ s.rerender.2.cache = s.cache.insert "app" ⟨tower levels⟩ ∧
      s.rerender.2.app = s.app :=
  rerender_of_load_ok hs (Cache.load_of_get_none hget (compile_tower levels))

end Towering

theorem rerender_mount_caching {levels : Nat} (h : Json.nestingLimit < 2 * levels + 2) :
    (mount ((towering levels).caching true) ()).2.rerender.1 =
      .error (.template "app" (.corrupt "app")) := by
  obtain ⟨-, hkept, happ⟩ :=
    rerender_of_get_none (s := start ((towering levels).caching true) ()) rfl rfl
  rw [mount]
  apply rerender_of_load_error happ
  rw [hkept]
  exact Cache.load_of_get_error rfl (Cache.get_insert_tower rfl "app" h) _

theorem rerender_mount_compiling (levels : Nat) :
    (mount ((towering levels).caching false) ()).2.rerender.1 = .ok () := by
  obtain ⟨-, hkept, happ⟩ :=
    rerender_of_get_none (s := start ((towering levels).caching false) ()) rfl rfl
  rw [mount]
  apply (rerender_of_get_none happ _).1
  rw [hkept]
  rfl

/-- A template that nests too deeply is kept by the first pass, and the second one cannot read
it. -/
theorem not_history_caching : ¬ ∀ (app : Application Unit) (host : Unit)
    (actions : List (Action Unit)) (source : String → String), app.library.Steady source →
    (history (app.caching true) host actions).map outcome =
      (history (app.caching false) host actions).map outcome := by
  intro h
  have heq := h (towering 63) () [.rerender] _ (steady_towering 63)
  have hhistory : ∀ app : Application Unit, (history app () [.rerender]).map outcome =
      [(start app ()).outcome, (mount app ()).2.outcome] := fun _ => rfl
  rw [hhistory, hhistory, List.cons.injEq, List.cons.injEq] at heq
  have hresult := congrArg Prod.fst heq.2.1
  have houtcome : ∀ s : Session Unit, s.outcome.1 = s.rerender.1 := fun _ => rfl
  rw [houtcome, houtcome, rerender_mount_caching (by decide), rerender_mount_compiling] at hresult
  cases hresult

end Session

end ReactiveView
