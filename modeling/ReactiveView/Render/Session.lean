import ReactiveView.Hook.Executor
import ReactiveView.Render.Expand
import ReactiveView.Tree.Binding
import ReactiveView.Tree.Reconcile

namespace ReactiveView

variable {ω : Type}

structure SessionOptions where
  /-- Keep compiled templates from one pass to the next. -/
  cacheTemplates : Bool
  /-- The number of turns after which a session is left to itself, whether or not it is idle. -/
  maxTurns : Nat
  /-- The number of components that can stand inside one another. -/
  nestingLimit : Nat
  /-- The order in which a pass goes over the sets that it makes, by the number of the pass. -/
  enumeration : Nat → Enumeration

def SessionOptions.standard : SessionOptions := ⟨true, 64, 4096, fun _ => .document⟩

structure Application (ω : Type) where
  library : Library ω
  root : String
  options : SessionOptions

def Application.rootId (a : Application ω) : String := (a.library a.root).id

/-- A tree of components that is kept on a surface. Nothing runs on its own: setting a state only
requests a pass, and a turn carries it out, then runs the effects that were left, then the
asynchronous ones as far as they go. -/
structure Session (ω : Type) where
  app : Application ω
  surface : Surface
  tree : VirtualTree
  events : EventSet
  registry : Registry
  cache : Cache
  store : Store ω
  executor : Executor ω
  passes : Nat

namespace Session

def start (app : Application ω) (host : ω) : Session ω where
  app := app
  surface := Surface.empty
  tree := VirtualTree.empty
  events := []
  registry := Registry.empty
  cache := if app.options.cacheTemplates then Cache.empty else Cache.disabled
  store := Store.start host
  executor := Executor.empty
  passes := 0

def pass (s : Session ω) : Except RenderError VirtualNode × PassState ω :=
  let whole := Library.mount s.app.library s.app.options.nestingLimit 0 s.app.root Dict.empty
  whole.run ⟨⟨s.registry.reset, s.store⟩, s.cache, []⟩

def expand (s : Session ω) : Except RenderError VirtualTree × Session ω :=
  let (result, state) := s.pass
  (result.map fun node => .ofChildren [node],
    { s with registry := state.scope.registry, store := state.scope.store, cache := state.cache })

def present (s : Session ω) (next : VirtualTree) : Session ω :=
  let e := s.app.options.enumeration s.passes
  let (tree, surface) := VirtualTree.diff e s.tree next s.surface
  let events := tree.events
  let (_, surface) := EventSet.refresh e s.events events surface
  { s with surface, tree, events, passes := s.passes + 1 }

/-- Carry out a pass, whether or not one was requested. A pass that fails leaves what is shown as it
was. -/
def rerender (s : Session ω) : Except RenderError Unit × Session ω :=
  match s.expand with
  | (.ok next, s) => (.ok (), s.present next)
  | (.error e, s) => (.error e, s)

def mount (app : Application ω) (host : ω) : Except RenderError Unit × Session ω :=
  (start app host).rerender

def renderPending (s : Session ω) : Except RenderError Bool × Session ω :=
  match s.store.scheduler.takeRender with
  | (false, _) => (.ok false, s)
  | (true, scheduler) =>
    let (result, s) := ({ s with store := { s.store with scheduler } } : Session ω).rerender
    (result.map fun _ => true, s)

def runEffects (s : Session ω) : Nat × Session ω :=
  let (n, store) := s.store.runEffects
  let (m, executor, store) := s.executor.drain store
  (n + m, { s with store, executor })

/-- A turn; the answer tells whether there was anything to do. After a pass that failed the effects
run all the same. -/
def tick (s : Session ω) : Except RenderError Bool × Session ω :=
  let (rendered, s) := s.renderPending
  let (n, s) := s.runEffects
  (rendered.map fun pending => pending || n != 0, s)

/-- Take turns until one has nothing to do, at most `turns` of them; the answer is how many had
something to do. -/
def runTurns : Nat → Session ω → Except RenderError Nat × Session ω
  | 0, s => (.ok 0, s)
  | turns + 1, s =>
    match s.tick with
    | (.error e, s) => (.error e, s)
    | (.ok false, s) => (.ok 0, s)
    | (.ok true, s) =>
      let (rest, s) := runTurns turns s
      (rest.map (· + 1), s)

def runUntilIdle (s : Session ω) : Except RenderError Nat × Session ω :=
  runTurns s.app.options.maxTurns s

def request (s : Session ω) : Bool × Session ω :=
  let (fresh, scheduler) := s.store.scheduler.request
  (fresh, { s with store := { s.store with scheduler } })

/-- Deliver an event to the listeners at a node and around it; the answer is how many heard it. -/
def dispatch (s : Session ω) (target : NodeId) (event : Event) : Nat × Session ω :=
  let heard := s.surface.hearing target event.name
  (heard.length, { s with store := s.store.deliver event heard })

def openGate (s : Session ω) (gate : String) : Session ω :=
  { s with executor := s.executor.openGate gate }

def alter (s : Session ω) (change : ω → ω) : Session ω :=
  { s with store := { s.store with host := change s.store.host } }

end Session

end ReactiveView
