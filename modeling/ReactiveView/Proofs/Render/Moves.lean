import ReactiveView.Proofs.Hook.Engine
import ReactiveView.Proofs.Render.Trace

namespace ReactiveView

variable {ω : Type}

namespace PassStep

def move : PassStep ω → Move ω (Except RenderError (Descriptor ω))
  | load key => .load key
  | clean => .clean
  | describe d => .describe d

theorem performAll_moves (steps : List (PassStep ω)) (e : Engine ω) :
    Engine.performAll (steps.map move) e = { e with scope := replayAll steps e.scope } := by
  induction steps generalizing e with
  | nil => rfl
  | cons step rest ih =>
    rw [List.map_cons]
    cases step <;> exact ih _

end PassStep

namespace Session

def engine (s : Session ω) : Engine ω := ⟨⟨s.registry, s.store⟩, s.executor⟩

def passMoves (s : Session ω) : List (Move ω (Except RenderError (Descriptor ω))) :=
  .reset :: s.pass.2.steps.map PassStep.move

def effectMoves : List (Move ω (Except RenderError (Descriptor ω))) := [.runEffects, .spawn, .resume]

def tickMoves (s : Session ω) : List (Move ω (Except RenderError (Descriptor ω))) :=
  (if s.store.scheduler.renderPending then .takeRender :: s.taken.passMoves else []) ++ effectMoves

def movesOfTurns : Nat → Session ω → List (Move ω (Except RenderError (Descriptor ω)))
  | 0, _ => []
  | turns + 1, s => s.tickMoves ++
    match s.tick with
    | (.ok true, s) => movesOfTurns turns s
    | _ => []

def Action.moves : Action ω → Session ω → List (Move ω (Except RenderError (Descriptor ω)))
  | rerender, s => s.passMoves
  | tick, s => s.tickMoves
  | runUntilIdle, s => movesOfTurns s.app.options.maxTurns s
  | request, _ => [.act (.request .done)]
  | dispatch target event, s => [.deliver event (s.surface.hearing target event.name)]
  | act program, _ => [.act program]
  | openGate gate, _ => [.openGate gate]
  | alter change, _ => [.act (.alter change .done)]

def movesOf : List (Action ω) → Session ω → List (Move ω (Except RenderError (Descriptor ω)))
  | [], _ => []
  | a :: actions, s => a.moves s ++ movesOf actions (a.perform s)

/-- The moves of a session that is mounted and then taken through steps. -/
def moves (app : Application ω) (host : ω) (actions : List (Action ω)) :
    List (Move ω (Except RenderError (Descriptor ω))) :=
  (start app host).passMoves ++ movesOf actions (mount app host).2

def log (app : Application ω) (host : ω) (actions : List (Action ω)) : List (Moment ω) :=
  Engine.log (moves app host actions) (.start host)

theorem engine_rerender (s : Session ω) :
    s.rerender.2.engine = Engine.performAll s.passMoves s.engine := by
  have hexpand : s.expand.2.engine = Engine.performAll s.passMoves s.engine := by
    refine Eq.trans ?_ (PassStep.performAll_moves s.pass.2.steps _).symm
    exact congrArg (fun scope => (⟨scope, s.executor⟩ : Engine ω)) s.scope_pass
  cases he : s.expand.1 with
  | error e =>
    rw [rerender_of_error he]
    exact hexpand
  | ok next =>
    rw [rerender_of_ok he]
    exact hexpand

theorem engine_runEffects (s : Session ω) :
    s.runEffects.2.engine = Engine.performAll effectMoves s.engine := rfl

theorem engine_tick (s : Session ω) : s.tick.2.engine = Engine.performAll s.tickMoves s.engine := by
  rw [snd_tick, tickMoves, engine_runEffects, Engine.performAll_append]
  cases hp : s.store.scheduler.renderPending with
  | false =>
    rw [renderPending_of_idle hp]
    rfl
  | true =>
    rw [renderPending_of_pending hp, engine_rerender]
    rfl

theorem engine_runTurns (turns : Nat) (s : Session ω) :
    (runTurns turns s).2.engine = Engine.performAll (movesOfTurns turns s) s.engine := by
  induction turns generalizing s with
  | zero => rfl
  | succ turns ih =>
    have htick := engine_tick s
    rw [movesOfTurns, Engine.performAll_append, ← htick]
    simp only [runTurns]
    rcases s.tick with ⟨e | _ | _, s'⟩
    · rfl
    · rfl
    · exact ih s'

theorem Action.engine_perform (a : Action ω) (s : Session ω) :
    (a.perform s).engine = Engine.performAll (a.moves s) s.engine := by
  cases a with
  | rerender => exact engine_rerender s
  | tick => exact engine_tick s
  | runUntilIdle => exact engine_runTurns _ s
  | request | dispatch | act | openGate | alter => rfl

theorem engine_performAll (actions : List (Action ω)) (s : Session ω) :
    (performAll actions s).engine = Engine.performAll (movesOf actions s) s.engine := by
  induction actions generalizing s with
  | nil => rfl
  | cons a actions ih =>
    rw [movesOf, Engine.performAll_append, ← a.engine_perform]
    exact ih (a.perform s)

theorem engine_run (app : Application ω) (host : ω) (actions : List (Action ω)) :
    (run app host actions).1.engine = Engine.performAll (moves app host actions) (.start host) := by
  rw [run_eq, engine_performAll, moves, Engine.performAll_append, mount, engine_rerender]
  rfl

end Session

end ReactiveView
