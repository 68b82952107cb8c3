import ReactiveView.Proofs.Render.Standing

namespace ReactiveView

variable {ω : Type}

namespace Session

def passOfTick (s : Session ω) : List (Session ω) :=
  if s.store.scheduler.renderPending then [s.taken] else []

def passesOfTurns : Nat → Session ω → List (Session ω)
  | 0, _ => []
  | turns + 1, s => s.passOfTick ++
    match s.tick with
    | (.ok true, s) => passesOfTurns turns s
    | _ => []

def Action.passes : Action ω → Session ω → List (Session ω)
  | rerender, s => [s]
  | tick, s => s.passOfTick
  | runUntilIdle, s => passesOfTurns s.app.options.maxTurns s
  | _, _ => []

def passesOf : List (Action ω) → Session ω → List (Session ω)
  | [], _ => []
  | a :: actions, s => a.passes s ++ passesOf actions (a.perform s)

/-- The passes of a session that is mounted and then taken through steps. -/
def history (app : Application ω) (host : ω) (actions : List (Action ω)) : List (Session ω) :=
  start app host :: passesOf actions (mount app host).2

theorem unwrapped_passOfTick (s : Session ω) : s.passOfTick.flatMap unwrapped = s.unwrappedByTick := by
  rw [passOfTick, unwrappedByTick]
  split
  · rw [List.flatMap_singleton]
  · rfl

theorem unwrapped_passesOfTurns (turns : Nat) (s : Session ω) :
    (passesOfTurns turns s).flatMap unwrapped = unwrappedByTurns turns s := by
  induction turns generalizing s with
  | zero => rfl
  | succ turns ih =>
    rw [passesOfTurns, unwrappedByTurns, List.flatMap_append, unwrapped_passOfTick]
    rcases s.tick with ⟨_ | _ | _, s'⟩
    · rfl
    · rfl
    · exact congrArg _ (ih s')

theorem Action.unwrapped_passes (a : Action ω) (s : Session ω) :
    (a.passes s).flatMap Session.unwrapped = a.unwrapped s := by
  cases a with
  | rerender => exact List.flatMap_singleton _ _
  | tick => exact unwrapped_passOfTick s
  | runUntilIdle => exact unwrapped_passesOfTurns _ s
  | request | dispatch | act | openGate | alter => rfl

def performAll (actions : List (Action ω)) (s : Session ω) : Session ω :=
  actions.foldl (fun s a => a.perform s) s

theorem foldl_perform (actions : List (Action ω)) (s : Session ω) (trees : List VirtualTree) :
    actions.foldl (fun r a => (a.perform r.1, r.2 ++ a.unwrapped r.1)) (s, trees) =
      (performAll actions s, trees ++ (passesOf actions s).flatMap unwrapped) := by
  induction actions generalizing s trees with
  | nil => simp [performAll, passesOf]
  | cons a actions ih =>
    rw [List.foldl_cons, ih, passesOf, List.flatMap_append, a.unwrapped_passes, List.append_assoc]
    rfl

theorem run_eq (app : Application ω) (host : ω) (actions : List (Action ω)) :
    run app host actions = (performAll actions (mount app host).2,
      (history app host actions).flatMap unwrapped) := by
  rw [run, foldl_perform, history, List.flatMap_cons]

end Session

end ReactiveView
