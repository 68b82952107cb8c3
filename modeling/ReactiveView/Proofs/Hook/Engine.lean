import ReactiveView.Proofs.Hook.Deeds

namespace ReactiveView

variable {ω α : Type}

/-- The hooks of a root and the asynchronous effects that have been started. -/
structure Engine (ω : Type) where
  scope : Scope ω
  executor : Executor ω

/-- What can be done with hooks and effects from outside. -/
inductive Move (ω α : Type) where
  | load (key : Coordinate)
  | reset
  | clean
  | describe (d : Describe ω α)
  | act (program : Program ω .sync)
  | deliver (event : Event) (ids : List HandlerId)
  | takeRender
  | runEffects
  /-- Take the asynchronous effects that were left and start them. -/
  | spawn
  /-- Let every asynchronous effect that is ready go on. -/
  | resume
  | openGate (gate : String)

namespace Engine

def start (host : ω) : Engine ω := ⟨.start host, .empty⟩

def withStore (e : Engine ω) (store : Store ω) : Engine ω := { e with scope.store := store }

end Engine

def Store.reaction (event : Event) (id : HandlerId) (s : Store ω) : Program ω .sync :=
  match s.handlers[id]? with
  | some react => react event
  | none => .done

theorem Store.deliver_singleton (s : Store ω) (event : Event) (id : HandlerId) :
    s.deliver event [id] = (s.reaction event id).run s := by
  rw [reaction]
  unfold deliver
  dsimp only [List.foldl_cons, List.foldl_nil]
  cases s.handlers[id]? <;> rfl

theorem Store.deliver_eq (event : Event) (ids : List HandlerId) (s : Store ω) :
    s.deliver event ids = ids.foldl (fun s id => (s.reaction event id).run s) s := by
  induction ids generalizing s with
  | nil => rfl
  | cons id rest ih =>
    rw [List.foldl_cons, ← ih, ← deliver_singleton]
    rfl

namespace Executor

theorem ready_turn (e : Executor ω) (s : Store ω) (effect : Program ω .async) :
    (e.turn s effect).1.ready = e.ready := by
  simp only [turn]
  split <;> rfl

/-- Whatever the effects do, in the end none of them is ready: each has come to its end or
waits. -/
theorem ready_run (e : Executor ω) (s : Store ω) : (e.run s).1.ready = [] := by
  have hfold : ∀ (effects : List (Program ω .async)) (r : Executor ω × Store ω),
      (effects.foldl (fun r effect => r.1.turn r.2 effect) r).1.ready = r.1.ready := by
    intro effects
    induction effects with
    | nil => exact fun r => rfl
    | cons effect rest ih =>
      intro r
      rw [List.foldl_cons, ih]
      exact ready_turn r.1 r.2 effect
  exact hfold e.ready ({ e with ready := [] }, s)

def ending (wait : Option (String × Program ω .async)) : List (Deed ω) :=
  if wait.isNone then [.finish] else []

def deeds : List (Program ω .async) → Executor ω → Store ω → List (Deed ω)
  | [], _, _ => []
  | effect :: rest, e, s =>
    effect.deeds e.opened s ++ ending (effect.advance e.opened s).1 ++
      deeds rest (e.turn s effect).1 (e.turn s effect).2

theorem performAll_turn (e : Executor ω) (effect : Program ω .async) (s : Scope ω) :
    Deed.performAll (effect.deeds e.opened s.store ++ ending (effect.advance e.opened s.store).1) s =
      { s with store := (e.turn s.store effect).2 } := by
  rw [Deed.performAll_append, effect.performAll_deeds, turn]
  rcases effect.advance e.opened s.store with ⟨_ | wait, store⟩ <;> rfl

theorem performAll_deeds (effects : List (Program ω .async)) (e : Executor ω) (s : Scope ω) :
    Deed.performAll (deeds effects e s.store) s =
      { s with store := (effects.foldl (fun r effect => r.1.turn r.2 effect) (e, s.store)).2 } := by
  induction effects generalizing e s with
  | nil => rfl
  | cons effect rest ih =>
    rw [deeds, Deed.performAll_append, performAll_turn]
    exact ih (e.turn s.store effect).1 { s with store := (e.turn s.store effect).2 }

end Executor

namespace Move

def perform : Move ω α → Engine ω → Engine ω
  | load key, e => { e with scope.registry := e.scope.registry.load key }
  | reset, e => { e with scope.registry := e.scope.registry.reset }
  | clean, e => { e with scope.registry := e.scope.registry.clean }
  | describe d, e => { e with scope := (d.run e.scope).2 }
  | act program, e => e.withStore (program.run e.scope.store)
  | deliver event ids, e => e.withStore (e.scope.store.deliver event ids)
  | takeRender, e => e.withStore
    { e.scope.store with scheduler := e.scope.store.scheduler.takeRender.2 }
  | runEffects, e => e.withStore e.scope.store.runEffects.2
  | spawn, e =>
    ⟨{ e.scope with store.scheduler := e.scope.store.scheduler.takeAsync.2 },
      e.executor.spawn e.scope.store.scheduler.takeAsync.1⟩
  | resume, e =>
    let (executor, store) := e.executor.run e.scope.store
    ⟨{ e.scope with store }, executor⟩
  | openGate gate, e => { e with executor := e.executor.openGate gate }

def deeds : Move ω α → Engine ω → List (Deed ω)
  | load key, _ => [.load key]
  | reset, _ => [.reset]
  | clean, _ => [.clean]
  | describe d, e => d.deeds e.scope
  | act program, e => program.deeds [] e.scope.store
  | deliver event ids, e => Program.deedsAll (fun id s => s.reaction event id) ids e.scope.store
  | takeRender, _ => [.takeRender]
  | runEffects, e => .takeEffects :: Program.deedsAll (fun p _ => p)
      e.scope.store.scheduler.takeEffects.1 (Deed.takeEffects.perform e.scope).store
  | spawn, _ => [.takeAsync]
  | resume, e => Executor.deeds e.executor.ready { e.executor with ready := [] } e.scope.store
  | openGate _, _ => []

theorem scope_perform (m : Move ω α) (e : Engine ω) :
    (m.perform e).scope = Deed.performAll (m.deeds e) e.scope := by
  cases m with
  | load | reset | clean | takeRender | spawn | openGate => rfl
  | describe d => exact (d.performAll_deeds e.scope).symm
  | act program => exact (program.performAll_deeds [] e.scope).symm
  | deliver event ids =>
    rw [perform, Store.deliver_eq]
    exact (Program.performAll_deedsAll _ ids e.scope).symm
  | runEffects =>
    exact (Program.performAll_deedsAll (fun p _ => p) e.scope.store.scheduler.takeEffects.1
      (Deed.takeEffects.perform e.scope)).symm
  | resume => exact (Executor.performAll_deeds e.executor.ready _ e.scope).symm

end Move

namespace Engine

def performAll (moves : List (Move ω α)) (e : Engine ω) : Engine ω :=
  moves.foldl (fun e m => m.perform e) e

def deeds : List (Move ω α) → Engine ω → List (Deed ω)
  | [], _ => []
  | m :: rest, e => m.deeds e ++ deeds rest (m.perform e)

def log (moves : List (Move ω α)) (e : Engine ω) : List (Moment ω) := Deed.log (deeds moves e) e.scope

theorem performAll_append (moves moves' : List (Move ω α)) (e : Engine ω) :
    performAll (moves ++ moves') e = performAll moves' (performAll moves e) := List.foldl_append

theorem deeds_append (moves moves' : List (Move ω α)) (e : Engine ω) :
    deeds (moves ++ moves') e = deeds moves e ++ deeds moves' (performAll moves e) := by
  induction moves generalizing e with
  | nil => rfl
  | cons m rest ih =>
    rw [List.cons_append, deeds, ih, deeds, List.append_assoc]
    rfl

theorem scope_performAll (moves : List (Move ω α)) (e : Engine ω) :
    (performAll moves e).scope = Deed.performAll (deeds moves e) e.scope := by
  induction moves generalizing e with
  | nil => rfl
  | cons m rest ih =>
    rw [deeds, Deed.performAll_append, ← m.scope_perform]
    exact ih (m.perform e)

theorem log_append (moves moves' : List (Move ω α)) (e : Engine ω) :
    log (moves ++ moves') e = log moves e ++ log moves' (performAll moves e) := by
  rw [log, deeds_append, Deed.log_append, ← scope_performAll]
  rfl

end Engine

end ReactiveView
