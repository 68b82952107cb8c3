import ReactiveView.Proofs.Hook.Draining
import ReactiveView.Proofs.Render.Moves

namespace ReactiveView

open Happening (executed deferred)

variable {ω : Type}

namespace Session

theorem drains_passMoves (s : Session ω) : ∀ m ∈ s.passMoves, m.drains = false := by
  intro m hm
  obtain rfl | hm := List.mem_cons.mp hm
  · rfl
  · obtain ⟨step, -, rfl⟩ := List.mem_map.mp hm
    cases step <;> rfl

theorem executed_effectMoves (e : Engine ω) :
    executed (Engine.happenings effectMoves e) = e.scope.store.scheduler.effects := by
  rw [effectMoves, Engine.happenings, Happening.executed_append, Move.executed_happenings,
    Engine.executed_of_quiet (List.forall_mem_cons.mpr ⟨rfl, List.forall_mem_singleton.mpr rfl⟩)]
  exact List.append_nil _

/-- A turn first carries out the pass that is pending, if one is, in which no effects run. Then it
runs those that were left before the turn and those that the pass has left, and no others: what they
defer themselves waits for the next turn. -/
theorem executed_tickMoves (s : Session ω) (e : Engine ω) :
    ∃ pending, s.tickMoves = pending ++ effectMoves ∧
      executed (Engine.happenings pending e) = [] ∧
      executed (Engine.happenings s.tickMoves e) =
        e.scope.store.scheduler.effects ++ deferred (Engine.happenings pending e) := by
  have hquiet : ∀ m ∈ (if s.store.scheduler.renderPending then .takeRender :: s.taken.passMoves
      else []), m.drains = false := by
    split
    · exact List.forall_mem_cons.mpr ⟨rfl, s.taken.drains_passMoves⟩
    · exact fun m hm => absurd hm List.not_mem_nil
  have hnone := Engine.executed_of_quiet hquiet e
  have hqueue := Engine.executed_append_effects (if s.store.scheduler.renderPending then
    .takeRender :: s.taken.passMoves else []) e
  refine ⟨_, rfl, hnone, ?_⟩
  rw [tickMoves, Engine.happenings_append, Happening.executed_append, executed_effectMoves]
  exact hqueue

/-- Effects are deferred exactly on change, and run once and in order, whatever is done with hooks
and effects. A session does no more than that: it is where its moves lead, and it runs no effects in
a pass. -/
theorem effects_run_in_order :
    (∀ (ω α : Type) (host : ω) (moves : List (Move ω α)), Engine.Orderly host moves) ∧
    ∀ (ω : Type) (app : Application ω) (host : ω) (actions : List (Action ω)),
      (run app host actions).1.engine = Engine.performAll (moves app host actions) (.start host) ∧
      ∀ (s : Session ω) (e : Engine ω), executed (Engine.happenings s.passMoves e) = [] ∧
        ∃ pending, s.tickMoves = pending ++ effectMoves ∧
          executed (Engine.happenings pending e) = [] ∧
          executed (Engine.happenings s.tickMoves e) =
            e.scope.store.scheduler.effects ++ deferred (Engine.happenings pending e) :=
  ⟨fun _ _ host moves => Engine.orderly_of_moves host moves, fun _ app host actions =>
    ⟨engine_run app host actions, fun s e =>
      ⟨Engine.executed_of_quiet s.drains_passMoves e, s.executed_tickMoves e⟩⟩⟩

def clock (deps : Int64) (program : Program Unit .sync) : List (Move Unit Unit) :=
  [.load ⟨"Clock", 0⟩, .describe (.effect (.int deps) program (.done ()))]

def ticking : List (Move Unit Unit) :=
  clock 1 (.defer .done .done) ++ clock 1 .done ++ [.runEffects] ++ clock 2 .done

theorem effects_run_in_order_ticking :
    (deferred (Engine.happenings ticking (.start ()))).length = 3 ∧
      (executed (Engine.happenings ticking (.start ()))).length = 1 ∧
      Engine.Orderly () ticking ∧
      (⟨.effect (.int 2) .done, (Engine.performAll (ticking.take 6) (.start ())).scope⟩ :
        SlotCall Unit).leaves = true := by
  have horderly := effects_run_in_order.1 Unit Unit () ticking
  refine ⟨by decide +kernel, by decide +kernel, horderly, ?_⟩
  let c : SlotCall Unit := ⟨.effect (.int 2) .done, (Engine.performAll (ticking.take 6) (.start ())).scope⟩
  let before := Engine.log (ticking.take 6) (.start ())
  have hlog : Engine.log ticking (.start ()) = before ++ [c.moment] :=
    Engine.log_append (ticking.take 6) (ticking.drop 6) (.start ())
  have htouches : before.any (Moment.touches c.cell) = false := by decide +kernel
  have hprevious : (c.previous? before).map SlotCall.use = some (.effect (.int 1) .done) := rfl
  refine (horderly.leaves_iff before [] c (.int 2) .done hlog rfl ⟨?_, ?_⟩).mpr ?_
  · intro m hm
    simpa using List.any_eq_false.mp htouches m hm
  · intro d hd deps program huse
    rw [hd, Option.map_some, huse] at hprevious
    cases hprevious
  · intro d old hd hold
    rw [hd, Option.map_some, Option.some_inj] at hprevious
    rw [hprevious] at hold
    obtain rfl := Option.some.inj hold
    rfl

end Session

end ReactiveView
