import ReactiveView.Proofs.Hook.Coalescing
import ReactiveView.Proofs.Hook.Writes
import ReactiveView.Proofs.Render.Idle
import ReactiveView.Proofs.Render.Moves

namespace ReactiveView

variable {ω : Type}

namespace Moment

def stateCell? (m : Moment ω) : Option CellId :=
  match m.deed with
  | .call (.state initial) => some (⟨.state initial, m.scope⟩ : SlotCall ω).cell
  | _ => none

/-- Whether a cell that a state gets somewhere in a log is written at a moment, and not through the
handle of the state. -/
def bypasses (log : List (Moment ω)) (m : Moment ω) : Bool :=
  match m.deed with
  | .set _ _ => false
  | _ => m.written?.any fun cell => log.any fun m' => m'.stateCell? == some cell

theorem asks_of_written {log : List (Moment ω)} {m : Moment ω} {c : SlotCall ω} {initial : Datum}
    (hset : m.bypasses log = false) (huse : c.use = .state initial) (hc : c.moment ∈ log)
    (hwritten : m.written? = some c.cell) : m.asks = true := by
  obtain ⟨d, s⟩ := m
  have hstate : c.moment.stateCell? = some c.cell := by
    obtain ⟨use, t⟩ := c
    cases huse
    rfl
  have hbypass : ((⟨d, s⟩ : Moment ω).written?.any fun cell =>
      log.any fun m' => m'.stateCell? == some cell) = true := by
    rw [hwritten, Option.any_some, List.any_eq_true]
    exact ⟨c.moment, hc, beq_iff_eq.mpr hstate⟩
  cases d with
  | set state f =>
    rw [written?] at hwritten
    rw [asks]
    dsimp only at hwritten ⊢
    split at hwritten
    · cases hwritten
    · rename_i hne
      rw [Bool.eq_false_iff.mpr hne]
      rfl
  | load | reset | clean | call | handler | alter | put | request | defer | deferAsync | takeRender
  | takeEffects | takeAsync | finish => exact absurd hbypass (Bool.eq_false_iff.mp hset)

def Untaken (log : List (Moment ω)) : Prop := ∀ m ∈ log, m.deed ≠ .takeRender

theorem untaken_nil : Untaken ([] : List (Moment ω)) := fun _ hm => absurd hm List.not_mem_nil

end Moment

theorem Deed.Inner.ne_takeRender {d : Deed ω} (h : d.Inner) : d ≠ .takeRender := by
  rintro rfl
  exact h

theorem Executor.untaken_deeds (effects : List (Program ω .async)) (e : Executor ω) (s : Store ω) :
    ∀ d ∈ Executor.deeds effects e s, d ≠ .takeRender := by
  induction effects generalizing e s with
  | nil => exact fun d hd => absurd hd List.not_mem_nil
  | cons effect rest ih =>
    intro d hd
    rw [deeds, List.mem_append, List.mem_append] at hd
    rcases hd with (hd | hd) | hd
    · exact (effect.inner_deeds e.opened s d hd).ne_takeRender
    · rw [ending] at hd
      split at hd
      · rw [List.mem_singleton.mp hd]
        exact fun h => by cases h
      · cases hd
    · exact ih _ _ d hd

theorem Move.untaken_deeds {α : Type} {m : Move ω α} (h : m ≠ .takeRender) (e : Engine ω) :
    ∀ d ∈ m.deeds e, d ≠ .takeRender := by
  cases m with
  | load | reset | clean | spawn =>
    intro d hd
    rw [List.mem_singleton.mp hd]
    exact fun h => by cases h
  | describe d => exact fun x hx => (d.inner_deeds e.scope x hx).ne_takeRender
  | act program => exact fun x hx => (program.inner_deeds [] e.scope.store x hx).ne_takeRender
  | deliver event ids =>
    exact fun x hx => (Program.inner_deedsAll _ ids e.scope.store x hx).ne_takeRender
  | takeRender => exact absurd rfl h
  | runEffects =>
    refine List.forall_mem_cons.mpr ⟨fun h => (by cases h), fun x hx => ?_⟩
    exact (Program.inner_deedsAll _ _ _ x hx).ne_takeRender
  | resume => exact Executor.untaken_deeds _ _ _
  | openGate => exact fun d hd => absurd hd List.not_mem_nil

theorem Engine.untaken_log {α : Type} {moves : List (Move ω α)} (h : ∀ m ∈ moves, m ≠ .takeRender)
    (e : Engine ω) : Moment.Untaken (log moves e) := by
  have hdeeds : ∀ d ∈ deeds moves e, d ≠ .takeRender := by
    induction moves generalizing e with
    | nil => exact fun d hd => absurd hd List.not_mem_nil
    | cons m rest ih =>
      obtain ⟨hm, hrest⟩ := List.forall_mem_cons.mp h
      exact List.forall_mem_append.mpr ⟨m.untaken_deeds hm e, ih hrest (m.perform e)⟩
  intro m hm
  exact hdeeds _ (Deed.mem_of_mem_log hm)

namespace Session

def passLog (s : Session ω) : List (Moment ω) := Engine.log s.passMoves s.engine

/-- A log in which no request is taken after the last of some passes. -/
def Settles (log : List (Moment ω)) (passes : List (Session ω)) : Prop :=
  (passes = [] ∧ Moment.Untaken log) ∨
    ∃ before p later, passes.getLast? = some p ∧ log = before ++ (p.passLog ++ later) ∧
      Moment.Untaken later

namespace Settles

variable {log log' : List (Moment ω)} {passes passes' : List (Session ω)}

theorem append (h : Settles log passes) (h' : Settles log' passes') :
    Settles (log ++ log') (passes ++ passes') := by
  rcases h' with ⟨rfl, hlog'⟩ | ⟨before, p, later, hp, rfl, hlater⟩
  · rw [List.append_nil]
    rcases h with ⟨rfl, hlog⟩ | ⟨before, p, later, hp, rfl, hlater⟩
    · exact .inl ⟨rfl, List.forall_mem_append.mpr ⟨hlog, hlog'⟩⟩
    · refine .inr ⟨before, p, later ++ log', hp, ?_, List.forall_mem_append.mpr ⟨hlater, hlog'⟩⟩
      rw [List.append_assoc, List.append_assoc]
  · refine .inr ⟨log ++ before, p, later, ?_, (List.append_assoc ..).symm, hlater⟩
    rw [List.getLast?_append, hp, Option.some_or]

theorem pass (s : Session ω) : Settles s.passLog [s] :=
  .inr ⟨[], s, [], rfl, (List.append_nil _).symm, Moment.untaken_nil⟩

theorem tick (s : Session ω) : Settles (Engine.log s.tickMoves s.engine) s.passOfTick := by
  have heffects : ∀ e : Engine ω, Moment.Untaken (Engine.log effectMoves e) := by
    intro e
    apply Engine.untaken_log
    intro m hm h
    rw [effectMoves, h] at hm
    simp at hm
  rw [tickMoves, passOfTick, Engine.log_append]
  cases s.store.scheduler.renderPending with
  | false => exact .inl ⟨rfl, heffects s.engine⟩
  | true =>
    -- The request is taken, and the pass follows at once.
    exact .inr ⟨[⟨.takeRender, ⟨s.registry, s.store⟩⟩], s.taken, _, rfl, rfl, heffects _⟩

theorem runTurns (turns : Nat) (s : Session ω) :
    Settles (Engine.log (movesOfTurns turns s) s.engine) (passesOfTurns turns s) := by
  induction turns generalizing s with
  | zero => exact .inl ⟨rfl, Moment.untaken_nil⟩
  | succ turns ih =>
    rw [movesOfTurns, passesOfTurns, Engine.log_append, ← engine_tick]
    refine (tick s).append ?_
    rcases s.tick with ⟨e | _ | _, s'⟩
    · exact .inl ⟨rfl, Moment.untaken_nil⟩
    · exact .inl ⟨rfl, Moment.untaken_nil⟩
    · exact ih s'

theorem perform (a : Action ω) (s : Session ω) :
    Settles (Engine.log (a.moves s) s.engine) (a.passes s) := by
  have hquiet : ∀ m : Move ω (Except RenderError (Descriptor ω)), m ≠ .takeRender →
      Settles (Engine.log [m] s.engine) [] := fun _ hm =>
    .inl ⟨rfl, Engine.untaken_log (List.forall_mem_singleton.mpr hm) s.engine⟩
  cases a with
  | rerender => exact pass s
  | tick => exact tick s
  | runUntilIdle => exact runTurns _ s
  | request | dispatch | act | openGate | alter => exact hquiet _ fun h => by cases h

theorem performAll (actions : List (Action ω)) (s : Session ω) :
    Settles (Engine.log (movesOf actions s) s.engine) (passesOf actions s) := by
  induction actions generalizing s with
  | nil => exact .inl ⟨rfl, Moment.untaken_nil⟩
  | cons a actions ih =>
    rw [movesOf, passesOf, Engine.log_append, ← a.engine_perform]
    exact (perform a s).append (ih (a.perform s))

end Settles

theorem settles_log (app : Application ω) (host : ω) (actions : List (Action ω)) :
    Settles (log app host actions) (history app host actions) := by
  have hmount := engine_rerender (start app host)
  rw [log, moves, Engine.log_append, history, ← List.singleton_append]
  refine Settles.append (Settles.pass (start app host)) ?_
  have hrest := Settles.performAll actions (mount app host).2
  rw [mount, hmount] at hrest
  exact hrest

/-- What is shown is what the last pass read, which began in the session `p`: all states that it read
still hold what was read, after what happened later. -/
structure Current (p : Session ω) (later : List (Moment ω)) (s : Session ω) : Prop where
  unwritten : ∀ (reads : List (Moment ω)) (c : SlotCall ω) rest initial,
    p.passLog = reads ++ c.moment :: rest → c.use = .state initial →
      ∀ m ∈ rest ++ later, m.written? ≠ some c.cell
  get_eq : ∀ (c : SlotCall ω) initial, c.moment ∈ p.passLog → c.use = .state initial →
    s.store.get c.setter = c.content
  shown : ∃ tree, p.expand.1 = .ok tree ∧ s.tree.bare = tree.bare

theorem get_of_unwritten {app : Application ω} {host : ω} {actions : List (Action ω)}
    {before after : List (Moment ω)} {c : SlotCall ω} {initial : Datum}
    (hlog : log app host actions = before ++ c.moment :: after) (huse : c.use = .state initial)
    (h : ∀ m ∈ after, m.written? ≠ some c.cell) :
    (run app host actions).1.store.get c.setter = c.content := by
  have htold := Deed.told_of_log hlog
  obtain ⟨deeds', deeds'', hdeeds, -, hscope, rfl⟩ := Deed.exists_of_mem_log hlog
  have hafter : c.after = c.taken.2 := by
    rw [SlotCall.after, huse, SlotCall.taken, huse]
    rfl
  have hlast : (run app host actions).1.engine.scope = Deed.performAll deeds'' c.after := by
    rw [engine_run, Engine.scope_performAll]
    rw [hdeeds, Deed.performAll_append, hscope]
    rfl
  have hcell : c.cell < c.after.store.cells.contents.size := by
    rw [hafter]
    exact htold.grown_taken.2.1
  have hread := Deed.read_performAll hcell h
  rw [← hlast, hafter] at hread
  exact hread

theorem untaken_passLog (s : Session ω) : Moment.Untaken s.passLog := by
  refine Engine.untaken_log (List.forall_mem_cons.mpr ⟨fun h => (by cases h), fun m hm h => ?_⟩) _
  obtain ⟨step, -, hstep⟩ := List.mem_map.mp hm
  cases step <;> cases hstep.trans h

theorem not_asks_of_untaken {app : Application ω} {host : ω} {actions : List (Action ω)}
    {before since : List (Moment ω)} (hlog : log app host actions = before ++ since)
    (hsince : Moment.Untaken since)
    (hrest : (run app host actions).1.store.scheduler.renderPending = false) :
    ∀ m ∈ since, m.asks = false := by
  intro m hm
  obtain ⟨reads, rest, rfl⟩ := List.append_of_mem hm
  rw [← List.append_assoc] at hlog
  have hiff := Deed.renderPending_iff (Engine.deeds (moves app host actions) (.start host))
    (s := .start host) rfl
  have hpending : (run app host actions).1.engine.scope.store.scheduler.renderPending = false :=
    hrest
  rw [engine_run, Engine.scope_performAll] at hpending
  by_contra hne
  have hlate : ∀ m' ∈ rest, m'.deed ≠ .takeRender := fun m' hm' => hsince m' (by simp [hm'])
  have hpending' := hiff.mpr ⟨_, m, rest, hlog, (Bool.not_eq_false _).mp hne, hlate⟩
  exact absurd (hpending.symm.trans hpending') Bool.false_ne_true

theorem exists_shown_of_getLast? {app : Application ω} {host : ω} {actions : List (Action ω)}
    {p : Session ω} (hp : (history app host actions).getLast? = some p)
    (hok : p.rerender.1 = .ok ()) :
    ∃ tree, p.expand.1 = .ok tree ∧ (run app host actions).1.tree.bare = tree.bare := by
  obtain ⟨passes, hpasses⟩ := List.getLast?_eq_some_iff.mp hp
  cases hx : p.expand.1 with
  | error e =>
    rw [rerender_of_error hx] at hok
    cases hok
  | ok tree =>
    refine ⟨tree, rfl, ?_⟩
    have hunwrapped : p.unwrapped = [tree] := by rw [unwrapped, hx]
    have hbare := (sound_run app host actions).bare_eq
    rw [congrArg Prod.snd (run_eq app host actions), hpasses, List.flatMap_append,
      List.flatMap_singleton, hunwrapped, List.getLastD_concat] at hbare
    exact hbare

/-- Whenever no pass is pending, a session shows what its states hold. -/
theorem current_at_rest (app : Application ω) (host : ω) (actions : List (Action ω))
    (hok : ∀ s ∈ history app host actions, s.rerender.1 = .ok ())
    (hset : ∀ m ∈ log app host actions, m.bypasses (log app host actions) = false)
    (hrest : (run app host actions).1.store.scheduler.renderPending = false) :
    ∃ before p later, (history app host actions).getLast? = some p ∧
      log app host actions = before ++ (p.passLog ++ later) ∧
      Current p later (run app host actions).1 := by
  obtain ⟨hnil, -⟩ | ⟨before, p, later, hp, hlog, hlater⟩ := settles_log app host actions
  · cases hnil
  refine ⟨before, p, later, hp, hlog, ?_⟩
  -- Nobody has asked for a pass since the last one began.
  have hasks := not_asks_of_untaken hlog (List.forall_mem_append.mpr ⟨p.untaken_passLog, hlater⟩) hrest
  have hunwritten : ∀ (reads : List (Moment ω)) (c : SlotCall ω) rest initial,
      p.passLog = reads ++ c.moment :: rest → c.use = .state initial →
        ∀ m ∈ rest ++ later, m.written? ≠ some c.cell := by
    intro reads c rest initial hpass huse m hm hwritten
    rw [hpass, List.append_assoc, List.cons_append] at hlog hasks
    have hsince : m ∈ reads ++ c.moment :: (rest ++ later) :=
      List.mem_append_right _ (List.mem_cons_of_mem _ hm)
    have hmem : m ∈ log app host actions := by
      rw [hlog]
      exact List.mem_append_right _ hsince
    have hc : c.moment ∈ log app host actions := by simp [hlog]
    cases (hasks m hsince).symm.trans (Moment.asks_of_written (hset m hmem) huse hc hwritten)
  refine ⟨hunwritten, fun c initial hc huse => ?_, ?_⟩
  · obtain ⟨reads, rest, hpass⟩ := List.append_of_mem hc
    have hsince := hunwritten reads c rest initial hpass huse
    rw [hpass, List.append_assoc, List.cons_append, ← List.append_assoc] at hlog
    exact get_of_unwritten hlog huse hsince
  · exact exists_shown_of_getLast? hp (hok p (List.mem_of_getLast? hp))

/-- The gate is opened after the effect has begun to wait. What it sets is shown two turns later. -/
def opened : List (Action Unit) := [.tick, .openGate "gate", .tick, .tick]

theorem current_at_rest_opened :
    ((run awaiting () opened).1.store.get ⟨0⟩ == .flag true) = true ∧
      (history awaiting () opened).length = 2 ∧
      ∃ before p later, (history awaiting () opened).getLast? = some p ∧
        log awaiting () opened = before ++ (p.passLog ++ later) ∧
        Current p later (run awaiting () opened).1 := by
  have hrest : (run awaiting () opened).1.store.scheduler.renderPending = false := by decide +kernel
  refine ⟨by decide +kernel, by decide +kernel, current_at_rest awaiting () opened ?_ ?_ hrest⟩
  · have hall : (history awaiting () opened).all (fun s => decide (s.rerender.1 = .ok ())) = true := by
      decide +kernel
    exact fun s hs => of_decide_eq_true (List.all_eq_true.mp hall s hs)
  · have hnone : (log awaiting () opened).any (Moment.bypasses (log awaiting () opened)) = false := by
      decide +kernel
    exact fun m hm => by simpa using List.any_eq_false.mp hnone m hm

end Session

end ReactiveView
