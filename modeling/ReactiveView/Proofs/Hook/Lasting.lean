import ReactiveView.Hook.Executor
import ReactiveView.Hook.Scope

namespace ReactiveView

variable {ω : Type}

/-- A relation between stores that every step of a program keeps. -/
structure Store.Lasting (R : Store ω → Store ω → Prop) : Prop where
  refl : ∀ s, R s s
  trans : ∀ {s s' s''}, R s s' → R s' s'' → R s s''
  alter : ∀ s host, R s { s with host := host }
  write : ∀ s cell content, R s { s with cells := s.cells.write cell content }
  request : ∀ s, R s s.request
  defer : ∀ s effect, R s { s with scheduler := s.scheduler.defer effect }
  deferAsync : ∀ s effect, R s { s with scheduler := s.scheduler.deferAsync effect }

namespace Store.Lasting

variable {R : Store ω → Store ω → Prop}

theorem set (h : Lasting R) (s : Store ω) (state : Setter) (content : Datum) :
    R s (s.set state content) := by
  unfold Store.set
  split
  · exact h.refl s
  · exact h.trans (h.write s state.cell content) (h.request _)

theorem advance (h : Lasting R) (opened : List String) {m : Mode} (p : Program ω m) :
    ∀ s, R s (p.advance opened s).2 := by
  induction p with
  | done =>
    intro s
    exact h.refl s
  | look next ih =>
    intro s
    exact ih s.view s
  | alter change next ih =>
    intro s
    exact h.trans (h.alter s _) (ih _)
  | set state content next ih =>
    intro s
    exact h.trans (h.set s state content) (ih _)
  | put ref content next ih =>
    intro s
    exact h.trans (h.write s ref.cell content) (ih _)
  | request next ih =>
    intro s
    exact h.trans (h.request s) (ih _)
  | defer effect next _ ih =>
    intro s
    exact h.trans (h.defer s effect) (ih _)
  | deferAsync effect next _ ih =>
    intro s
    exact h.trans (h.deferAsync s effect) (ih _)
  | await gate next ih =>
    intro s
    unfold Program.advance
    split
    · exact ih s
    · exact h.refl s

theorem run (h : Lasting R) (p : Program ω .sync) (s : Store ω) : R s (p.run s) := h.advance [] p s

theorem foldl (h : Lasting R) {β : Type} {f : Store ω → β → Store ω} (hf : ∀ s b, R s (f s b))
    (bs : List β) (s : Store ω) : R s (bs.foldl f s) := by
  induction bs generalizing s with
  | nil => exact h.refl s
  | cons b rest ih => exact h.trans (hf s b) (ih _)

theorem runAll (h : Lasting R) (s : Store ω) (programs : List (Program ω .sync)) :
    R s (s.runAll programs) := h.foldl (fun s p => h.run p s) programs s

theorem runEffects (h : Lasting R) (htake : ∀ s, R s { s with scheduler := s.scheduler.takeEffects.2 })
    (s : Store ω) : R s s.runEffects.2 := h.trans (htake s) (h.runAll _ _)

theorem turn (h : Lasting R) (hend : ∀ s, R s { s with scheduler := s.scheduler.endAsync })
    (e : Executor ω) (s : Store ω) (effect : Program ω .async) : R s (e.turn s effect).2 := by
  have ha := h.advance e.opened effect s
  unfold Executor.turn
  generalize effect.advance e.opened s = r at ha ⊢
  obtain ⟨_ | wait, s'⟩ := r
  · exact h.trans ha (hend s')
  · exact ha

theorem drain (h : Lasting R) (htake : ∀ s, R s { s with scheduler := s.scheduler.takeAsync.2 })
    (hend : ∀ s, R s { s with scheduler := s.scheduler.endAsync }) (e : Executor ω) (s : Store ω) :
    R s (e.drain s).2.2 := by
  have hfold : ∀ (effects : List (Program ω .async)) (r : Executor ω × Store ω),
      R r.2 (effects.foldl (fun r effect => r.1.turn r.2 effect) r).2 := by
    intro effects
    induction effects with
    | nil => exact fun r => h.refl r.2
    | cons effect rest ih => exact fun r => h.trans (h.turn hend r.1 r.2 effect) (ih _)
  let started := e.spawn s.scheduler.takeAsync.1
  exact h.trans (htake s) (hfold started.ready ({ started with ready := [] },
    { s with scheduler := s.scheduler.takeAsync.2 }))

end Store.Lasting

structure Scope.Lasting (R : Scope ω → Scope ω → Prop) : Prop where
  refl : ∀ s, R s s
  trans : ∀ {s s' s''}, R s s' → R s' s'' → R s s''
  slot : ∀ s initial, R s (s.slot initial).2
  useEffect : ∀ s deps effect, R s (s.useEffect deps effect)
  useEffectAsync : ∀ s deps effect, R s (s.useEffectAsync deps effect)
  makeHandler : ∀ s react, R s (s.makeHandler react).2
  act : ∀ s (program : Program ω .sync), R s { s with store := program.run s.store }

theorem Scope.Lasting.describe {R : Scope ω → Scope ω → Prop} {α : Type} (h : Scope.Lasting R)
    (d : Describe ω α) : ∀ s, R s (d.run s).2 := by
  induction d with
  | done result =>
    intro s
    exact h.refl s
  | state initial next ih =>
    intro s
    exact h.trans (h.slot s initial) (ih _ _ _)
  | ref initial next ih =>
    intro s
    exact h.trans (h.slot s initial) (ih _ _)
  | effect deps program next ih =>
    intro s
    exact h.trans (h.useEffect s deps program) (ih _)
  | effectAsync deps program next ih =>
    intro s
    exact h.trans (h.useEffectAsync s deps program) (ih _)
  | handler react next ih =>
    intro s
    exact h.trans (h.makeHandler s react) (ih _ _)
  | reuse id next ih =>
    intro s
    exact ih _ s
  | look next ih =>
    intro s
    exact ih _ s
  | act program next ih =>
    intro s
    exact h.trans (h.act s program) (ih _)

end ReactiveView
