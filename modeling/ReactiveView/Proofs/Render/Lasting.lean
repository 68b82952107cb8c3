import ReactiveView.Proofs.Render.Closed

namespace ReactiveView

variable {ω α : Type}

namespace Pass

def Keeps (R : PassState ω → PassState ω → Prop) (p : Pass ω α) : Prop := ∀ s, R s (p.run s).2

/-- A relation between states that passes keep. -/
structure Lasting (R : PassState ω → PassState ω → Prop) : Prop where
  refl : ∀ s, R s s
  trans : ∀ {s s' s''}, R s s' → R s' s'' → R s s''
  load : ∀ key, Keeps R (Pass.load key)
  clean : Keeps R Pass.clean
  describe : ∀ d : Describe ω (Except RenderError (Descriptor ω)), Keeps R (Pass.describe d)
  template : ∀ id source dynamic, Keeps R (Pass.template id source dynamic)

namespace Lasting

variable {R : PassState ω → PassState ω → Prop}

theorem closed (h : Lasting R) (library : Library ω) : Closed library fun _ p => Keeps R p where
  pure := fun a s => h.refl s
  throw := fun e s => h.refl s
  bind := by
    intro α β p f hp hf s
    rw [run_bind]
    have hs := hp s
    rcases hr : p.run s with ⟨_ | a, s'⟩
    · rwa [hr] at hs
    · rw [hr] at hs
      exact h.trans hs (hf s a (by rw [hr]) s')
  load := h.load
  clean := h.clean
  describe := fun key props => h.describe _
  template := fun _ => h.template _ _ _

theorem mount (h : Lasting R) (library : Library ω) (levels : Nat) :
    ∀ depth key props, Keeps R (library.mount levels depth key props) :=
  (h.closed library).mount levels

end Lasting

end Pass

end ReactiveView
