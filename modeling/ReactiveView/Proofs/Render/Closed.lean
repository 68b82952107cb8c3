import ReactiveView.Render.Expand

namespace ReactiveView

variable {ω α β : Type} {library : Library ω}

namespace Pass

theorem run_bind (p : Pass ω α) (f : α → Pass ω β) (s : PassState ω) :
    (p >>= f).run s =
      match p.run s with
      | (.ok a, s) => (f a).run s
      | (.error e, s) => (.error e, s) := by
  change (ExceptT.bindCont f (p.run s).1) (p.run s).2 = _
  obtain ⟨_ | _, s'⟩ := p.run s <;> rfl

theorem run_ofExcept (r : Except RenderError α) (s : PassState ω) :
    (Pass.ofExcept r).run s = (r, s) := rfl

theorem run_load (key : Coordinate) (s : PassState ω) : (Pass.load key).run s = (.ok (), { s with
    scope.registry := s.scope.registry.load key
    steps := s.steps ++ [.load key] }) := rfl

theorem run_clean (s : PassState ω) : Pass.clean.run s = (.ok (), { s with
    scope.registry := s.scope.registry.clean
    steps := s.steps ++ [.clean] }) := rfl

theorem run_describe (d : Describe ω (Except RenderError (Descriptor ω))) (s : PassState ω) :
    (Pass.describe d).run s = (.ok (d.run s.scope).1, { s with
      scope := (d.run s.scope).2
      steps := s.steps ++ [.describe d] }) := rfl

theorem run_template (id text : String) (dynamic : Bool) (s : PassState ω) :
    (Pass.template id text dynamic).run s =
      ((s.cache.load id text dynamic).1.mapError (RenderError.template id),
        { s with cache := (s.cache.load id text dynamic).2 }) := rfl

theorem bind_alike {R : PassState ω → PassState ω → Prop} {p : Pass ω α} {f : α → Pass ω β}
    {s s' : PassState ω} (hp : (p.run s).1 = (p.run s').1 ∧ R (p.run s).2 (p.run s').2)
    (hf : ∀ a, (p.run s).1 = .ok a → ∀ t t', R t t' →
      ((f a).run t).1 = ((f a).run t').1 ∧ R ((f a).run t).2 ((f a).run t').2) :
    ((p >>= f).run s).1 = ((p >>= f).run s').1 ∧ R ((p >>= f).run s).2 ((p >>= f).run s').2 := by
  obtain ⟨hresult, hstate⟩ := hp
  rw [run_bind, run_bind]
  -- The first parts result in the same, so either both runs end here or both go on with `f a`.
  rcases hrun : p.run s with ⟨e | a, t⟩
  · rcases hrun' : p.run s' with ⟨e' | a', t'⟩
    · rw [hrun, hrun'] at hresult hstate
      have he : e = e' := Except.error.inj hresult
      exact ⟨congrArg Except.error he, hstate⟩
    · rw [hrun, hrun'] at hresult
      cases hresult
  · rcases hrun' : p.run s' with ⟨_ | a', t'⟩
    · rw [hrun, hrun'] at hresult
      cases hresult
    · rw [hrun, hrun'] at hresult hstate
      cases hresult
      exact hf a (by rw [hrun]) t t' hstate

/-- A property that passes have if their parts have it. Behind a part of a pass only what that part
can result in counts. -/
structure Closed (library : Library ω) (P : ∀ α : Type, Pass ω α → Prop) : Prop where
  pure : ∀ {α : Type} (a : α), P α (Pure.pure a)
  throw : ∀ {α : Type} (e : RenderError), P α (MonadExcept.throw e)
  bind : ∀ {α β : Type} {p : Pass ω α} {f : α → Pass ω β}, P α p →
    (∀ s a, (p.run s).1 = .ok a → P β (f a)) → P β (p >>= f)
  load : ∀ key, P Unit (Pass.load key)
  clean : P Unit Pass.clean
  describe : ∀ key props, P _ (Pass.describe ((library key).describe props))
  template : ∀ {key props scope d}, (((library key).describe props).run scope).1 = .ok d →
    P Template (Pass.template (library key).id d.template d.dynamic)

namespace Closed

variable {P : ∀ α : Type, Pass ω α → Prop}

theorem ofExcept (h : Closed library P) (r : Except RenderError α) : P α (Pass.ofExcept r) := by
  cases r with
  | error e => exact h.throw e
  | ok a => exact h.pure a

theorem mapM (h : Closed library P) {f : α → Pass ω β} (hf : ∀ a, P β (f a)) (l : List α) :
    P (List β) (l.mapM f) := by
  induction l with
  | nil => exact h.pure []
  | cons a rest ih =>
    rw [List.mapM_cons]
    exact h.bind (hf a) fun _ b _ => h.bind ih fun _ bs _ => h.pure (b :: bs)

theorem use (h : Closed library P) {mount : Mount ω} (hm : ∀ key props, P _ (mount key props))
    (f : Frame ω) (name : String) (handed : List Attr) : P _ (f.use library mount name handed) := by
  rw [Frame.use]
  split
  · exact h.throw _
  · apply h.bind (h.ofExcept _)
    intro s props hprops
    dsimp only
    split
    · exact hm _ _
    · exact h.bind (h.load _) fun _ _ _ => h.bind h.clean fun _ _ _ => h.pure _

mutual

theorem expand (h : Closed library P) {mount : Mount ω} (hm : ∀ key props, P _ (mount key props)) :
    ∀ (node : Node) (f : Frame ω), P _ (node.expand library mount f)
  | .element tag attrs children, f => by
    rw [Node.expand]
    exact h.bind (h.ofExcept _) fun _ parts _ =>
      h.bind (expandAll h hm children f) fun _ nodes _ => h.pure _
  | .custom name attrs props children, f => by
    rw [Node.expand]
    exact h.use hm f name _
  | .literal text, f => by
    rw [Node.expand]
    exact h.pure _
  | .serial reference, f => by
    rw [Node.expand]
    exact h.bind (h.ofExcept _) fun _ v _ => h.pure _
  | .command .map binding children, f => by
    rw [Node.expand]
    apply h.bind (h.ofExcept _)
    intro s r hr
    have hitem : ∀ item : Value × Nat, P VirtualNode (do
        let nodes ← Node.expandAll library mount (f.enter r.context item.1) children
        return VirtualNode.fragment (.item (r.keyOf item.2 item.1)) true nodes) := fun item =>
      h.bind (expandAll h hm children _) fun _ nodes _ => h.pure _
    exact h.bind (h.mapM hitem _) fun _ nodes _ => h.pure _

theorem expandAll (h : Closed library P) {mount : Mount ω}
    (hm : ∀ key props, P _ (mount key props)) :
    ∀ (nodes : List Node) (f : Frame ω), P _ (Node.expandAll library mount f nodes)
  | [], f => by
    rw [Node.expandAll]
    exact h.pure []
  | node :: rest, f => by
    rw [Node.expandAll]
    exact h.bind (expand h hm node f) fun _ first _ =>
      h.bind (expandAll h hm rest f) fun _ others _ => h.pure _

end

theorem mount (h : Closed library P) (levels : Nat) :
    ∀ depth key props, P _ (library.mount levels depth key props) := by
  induction levels with
  | zero =>
    intro depth key props
    exact h.throw _
  | succ levels ih =>
    intro depth key props
    rw [Library.mount]
    apply h.bind (h.load _)
    intro s _ _
    apply h.bind (h.describe key props)
    intro s r hr
    apply h.bind (h.ofExcept r)
    intro s' d hd
    -- The descriptor is one that the component gives on the scope it was described on.
    have hdescribed : (((library key).describe props).run s.scope).1 = .ok d :=
      (Except.ok.inj hr).trans hd
    apply h.bind (h.template hdescribed)
    intro s'' template _
    exact h.bind (h.expand (ih (depth + 1)) template.root _) fun _ root _ => h.pure _

end Closed

end Pass

namespace Library

def unwrap (library : Library ω) (levels depth : Nat) (id : String) (d : Descriptor ω) :
    Pass ω VirtualNode := do
  let template ← Pass.template id d.template d.dynamic
  let root ← template.root.expand library (Library.mount library levels (depth + 1)) ⟨id, depth, d, []⟩
  return .fragment (.component id) true [root]

theorem run_mount {key : String} {props : Bindings ω} {depth : Nat} {s : PassState ω}
    {d : Descriptor ω} {scope : Scope ω} (hd : ((library key).describe props).run
      { s.scope with registry := s.scope.registry.load ⟨(library key).id, depth⟩ } = (.ok d, scope))
    (levels : Nat) : (library.mount (levels + 1) depth key props).run s =
      (library.unwrap levels depth (library key).id d).run ⟨scope, s.cache,
        s.steps ++ [.load ⟨(library key).id, depth⟩] ++ [.describe ((library key).describe props)]⟩ := by
  simp only [Library.mount, Pass.run_bind, Pass.run_load, Pass.run_describe, Pass.run_ofExcept, hd,
    unwrap]

end Library

end ReactiveView
