import ReactiveView.Tree.Basic

namespace ReactiveView

structure EventBinding where
  node : NodeId
  listener : Listener
  deriving DecidableEq, Repr

/-- The orders in which nodes are torn down and listeners are changed. The collections have no order
of their own, so any is right, and it is left open here. -/
structure Enumeration where
  nodes : List VirtualNode → List VirtualNode
  nodes_perm : ∀ ns, (nodes ns).Perm ns
  bindings : List EventBinding → List EventBinding
  bindings_perm : ∀ bs, (bindings bs).Perm bs

def Enumeration.document : Enumeration := ⟨id, fun _ => .refl _, id, fun _ => .refl _⟩

end ReactiveView
