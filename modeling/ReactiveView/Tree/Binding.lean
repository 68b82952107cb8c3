import ReactiveView.Tree.Enumeration
import ReactiveView.Tree.Surface

namespace ReactiveView

/-- The listeners of a tree, each once, in document order. -/
abbrev EventSet := List EventBinding

mutual

def VirtualNode.declared : VirtualNode → List EventBinding
  | .element _ _ listeners children live =>
    (live.map fun id => listeners.map (EventBinding.mk id)).getD [] ++
      VirtualNode.declaredAll children
  | .text _ _ => []
  | .fragment _ _ children => VirtualNode.declaredAll children

def VirtualNode.declaredAll : List VirtualNode → List EventBinding
  | [] => []
  | node :: rest => node.declared ++ VirtualNode.declaredAll rest

end

def VirtualTree.events (t : VirtualTree) : EventSet :=
  (VirtualNode.declaredAll t.children).eraseDups

def EventSet.minus (a b : EventSet) : EventSet := a.filter (· ∉ b)

/-- Change the listeners of a surface from one set to another: the ones that are gone are removed,
then the new ones added. The answer is how many were added and how many removed. -/
def EventSet.refresh (e : Enumeration) (previous next : EventSet) (s : Surface) :
    (Nat × Nat) × Surface :=
  let gone := e.bindings (EventSet.minus previous next)
  let fresh := e.bindings (EventSet.minus next previous)
  let s := gone.foldl (fun s b => s.removeListener b.node b.listener) s
  let s := fresh.foldl (fun s b => s.addListener b.node b.listener) s
  ((fresh.length, gone.length), s)

end ReactiveView
