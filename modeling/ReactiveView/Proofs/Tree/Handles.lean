import ReactiveView.Tree.Basic

namespace ReactiveView.VirtualNode

mutual

/-- The node as it is before it is painted. -/
def bare : VirtualNode → VirtualNode
  | element tag attrs listeners children _ => element tag attrs listeners (bareAll children) none
  | text content _ => text content none
  | fragment key shown children => fragment key shown (bareAll children)

def bareAll : List VirtualNode → List VirtualNode
  | [] => []
  | node :: rest => node.bare :: bareAll rest

end

mutual

def held : VirtualNode → List NodeId
  | element _ _ _ children live => live.toList ++ heldAll children
  | text _ live => live.toList
  | fragment _ _ children => heldAll children

def heldAll : List VirtualNode → List NodeId
  | [] => []
  | node :: rest => node.held ++ heldAll rest

end

theorem flatten_eq_flatMap (nodes : List VirtualNode) : flatten nodes = nodes.flatMap handles := by
  induction nodes with
  | nil => rfl
  | cons node rest ih => rw [flatten, ih, List.flatMap_cons]

theorem heldAll_eq_flatMap (nodes : List VirtualNode) : heldAll nodes = nodes.flatMap held := by
  induction nodes with
  | nil => rfl
  | cons node rest ih => rw [heldAll, ih, List.flatMap_cons]

@[simp] theorem flatten_nil : flatten [] = [] := rfl

@[simp] theorem heldAll_nil : heldAll [] = [] := rfl

theorem flatten_append (nodes more : List VirtualNode) :
    flatten (nodes ++ more) = flatten nodes ++ flatten more := by
  simp only [flatten_eq_flatMap, List.flatMap_append]

theorem heldAll_append (nodes more : List VirtualNode) :
    heldAll (nodes ++ more) = heldAll nodes ++ heldAll more := by
  simp only [heldAll_eq_flatMap, List.flatMap_append]

theorem flatten_singleton (node : VirtualNode) : flatten [node] = node.handles := by
  simp [flatten]

theorem heldAll_singleton (node : VirtualNode) : heldAll [node] = node.held := by
  simp [heldAll]

theorem flatten_element (tag : String) (attrs : Dict String) (listeners : List Listener)
    (children : List VirtualNode) (id : NodeId) :
    flatten [element tag attrs listeners children (some id)] = [id] := by
  rw [flatten_singleton, handles, Option.toList_some]

theorem heldAll_element (tag : String) (attrs : Dict String) (listeners : List Listener)
    (children : List VirtualNode) (id : NodeId) :
    heldAll [element tag attrs listeners children (some id)] = id :: heldAll children := by
  rw [heldAll_singleton, held, Option.toList_some, List.singleton_append]

theorem flatten_fragment (key : FragmentKey) (shown : Bool) (nodes : List VirtualNode) :
    flatten [fragment key shown nodes] = flatten nodes := by
  rw [flatten_singleton, handles]

theorem heldAll_fragment (key : FragmentKey) (shown : Bool) (nodes : List VirtualNode) :
    heldAll [fragment key shown nodes] = heldAll nodes := by
  rw [heldAll_singleton, held]

theorem flatten_perm {nodes more : List VirtualNode} (h : nodes.Perm more) :
    (flatten nodes).Perm (flatten more) := by
  simp only [flatten_eq_flatMap]
  exact h.flatMap_right handles

theorem heldAll_perm {nodes more : List VirtualNode} (h : nodes.Perm more) :
    (heldAll nodes).Perm (heldAll more) := by
  simp only [heldAll_eq_flatMap]
  exact h.flatMap_right held

mutual

theorem handles_sublist_held : ∀ node : VirtualNode, node.handles.Sublist node.held
  | element _ _ _ children live => by
    simp only [handles, held]
    exact List.sublist_append_left _ _
  | text _ live => by simp only [handles, held]; exact List.Sublist.refl _
  | fragment _ _ children => by
    simp only [handles, held]
    exact flatten_sublist_heldAll children

theorem flatten_sublist_heldAll : ∀ nodes : List VirtualNode, (flatten nodes).Sublist (heldAll nodes)
  | [] => List.Sublist.refl _
  | node :: rest => by
    simp only [flatten, heldAll]
    exact (handles_sublist_held node).append (flatten_sublist_heldAll rest)

end

end ReactiveView.VirtualNode
