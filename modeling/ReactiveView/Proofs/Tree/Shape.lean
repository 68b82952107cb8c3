import ReactiveView.Proofs.Tree.Handles

namespace ReactiveView

/-- What a node has to have in common with another one to be matched with it. -/
inductive VirtualNode.Kind where
  | element (tag : String)
  | text
  | fragment (key : FragmentKey)
  deriving DecidableEq

def VirtualNode.Kind.itemKey? : VirtualNode.Kind → Option String
  | fragment (.item key) => some key
  | _ => none

inductive VirtualNode.Skeleton where
  | node (kind : VirtualNode.Kind) (live : Option NodeId) (children : List VirtualNode.Skeleton)

namespace VirtualNode

def kind : VirtualNode → Kind
  | element tag _ _ _ _ => .element tag
  | text _ _ => .text
  | fragment key _ _ => .fragment key

theorem itemKey?_kind (node : VirtualNode) : node.kind.itemKey? = node.itemKey? := by
  cases node with
  | fragment key shown children => cases key <;> rfl
  | _ => rfl

theorem map_itemKey?_of_map_kind {nodes more : List VirtualNode} (h : nodes.map kind = more.map kind) :
    nodes.map (·.itemKey?) = more.map (·.itemKey?) := by
  have hk := congrArg (List.map Kind.itemKey?) h
  simpa only [List.map_map, Function.comp_def, itemKey?_kind] using hk

mutual

def skeleton : VirtualNode → Skeleton
  | element tag _ _ children live => .node (.element tag) live (skeletonAll children)
  | text _ live => .node .text live []
  | fragment key _ children => .node (.fragment key) none (skeletonAll children)

def skeletonAll : List VirtualNode → List Skeleton
  | [] => []
  | node :: rest => node.skeleton :: skeletonAll rest

end

def shape (node : VirtualNode) : Skeleton := node.bare.skeleton

def shapeAll (nodes : List VirtualNode) : List Skeleton := skeletonAll (bareAll nodes)

mutual

/-- A node and the nodes within it, in document order. -/
def walk : VirtualNode → List VirtualNode
  | element tag attrs listeners children live =>
    element tag attrs listeners children live :: walkAll children
  | text content live => [text content live]
  | fragment key shown children => fragment key shown children :: walkAll children

def walkAll : List VirtualNode → List VirtualNode
  | [] => []
  | node :: rest => node.walk ++ walkAll rest

end

theorem skeleton_eq (node : VirtualNode) :
    node.skeleton = .node node.kind node.live? (skeletonAll node.children) := by
  cases node <;> rfl

theorem shape_eq (node : VirtualNode) : node.shape = .node node.kind none (shapeAll node.children) := by
  cases node <;> rfl

theorem walk_eq (node : VirtualNode) : node.walk = node :: walkAll node.children := by
  cases node <;> rfl

theorem shapeAll_cons (node : VirtualNode) (rest : List VirtualNode) :
    shapeAll (node :: rest) = node.shape :: shapeAll rest := rfl

theorem shape_inj {a b : VirtualNode} (h : a.shape = b.shape) :
    a.kind = b.kind ∧ shapeAll a.children = shapeAll b.children := by
  rw [shape_eq, shape_eq] at h
  injection h with hk _ hc
  exact ⟨hk, hc⟩

theorem shapeAll_eq_map (nodes : List VirtualNode) : shapeAll nodes = nodes.map shape := by
  induction nodes with
  | nil => rfl
  | cons node rest ih => rw [shapeAll_cons, ih, List.map_cons]

theorem skeletonAll_eq_map (nodes : List VirtualNode) : skeletonAll nodes = nodes.map skeleton := by
  induction nodes with
  | nil => rfl
  | cons node rest ih => rw [skeletonAll, ih, List.map_cons]

theorem walkAll_eq_flatMap (nodes : List VirtualNode) : walkAll nodes = nodes.flatMap walk := by
  induction nodes with
  | nil => rfl
  | cons node rest ih => rw [walkAll, ih, List.flatMap_cons]

theorem walkAll_append (nodes more : List VirtualNode) :
    walkAll (nodes ++ more) = walkAll nodes ++ walkAll more := by
  simp only [walkAll_eq_flatMap, List.flatMap_append]

theorem walkAll_singleton (node : VirtualNode) : walkAll [node] = node.walk := by
  simp [walkAll]

mutual

theorem filterMap_walk : ∀ node : VirtualNode, node.walk.filterMap live? = node.held
  | element _ _ _ children live => by
    rw [walk, List.filterMap_cons, filterMap_walkAll children, held]
    cases live <;> rfl
  | text _ live => by cases live <;> rfl
  | fragment _ _ children => by
    rw [walk, List.filterMap_cons_none rfl, filterMap_walkAll children, held]

theorem filterMap_walkAll : ∀ nodes : List VirtualNode, (walkAll nodes).filterMap live? = heldAll nodes
  | [] => rfl
  | node :: rest => by
    rw [walkAll, List.filterMap_append, filterMap_walk node, filterMap_walkAll rest, heldAll]

end

theorem mem_heldAll {nodes : List VirtualNode} {id : NodeId} :
    id ∈ heldAll nodes ↔ ∃ node ∈ walkAll nodes, node.live? = some id := by
  rw [← filterMap_walkAll, List.mem_filterMap]

theorem map_kind_of_shapeAll_eq {nodes more : List VirtualNode} (h : shapeAll nodes = shapeAll more) :
    nodes.map kind = more.map kind := by
  induction nodes generalizing more with
  | nil =>
    cases more with
    | nil => rfl
    | cons b more => cases h
  | cons a rest ih =>
    cases more with
    | nil => cases h
    | cons b more =>
      obtain ⟨h1, h2⟩ := List.cons.inj h
      rw [List.map_cons, List.map_cons, (shape_inj h1).1, ih h2]

def AllLive (nodes : List VirtualNode) : Prop :=
  ∀ node ∈ walkAll nodes, node.live? = none → ∃ key, node.kind = .fragment key

theorem allLive_nil : AllLive [] := by simp [AllLive, walkAll]

theorem allLive_cons {node : VirtualNode} {rest : List VirtualNode} : AllLive (node :: rest) ↔
    (node.live? = none → ∃ key, node.kind = .fragment key) ∧ AllLive node.children ∧
      AllLive rest := by
  simp only [AllLive, walkAll, walk_eq node, List.cons_append, List.mem_cons, List.mem_append,
    forall_eq, or_imp, forall_and]

theorem allLive_append {nodes more : List VirtualNode} :
    AllLive (nodes ++ more) ↔ AllLive nodes ∧ AllLive more := by
  simp only [AllLive, walkAll_eq_flatMap, List.flatMap_append, List.mem_append, or_imp, forall_and]

theorem AllLive.perm {nodes more : List VirtualNode} (h : AllLive nodes) (hp : nodes.Perm more) :
    AllLive more := fun node hm => h node <| by
  rw [walkAll_eq_flatMap] at hm ⊢
  exact (hp.flatMap_right walk).mem_iff.mpr hm

namespace Skeleton

mutual

def kinds : Skeleton → List Kind
  | node kind _ children => kind :: kindsAll children

def kindsAll : List Skeleton → List Kind
  | [] => []
  | first :: rest => first.kinds ++ kindsAll rest

end

mutual

def handles : Skeleton → List NodeId
  | node (.element _) live _ => live.toList
  | node .text live _ => live.toList
  | node (.fragment _) _ children => flatten children

def flatten : List Skeleton → List NodeId
  | [] => []
  | first :: rest => first.handles ++ flatten rest

end

end Skeleton

mutual

theorem map_kind_walk : ∀ node : VirtualNode, node.walk.map kind = node.shape.kinds
  | element tag _ _ children _ => by
    rw [walk, List.map_cons, map_kind_walkAll children]
    rfl
  | text _ _ => rfl
  | fragment key _ children => by
    rw [walk, List.map_cons, map_kind_walkAll children]
    rfl

/-- Nodes of one shape have nodes of the same kinds within them, in the same order. -/
theorem map_kind_walkAll : ∀ nodes : List VirtualNode,
    (walkAll nodes).map kind = Skeleton.kindsAll (shapeAll nodes)
  | [] => rfl
  | node :: rest => by
    rw [walkAll, List.map_append, map_kind_walk node, map_kind_walkAll rest]
    rfl

end

theorem length_walk_of_shape_eq {a b : VirtualNode} (h : a.shape = b.shape) :
    a.walk.length = b.walk.length := by
  have hk := congrArg Skeleton.kinds h
  rw [← map_kind_walk, ← map_kind_walk] at hk
  simpa using congrArg List.length hk

mutual

theorem handles_skeleton : ∀ node : VirtualNode, node.skeleton.handles = node.handles
  | element _ _ _ _ _ => rfl
  | text _ _ => rfl
  | fragment _ _ children => flatten_skeletonAll children

theorem flatten_skeletonAll : ∀ nodes : List VirtualNode,
    Skeleton.flatten (skeletonAll nodes) = flatten nodes
  | [] => rfl
  | node :: rest => by
    rw [skeletonAll, Skeleton.flatten, handles_skeleton node, flatten_skeletonAll rest, flatten]

end

theorem flatten_of_skeletonAll_eq {nodes more : List VirtualNode}
    (h : skeletonAll nodes = skeletonAll more) : flatten nodes = flatten more := by
  rw [← flatten_skeletonAll, h, flatten_skeletonAll]

end VirtualNode

namespace VirtualTree

open VirtualNode

def shape (t : VirtualTree) : List Skeleton := shapeAll t.children

def skeleton (t : VirtualTree) : List Skeleton := skeletonAll t.children

def walk (t : VirtualTree) : List VirtualNode := walkAll t.children

end VirtualTree

end ReactiveView
