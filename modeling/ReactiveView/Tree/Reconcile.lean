import ReactiveView.Tree.Enumeration
import ReactiveView.Tree.Increasing
import ReactiveView.Tree.Surface

namespace ReactiveView

mutual

def VirtualNode.paint (parent : NodeId) : VirtualNode → Surface → VirtualNode × Surface
  | .element tag attrs listeners children _, s =>
    let (id, s) := s.createElement tag
    let s := attrs.entries.foldl (fun s a => s.setAttribute id a.1 a.2) s
    let (children, s) := VirtualNode.paintAll id children s
    (.element tag attrs listeners children (some id), s.append parent id)
  | .text content _, s =>
    let (id, s) := s.createText content
    (.text content (some id), s.append parent id)
  | .fragment key shown children, s =>
    let (children, s) := VirtualNode.paintAll parent children s
    (.fragment key shown children, s)

def VirtualNode.paintAll (parent : NodeId) : List VirtualNode → Surface →
    List VirtualNode × Surface
  | [], s => ([], s)
  | node :: rest, s =>
    let (node, s) := node.paint parent s
    let (rest, s) := VirtualNode.paintAll parent rest s
    (node :: rest, s)

end

def VirtualNode.tearDown (parent : NodeId) (nodes : List VirtualNode) (s : Surface) : Surface :=
  (VirtualNode.flatten nodes).foldl (fun s id => s.removeChild parent id) s

namespace Surface

/-- Move children of a node so that they stand in a given order. `before` are their handles before
matching and `after` those wanted; the children stand as matching leaves them, those that stayed
in their old order and the new ones behind. -/
def arrange (s : Surface) (parent : NodeId) (before after : List NodeId) : Surface :=
  let current := before.filter (· ∈ after) ++ after.filter (· ∉ before)
  if current = after then s
  else match after.mapM fun id => current.idxOf? id with
    | none => s
    | some positions =>
      ((after.zip (Increasing.mask positions)).foldr (fun (id, stays) (anchor, s) =>
        (some id, if stays then s else s.insertBefore parent id anchor)) (none, s)).2

def patch (s : Surface) (id : NodeId) (previous next : Dict String) : Surface :=
  let s := next.entries.foldl (fun s a =>
    if previous.get? a.1 = some a.2 then s else s.setAttribute id a.1 a.2) s
  previous.keys.foldl (fun s name => if next.contains name then s else s.removeAttribute id name) s

end Surface

def VirtualNode.uniquelyKeyed (nodes : List VirtualNode) : Bool :=
  nodes.all (·.itemKey?.isSome) && decide (nodes.map (·.itemKey?)).Nodup

/-- The previous nodes that have not been matched yet. -/
inductive Matching where
  | keyed (pool : List VirtualNode)
  | positional (rest : List VirtualNode)

namespace Matching

def start (previous next : List VirtualNode) : Matching :=
  if VirtualNode.uniquelyKeyed previous && VirtualNode.uniquelyKeyed next then keyed previous
  else positional previous

def take (node : VirtualNode) : Matching → Option VirtualNode × Matching
  | keyed pool =>
    let same := fun (old : VirtualNode) => old.itemKey? == node.itemKey?
    (pool.find? same, keyed (pool.eraseP same))
  | positional [] => (none, positional [])
  | positional (old :: rest) => (some old, positional rest)

/-- The previous nodes that belong to none, in the order in which they are torn down. -/
def stale (e : Enumeration) : Matching → List VirtualNode
  | keyed pool => e.nodes pool
  | positional rest => rest

end Matching

def VirtualNode.replace (parent : NodeId) (old next : VirtualNode) (s : Surface) :
    VirtualNode × Surface :=
  next.paint parent (VirtualNode.tearDown parent [old] s)

mutual

def VirtualNode.reconcile (e : Enumeration) (parent : NodeId) (old next : VirtualNode)
    (s : Surface) : VirtualNode × Surface :=
  match next with
  | .text content live =>
    match old with
    | .text shown (some id) =>
      (.text content (some id), if shown = content then s else s.setText id content)
    | _ => old.replace parent (.text content live) s
  | .element tag attrs listeners children live =>
    match old with
    | .element tag' attrs' _ children' (some id) =>
      if tag' = tag then
        let (children, s) := VirtualNode.reconcileAll e id (Matching.start children' children)
          children (s.patch id attrs' attrs)
        (.element tag attrs listeners children (some id),
          s.arrange id (VirtualNode.flatten children') (VirtualNode.flatten children))
      else old.replace parent (.element tag attrs listeners children live) s
    | _ => old.replace parent (.element tag attrs listeners children live) s
  | .fragment key shown children =>
    match old with
    | .fragment key' _ children' =>
      if key' = key then
        let (children, s) := VirtualNode.reconcileAll e parent (Matching.start children' children)
          children s
        (.fragment key shown children, s)
      else old.replace parent (.fragment key shown children) s
    | _ => old.replace parent (.fragment key shown children) s

/-- Bring nodes to the next ones: those that match are kept, the others are painted, and in the
end the previous nodes that belong to none are torn down. -/
def VirtualNode.reconcileAll (e : Enumeration) (parent : NodeId) (m : Matching)
    (next : List VirtualNode) (s : Surface) : List VirtualNode × Surface :=
  match next with
  | [] => ([], VirtualNode.tearDown parent (m.stale e) s)
  | node :: rest =>
    let (old, m) := m.take node
    let (node, s) := match old with
      | some old => VirtualNode.reconcile e parent old node s
      | none => node.paint parent s
    let (rest, s) := VirtualNode.reconcileAll e parent m rest s
    (node :: rest, s)

end

namespace VirtualTree

def paint (t : VirtualTree) (s : Surface) : VirtualTree × Surface :=
  let (children, s) := VirtualNode.paintAll Surface.root t.children s
  (⟨children, some Surface.root⟩, s)

/-- Bring a surface from one tree to the next, listeners aside. A tree that was never painted shows
nothing. -/
def diff (e : Enumeration) (previous next : VirtualTree) (s : Surface) : VirtualTree × Surface :=
  match previous.live with
  | none => next.paint s
  | some parent =>
    let (children, s) := VirtualNode.reconcileAll e parent
      (Matching.start previous.children next.children) next.children s
    (⟨children, some parent⟩,
      s.arrange parent (VirtualNode.flatten previous.children) (VirtualNode.flatten children))

end VirtualTree

end ReactiveView
