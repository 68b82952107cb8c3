import ReactiveView.Tree.Basic

namespace ReactiveView

inductive LiveKind where
  | element (tag : String) (attrs : Dict String)
  | text (text : String)
  deriving DecidableEq

structure LiveNode where
  kind : LiveKind
  parent : Option NodeId
  children : List NodeId
  listeners : List Listener
  deriving DecidableEq

def LiveNode.mapAttrs (n : LiveNode) (f : Dict String → Dict String) : LiveNode :=
  match n.kind with
  | .element tag attrs => { n with kind := .element tag (f attrs) }
  | .text _ => n

def LiveNode.withText (n : LiveNode) (text : String) : LiveNode :=
  match n.kind with
  | .text _ => { n with kind := .text text }
  | .element _ _ => n

inductive Op where
  | createElement (node : NodeId) (tag : String)
  | createText (node : NodeId) (text : String)
  | setAttribute (node : NodeId) (name value : String)
  | removeAttribute (node : NodeId) (name : String)
  | setText (node : NodeId) (text : String)
  | insert (parent child : NodeId) (before : Option NodeId)
  | remove (parent child : NodeId)
  | addListener (node : NodeId) (event : String)
  | removeListener (node : NodeId) (event : String)
  deriving DecidableEq, Repr

def Op.isCreate : Op → Bool
  | createElement _ _ => true
  | createText _ _ => true
  | _ => false

/-- A surface: its nodes, whose handles are their indices, and the calls so far. Nodes are only ever
added; one that is removed stays, detached. Node 0 is the root under which everything is shown. -/
structure Surface where
  nodes : Array LiveNode
  log : Array Op

namespace Surface

def root : NodeId := 0

def empty : Surface := ⟨#[⟨.element "root" Dict.empty, none, [], []⟩], #[]⟩

def node? (s : Surface) (id : NodeId) : Option LiveNode := s.nodes[id]?

def parent? (s : Surface) (id : NodeId) : Option NodeId := (s.node? id).bind LiveNode.parent

def children (s : Surface) (id : NodeId) : List NodeId :=
  match s.node? id with
  | some n => n.children
  | none => []

def tag? (s : Surface) (id : NodeId) : Option String :=
  match (s.node? id).map LiveNode.kind with
  | some (.element tag _) => some tag
  | _ => none

def attribute? (s : Surface) (id : NodeId) (name : String) : Option String :=
  match (s.node? id).map LiveNode.kind with
  | some (.element _ attrs) => attrs.get? name
  | _ => none

def listeners (s : Surface) (id : NodeId) : List Listener :=
  match s.node? id with
  | some n => n.listeners
  | none => []

def note (s : Surface) (op : Op) : Surface := { s with log := s.log.push op }

def clearLog (s : Surface) : Surface := { s with log := #[] }

def modify (s : Surface) (id : NodeId) (f : LiveNode → LiveNode) : Surface :=
  { s with nodes := s.nodes.modify id f }

def alloc (s : Surface) (kind : LiveKind) : NodeId × Surface :=
  (s.nodes.size, { s with nodes := s.nodes.push ⟨kind, none, [], []⟩ })

def createElement (s : Surface) (tag : String) : NodeId × Surface :=
  let (id, s) := s.alloc (.element tag Dict.empty)
  (id, s.note (.createElement id tag))

def createText (s : Surface) (text : String) : NodeId × Surface :=
  let (id, s) := s.alloc (.text text)
  (id, s.note (.createText id text))

def setAttribute (s : Surface) (id : NodeId) (name value : String) : Surface :=
  (s.modify id (·.mapAttrs (·.insert name value))).note (.setAttribute id name value)

def removeAttribute (s : Surface) (id : NodeId) (name : String) : Surface :=
  (s.modify id (·.mapAttrs (·.erase name))).note (.removeAttribute id name)

def setText (s : Surface) (id : NodeId) (text : String) : Surface :=
  (s.modify id (·.withText text)).note (.setText id text)

def detach (s : Surface) (child : NodeId) : Surface :=
  match s.parent? child with
  | none => s
  | some parent =>
    (s.modify parent fun n => { n with children := n.children.filter (· ≠ child) }).modify child
      fun n => { n with parent := none }

def insertInto (children : List NodeId) (child : NodeId) : Option NodeId → List NodeId
  | none => children ++ [child]
  | some before => children.takeWhile (· ≠ before) ++ child :: children.dropWhile (· ≠ before)

/-- Put a node under a parent in front of another child, or last. A node that has a parent is
taken away from it first. -/
def insertBefore (s : Surface) (parent child : NodeId) (before : Option NodeId) : Surface :=
  (((s.detach child).modify parent fun n =>
    { n with children := insertInto n.children child before }).modify child
      fun n => { n with parent := some parent }).note (.insert parent child before)

def append (s : Surface) (parent child : NodeId) : Surface := s.insertBefore parent child none

def removeChild (s : Surface) (parent child : NodeId) : Surface :=
  (if s.parent? child = some parent then s.detach child else s).note (.remove parent child)

def addListener (s : Surface) (id : NodeId) (l : Listener) : Surface :=
  (s.modify id fun n => { n with listeners := n.listeners ++ [l] }).note (.addListener id l.event)

def removeListener (s : Surface) (id : NodeId) (l : Listener) : Surface :=
  (s.modify id fun n => { n with listeners := n.listeners.filter (· ≠ l) }).note
    (.removeListener id l.event)

/-- The nodes of a subtree in document order, `levels` levels deep. -/
def inOrder (s : Surface) : Nat → NodeId → List NodeId
  | 0, _ => []
  | levels + 1, id => id :: (s.children id).flatMap (s.inOrder levels)

def lineage (s : Surface) : Nat → NodeId → List NodeId
  | 0, _ => []
  | levels + 1, id =>
    match s.node? id with
    | none => []
    | some n => id :: (n.parent.map (s.lineage levels)).getD []

def ownText (s : Surface) (id : NodeId) : String :=
  match (s.node? id).map LiveNode.kind with
  | some (.text text) => text
  | _ => ""

def textContent (s : Surface) (id : NodeId) : String :=
  String.join ((s.inOrder s.nodes.size id).map s.ownText)

/-- The loop of a search. It takes a node off a stack and ends there if that is the one wanted;
otherwise the children of the node go on the stack, the first one on top. -/
def search (s : Surface) (wanted : NodeId → Bool) : Nat → List NodeId → Option NodeId
  | 0, _ => none
  | _ + 1, [] => none
  | turns + 1, id :: stack =>
    if wanted id then some id else s.search wanted turns (s.children id ++ stack)

/-- The first element under the root, in document order, whose attribute has a value. -/
def find? (s : Surface) (name value : String) : Option NodeId :=
  s.search (fun id => s.attribute? id name = some value) s.nodes.size [root]

/-- The handlers that hear an event at a node: those that listen there, then those that listen at
its ancestors from the inside out. -/
def hearing (s : Surface) (target : NodeId) (event : String) : List HandlerId :=
  (s.lineage s.nodes.size target).flatMap fun id =>
    ((s.listeners id).filter (·.event = event)).map (·.handler)

end Surface

end ReactiveView
