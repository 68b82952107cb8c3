import ReactiveView.Dict
import ReactiveView.Event

namespace ReactiveView

abbrev NodeId := Nat

/-- What a fragment groups, which is what it is recognised by. -/
inductive FragmentKey where
  | component (id : String)
  | list (binding : String)
  | item (key : String)
  deriving DecidableEq, Repr

/-- A handler that listens to an event. The name of the event goes without `on`. -/
structure Listener where
  event : String
  handler : HandlerId
  deriving DecidableEq, Repr

/-- A node of a virtual tree. Elements and texts have counterparts on the surface, whose handles
they hold once they are painted; fragments group nodes and have none. -/
inductive VirtualNode where
  | element (tag : String) (attrs : Dict String) (listeners : List Listener)
      (children : List VirtualNode) (live : Option NodeId)
  | text (text : String) (live : Option NodeId)
  | fragment (key : FragmentKey) (shown : Bool) (children : List VirtualNode)

instance : Inhabited VirtualNode := ⟨.text "" none⟩

/-- A virtual tree. It is bound to the root of the surface when it is painted. -/
structure VirtualTree where
  children : List VirtualNode
  live : Option NodeId
  deriving Inhabited

namespace VirtualNode

def ofText (s : String) : VirtualNode := .text s none

def live? : VirtualNode → Option NodeId
  | element _ _ _ _ live => live
  | text _ live => live
  | fragment _ _ _ => none

def children : VirtualNode → List VirtualNode
  | element _ _ _ children _ => children
  | text _ _ => []
  | fragment _ _ children => children

def itemKey? : VirtualNode → Option String
  | fragment (.item key) _ _ => some key
  | _ => none

mutual

/-- The handles of a node, or those within it if it is a fragment, in document order. -/
def handles : VirtualNode → List NodeId
  | element _ _ _ _ live => live.toList
  | text _ live => live.toList
  | fragment _ _ children => flatten children

def flatten : List VirtualNode → List NodeId
  | [] => []
  | node :: rest => node.handles ++ flatten rest

end

end VirtualNode

namespace VirtualTree

def ofChildren (children : List VirtualNode) : VirtualTree := ⟨children, none⟩

def empty : VirtualTree := ofChildren []

end VirtualTree

end ReactiveView
