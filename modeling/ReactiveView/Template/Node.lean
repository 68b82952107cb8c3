namespace ReactiveView

inductive AttrValue where
  | empty
  | literal (text : String)
  /-- A reference that is resolved when the template is expanded. -/
  | serial (reference : String)
  deriving DecidableEq, Repr

structure Attr where
  name : String
  value : AttrValue
  deriving DecidableEq, Repr

inductive Command where
  | map
  deriving DecidableEq, Repr

namespace Command

def name : Command → String
  | map => "map"

def ofName? (name : String) : Option Command :=
  if name = "map" then some map else none

end Command

inductive Node where
  | element (tag : String) (attrs : List Attr) (children : List Node)
  | custom (name : String) (attrs props : List Attr) (children : List Node)
  | literal (text : String)
  | serial (reference : String)
  | command (command : Command) (binding : String) (children : List Node)
  deriving Repr

instance : Inhabited Node := ⟨.literal ""⟩

structure Template where
  root : Node
  deriving Repr, Inhabited

def Attr.reference? (a : Attr) : Option String :=
  match a.value with
  | .serial reference => some reference
  | _ => none

namespace Node

mutual

/-- The references that a node reads, in document order; those of a component's attributes come
before those of its props. -/
def references : Node → List String
  | element _ attrs children => attrs.filterMap Attr.reference? ++ referencesAll children
  | custom _ attrs props children =>
    attrs.filterMap Attr.reference? ++ props.filterMap Attr.reference? ++ referencesAll children
  | literal _ => []
  | serial reference => [reference]
  | command _ binding children => binding :: referencesAll children

def referencesAll : List Node → List String
  | [] => []
  | node :: rest => node.references ++ referencesAll rest

end

end Node

def Template.references (t : Template) : List String := t.root.references

end ReactiveView
