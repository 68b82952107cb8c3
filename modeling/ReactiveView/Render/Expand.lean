import ReactiveView.Render.Component
import ReactiveView.Template.Cache
import ReactiveView.Text.Pieces
import ReactiveView.Tree.Basic

namespace ReactiveView

variable {ω : Type} {α : Type}

/-- A step of a pass, in which it changes buckets or describes a component. -/
inductive PassStep (ω : Type) where
  | load (key : Coordinate)
  | clean
  /-- Describe a component with the hooks of the active bucket. -/
  | describe (d : Describe ω (Except RenderError (Descriptor ω)))

structure PassState (ω : Type) where
  scope : Scope ω
  cache : Cache
  steps : List (PassStep ω)

/-- A part of a pass. What it changes on its way, hooks and compiled templates, stays changed when
it fails. -/
abbrev Pass (ω : Type) := ExceptT RenderError (StateM (PassState ω))

namespace Pass

def ofExcept (r : Except RenderError α) : Pass ω α := ExceptT.mk (pure r)

def load (key : Coordinate) : Pass ω Unit :=
  modify fun s =>
    { s with scope.registry := s.scope.registry.load key, steps := s.steps ++ [.load key] }

def clean : Pass ω Unit :=
  modify fun s =>
    { s with scope.registry := s.scope.registry.clean, steps := s.steps ++ [.clean] }

def describe (d : Describe ω (Except RenderError (Descriptor ω))) :
    Pass ω (Except RenderError (Descriptor ω)) :=
  modifyGet fun s =>
    let (result, scope) := d.run s.scope
    (result, { s with scope, steps := s.steps ++ [.describe d] })

def template (id source : String) (dynamic : Bool) : Pass ω Template := do
  let loaded ← modifyGet fun s =>
    let (loaded, cache) := s.cache.load id source dynamic
    (loaded, { s with cache })
  ofExcept (loaded.mapError (.template id))

end Pass

/-- Where a template is expanded: the component, how many components are around it, what it wants
to show, and the list items at hand, the innermost first. -/
structure Frame (ω : Type) where
  component : String
  depth : Nat
  descriptor : Descriptor ω
  contexts : List (String × Value)

namespace Frame

def enter (f : Frame ω) (context : String) (item : Value) : Frame ω :=
  { f with contexts := (context, item) :: f.contexts }

/-- What the first segment of a reference stands for: the innermost list item of that name, or
else what is attached. -/
def head? (f : Frame ω) (name : String) : Option (Binding ω) :=
  match f.contexts.lookup name with
  | some v => some (.value v)
  | none => f.descriptor.attached.get? name

def wrongKind (f : Frame ω) (reference : String) (expected : List BindingKind)
    (found : Binding ω) : RenderError :=
  .wrongKind f.component reference expected found.kind

/-- What a reference stands for. Behind its first segment each segment names a member. -/
def resolve (f : Frame ω) (reference : String) : Except RenderError (Binding ω) :=
  match splitAt '.' reference with
  | [] => .error (.missing f.component reference)
  | name :: members =>
    match f.head? name with
    | none => .error (.missing f.component reference)
    | some binding =>
      if members.isEmpty then .ok binding
      else match binding with
        | .value v =>
          match v.follow? members with
          | some member => .ok (.value member)
          | none => .error (.missing f.component reference)
        | _ => .error (f.wrongKind reference [.value] binding)

def value (f : Frame ω) (reference : String) : Except RenderError Value :=
  match f.resolve reference with
  | .error e => .error e
  | .ok (.value v) => .ok v
  | .ok found => .error (f.wrongKind reference [.value] found)

def items (f : Frame ω) (reference : String) : Except RenderError Repeat :=
  match f.resolve reference with
  | .error e => .error e
  | .ok (.items r) => .ok r
  | .ok found => .error (f.wrongKind reference [.items] found)

end Frame

/-- The event for which an attribute names a listener: `onClick` is for `click`. -/
def eventName? (attr : String) : Option String :=
  match attr.toList with
  | 'o' :: 'n' :: c :: rest =>
    if c.isUpper then some (String.ofList ((c :: rest).map Char.toLower)) else none
  | _ => none

structure ElementParts where
  attrs : Dict String
  listeners : List Listener

namespace ElementParts

def empty : ElementParts := ⟨Dict.empty, []⟩

def put (p : ElementParts) (name value : String) : ElementParts :=
  { p with attrs := p.attrs.insert name value }

/-- The parts with one more attribute of a template. One whose value has no form as an attribute
is left out. -/
def add (f : Frame ω) (p : ElementParts) (a : Attr) : Except RenderError ElementParts :=
  match a.value with
  | .empty => .ok (p.put a.name "")
  | .literal text => .ok (p.put a.name text)
  | .serial reference =>
    match f.resolve reference with
    | .error e => .error e
    | .ok (.callback handler) =>
      match eventName? a.name with
      | some event => .ok { p with listeners := p.listeners ++ [⟨event, handler.id⟩] }
      | none => .error (f.wrongKind reference [.value] (.callback handler))
    | .ok (.value v) =>
      match v.attribute? with
      | some text => .ok (p.put a.name text)
      | none => .ok p
    | .ok (.items r) => .error (f.wrongKind reference [.value, .callback] (.items r))

end ElementParts

/-- The prop that decides whether a component is shown; the component does not see it. -/
def shownProp : String := "shouldRender"

/-- What an attribute or prop hands to a component; one without a value hands it `true`. -/
def Frame.handed (f : Frame ω) (a : Attr) : Except RenderError (Binding ω) :=
  match a.value with
  | .empty => .ok (.value (.bool true))
  | .literal text => .ok (.value (.str text))
  | .serial reference => f.resolve reference

def Frame.handedAll (f : Frame ω) (attrs : List Attr) : Except RenderError (Bindings ω) :=
  attrs.foldlM (fun (props : Bindings ω) a => (f.handed a).map (props.insert a.name)) Dict.empty

abbrev Mount (ω : Type) := String → Bindings ω → Pass ω VirtualNode

/-- A use of a component. One that is not shown loses what its hooks keep. -/
def Frame.use (f : Frame ω) (library : Library ω) (mount : Mount ω) (name : String)
    (handed : List Attr) : Pass ω VirtualNode := do
  match f.descriptor.import? library name with
  | none => throw (.unknownComponent f.component name)
  | some key =>
    let props ← Pass.ofExcept (f.handedAll handed)
    let shown := ((props.get? shownProp).map Binding.truthy).getD true
    if shown then mount key (props.erase shownProp)
    else
      let id := (library key).id
      Pass.load ⟨id, f.depth + 1⟩
      Pass.clean
      return .fragment (.component id) false []

mutual

/-- Expand a node of a template. The children of a component are left out. -/
def Node.expand (library : Library ω) (mount : Mount ω) (f : Frame ω) :
    Node → Pass ω VirtualNode
  | .element tag attrs children => do
    let parts ← Pass.ofExcept (attrs.foldlM (ElementParts.add f) ElementParts.empty)
    let nodes ← Node.expandAll library mount f children
    return .element tag parts.attrs parts.listeners nodes none
  | .custom name attrs props _ => f.use library mount name (attrs ++ props)
  | .literal text => return .ofText text
  | .serial reference => do
    let v ← Pass.ofExcept (f.value reference)
    return .ofText v.text
  | .command .map binding children => do
    let r ← Pass.ofExcept (f.items binding)
    let nodes ← r.items.zipIdx.mapM fun (item, position) => do
      let nodes ← Node.expandAll library mount (f.enter r.context item) children
      return VirtualNode.fragment (.item (r.keyOf position item)) true nodes
    return .fragment (.list binding) true nodes

def Node.expandAll (library : Library ω) (mount : Mount ω) (f : Frame ω) :
    List Node → Pass ω (List VirtualNode)
  | [] => return []
  | node :: rest => do
    let first ← node.expand library mount f
    let others ← Node.expandAll library mount f rest
    return first :: others

end

/-- Describe a component and expand its template; `levels` bounds how many components stand
inside one another from here on. -/
def Library.mount (library : Library ω) (levels depth : Nat) (key : String)
    (props : Bindings ω) : Pass ω VirtualNode :=
  match levels with
  | 0 => throw (.tooDeep (library key).id)
  | levels + 1 => do
    let component := library key
    Pass.load ⟨component.id, depth⟩
    let descriptor ← Pass.ofExcept (← Pass.describe (component.describe props))
    let template ← Pass.template component.id descriptor.template descriptor.dynamic
    let root ← template.root.expand library (Library.mount library levels (depth + 1))
      ⟨component.id, depth, descriptor, []⟩
    return .fragment (.component component.id) true [root]

end ReactiveView
