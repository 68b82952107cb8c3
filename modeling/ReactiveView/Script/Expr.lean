import ReactiveView.Hook.Program
import ReactiveView.Render.Binding

namespace ReactiveView.Script

/-- The names of one description. A name that is declared again stands for what it was declared as
last. Every program that is made during a description reads its names, also those that are declared
after it. -/
structure Names where
  /-- Each state with the value that the description saw. -/
  states : Dict (Value × Setter)
  refs : Dict Ref

def Names.empty : Names := ⟨Dict.empty, Dict.empty⟩

structure Host where
  /-- The values that scripts read and write outside of the components. -/
  env : Dict Value
  log : List Value
  descriptions : Array Names
  shared : Dict HandlerId

namespace Host

def start (env : Dict Value) : Host := ⟨env, [], #[], Dict.empty⟩

def note (h : Host) (v : Value) : Host := { h with log := h.log ++ [v] }

def setEnv (h : Host) (name : String) (v : Value) : Host := { h with env := h.env.insert name v }

def names (h : Host) (description : Nat) : Names := h.descriptions[description]?.getD Names.empty

def declare (h : Host) (description : Nat) (f : Names → Names) : Host :=
  { h with descriptions := h.descriptions.modify description f }

def begin (h : Host) : Host := { h with descriptions := h.descriptions.push Names.empty }

def share (h : Host) (key : String) (id : HandlerId) : Host :=
  { h with shared := h.shared.insert key id }

end Host

/-- Where an expression stands: in which description, with what the component around it hands to
the component, and in answer to which event. -/
structure Site where
  description : Nat
  props : Bindings Host
  event : Option Event

namespace Site

def state? (site : Site) (v : View Host) (name : String) : Option (Value × Setter) :=
  (v.host.names site.description).states.get? name

def ref? (site : Site) (v : View Host) (name : String) : Option Ref :=
  (v.host.names site.description).refs.get? name

def handler? (site : Site) (name : String) : Option (Handler Host) :=
  (site.props.get? name).bind Binding.handler?

end Site

/-- An expression. A name that stands for nothing has the value null. -/
inductive Expr where
  | lit (v : Value)
  | state (name : String)
  | live (name : String)
  | ref (name : String)
  | prop (name : String)
  | hears (name : String)
  | env (name : String)
  | propKinds
  | propCount
  | noProps
  | detail
  | event
  | not (e : Expr)
  | add (e : Expr) (n : Int64)
  | concat (es : List Expr)

namespace Expr

instance : Inhabited Expr := ⟨.lit .null⟩

mutual

def eval (site : Site) (v : View Host) : Expr → Value
  | .lit value => value
  | .state name => Value.ofOption ((site.state? v name).map (·.1))
  | .live name => Value.ofOption ((site.state? v name).map fun s => (v.cells.read s.2.cell).toValue)
  | .ref name => Value.ofOption ((site.ref? v name).map fun r => (v.cells.read r.cell).toValue)
  | .prop name => Value.ofOption ((site.props.get? name).bind Binding.value?)
  | .hears name => .bool (site.handler? name).isSome
  | .env name => Value.ofOption (v.host.env.get? name)
  | .propKinds => Value.record (site.props.map fun b => .str b.kind.label)
  | .propCount => Value.ofCount site.props.size
  | .noProps => .bool site.props.isEmpty
  | .detail => Value.ofOption (site.event.map Event.detail)
  | .event => Value.ofOption (site.event.map fun e => .str e.name)
  | .not e => .bool !(e.eval site v).truthy
  | .add e n => (e.eval site v).add n
  | .concat es => .str (String.join (texts site v es))

def texts (site : Site) (v : View Host) : List Expr → List String
  | [] => []
  | e :: rest => (e.eval site v).text :: texts site v rest

end

end Expr

end ReactiveView.Script
