import ReactiveView.Dict
import ReactiveView.Json.Printer
import ReactiveView.Json.Reader
import ReactiveView.Template.Parse
import ReactiveView.Template.Stored

namespace ReactiveView

def Template.stored (t : Template) : String := t.toJson.line

def Template.ofStored? (s : String) : Option Template := (Json.read? s).bind Template.ofJson?

/-- A cache of compiled templates under the names of components, kept as JSON text that is read
again whenever a template is asked for. A template whose text nests more containers than the reader
allows is kept all the same. A disabled cache keeps nothing. -/
structure Cache where
  entries : Dict String
  enabled : Bool
  deriving DecidableEq

namespace Cache

def empty : Cache := ⟨Dict.empty, true⟩

def disabled : Cache := ⟨Dict.empty, false⟩

def get (c : Cache) (id : String) : Except TemplateError (Option Template) :=
  match c.entries.get? id with
  | none => .ok none
  | some text =>
    match Template.ofStored? text with
    | some t => .ok (some t)
    | none => .error (.corrupt id)

def insert (c : Cache) (id : String) (t : Template) : Cache :=
  if c.enabled then { c with entries := c.entries.insert id t.stored } else c

/-- The template under a name or else the one that the source writes, which is then kept. A
dynamic template is compiled every time and never kept. -/
def load (c : Cache) (id source : String) (dynamic : Bool) :
    Except TemplateError Template × Cache :=
  if dynamic || !c.enabled then (compile source, c)
  else match c.get id with
    | .error e => (.error e, c)
    | .ok (some t) => (.ok t, c)
    | .ok none =>
      match compile source with
      | .error e => (.error e, c)
      | .ok t => (.ok t, c.insert id t)

def contains (c : Cache) (id : String) : Bool := c.entries.contains id

def size (c : Cache) : Nat := c.entries.size

def isEmpty (c : Cache) : Bool := c.entries.isEmpty

def clear (c : Cache) : Cache := { c with entries := Dict.empty }

end Cache

end ReactiveView
