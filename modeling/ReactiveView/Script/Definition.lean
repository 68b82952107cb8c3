import ReactiveView.Render.Component
import ReactiveView.Script.Act

namespace ReactiveView.Script

inductive HookBody where
  | state (name : String) (initial : Expr)
  | ref (name : String) (initial : Expr)
  | effect (deps : Expr) (acts : List Act)
  | effectAsync (deps : Expr) (acts : List Act)
  | now (acts : List Act)

/-- A hook, which may depend on a condition. -/
structure Hook where
  condition : Option Expr
  body : HookBody

inductive Attachment where
  | value (e : Expr)
  /-- A handler. With a key it is made once and used again from then on, with the names of the
  description in which it was made. -/
  | callback (acts : List Act) (key : Option String)
  /-- A list; a value that is none has no items. -/
  | items (e : Expr) (context : String) (key : Option String)
  /-- What is handed to the component under a name, if anything. -/
  | forward (prop : String)

structure Refusal where
  condition : Option Expr
  reason : Expr
  /-- The component at which the error arises, if it is another one. -/
  component : Option String

structure Definition where
  id : String
  template : Expr
  dynamic : Bool
  imports : List String
  hooks : List Hook
  refusal : Option Refusal
  attachments : Dict Attachment

/-- Whether a condition holds; one that is not there does. -/
def Site.holds (site : Site) (v : View Host) (condition : Option Expr) : Bool :=
  match condition with
  | some e => (e.eval site v).truthy
  | none => true

variable {α : Type}

def altering (change : Host → Host) (next : Describe Host α) : Describe Host α :=
  .act (.alter change .done) next

def Site.declaring (site : Site) (f : Names → Names) (next : Describe Host α) : Describe Host α :=
  altering (·.declare site.description f) next

def HookBody.call (site : Site) (body : HookBody) (next : Describe Host α) : Describe Host α :=
  .look fun v =>
    match body with
    | .state name initial =>
      .state (.value (initial.eval site v)) fun content setter =>
        site.declaring
          (fun ns => { ns with states := ns.states.insert name (content.toValue, setter) }) next
    | .ref name initial =>
      .ref (.value (initial.eval site v)) fun ref =>
        site.declaring (fun ns => { ns with refs := ns.refs.insert name ref }) next
    | .effect deps acts => .effect (deps.eval site v) (Act.program .sync site acts) next
    | .effectAsync deps acts => .effectAsync (deps.eval site v) (Act.program .async site acts) next
    | .now acts => .act (Act.program .sync site acts) next

def Hook.call (site : Site) (hook : Hook) (next : Describe Host α) : Describe Host α :=
  .look fun v => if site.holds v hook.condition then hook.body.call site next else next

def Site.reaction (site : Site) (acts : List Act) : Reaction Host := fun event =>
  Act.program .sync { site with event := some event } acts

def Attachment.make (site : Site) (a : Attachment)
    (next : Option (Binding Host) → Describe Host α) : Describe Host α :=
  .look fun v =>
    match a with
    | .value e => next (some (.value (e.eval site v)))
    | .items e context key =>
      next (some (.items ⟨((e.eval site v).list?).getD [], context, key⟩))
    | .forward prop => next (site.props.get? prop)
    | .callback acts none =>
      .handler (site.reaction acts) fun h => next (some (.callback h))
    | .callback acts (some key) =>
      match v.host.shared.get? key with
      | some id => .reuse id fun h => next (h.map .callback)
      | none => .handler (site.reaction acts) fun h =>
          altering (·.share key h.id) (next (some (.callback h)))

def Attachment.makeAll (site : Site) (next : Bindings Host → Describe Host α) :
    List (String × Attachment) → Bindings Host → Describe Host α
  | [], made => next made
  | (name, a) :: rest, made =>
    a.make site fun
      | some binding => makeAll site next rest (made.insert name binding)
      | none => makeAll site next rest made

namespace Definition

/-- The definition that says nothing, for a component that is not defined. -/
def blank (id : String) : Definition := ⟨id, .lit .null, false, [], [], none, Dict.empty⟩

def refusal? (d : Definition) (site : Site) (v : View Host) : Option RenderError :=
  match d.refusal with
  | none => none
  | some r =>
    if site.holds v r.condition then
      some (.failed (r.component.getD d.id) (r.reason.eval site v).text)
    else none

def result (d : Definition) (site : Site) :
    Describe Host (Except RenderError (Descriptor Host)) :=
  .look fun v =>
    match d.refusal? site v with
    | some e => .done (.error e)
    | none =>
      Attachment.makeAll site (fun attached => .look fun v =>
        .done (.ok ⟨d.imports, (d.template.eval site v).text, attached, d.dynamic⟩))
        d.attachments.entries Dict.empty

/-- To describe a scripted component is to note its name, call its hooks, see whether it fails, and
attach its bindings in the order of their names. -/
def component (d : Definition) : Component Host where
  id := d.id
  describe := fun props => .look fun v =>
    let site : Site := ⟨v.host.descriptions.size, props, none⟩
    altering (fun h => (h.note (.str ("describe " ++ d.id))).begin)
      (d.hooks.foldr (Hook.call site) (d.result site))

end Definition

def library (definitions : Dict Definition) : Library Host := fun key =>
  ((definitions.get? key).getD (Definition.blank key)).component

end ReactiveView.Script
