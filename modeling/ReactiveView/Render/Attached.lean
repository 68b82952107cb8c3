import ReactiveView.Json.Reader
import ReactiveView.Render.Binding
import ReactiveView.Value.Convert

namespace ReactiveView

variable {ω : Type}

inductive AttachError where
  | notJson
  | notObject
  /-- `$each` is not a list. -/
  | itemsNotList (name : String)
  /-- `as` does not name the item at hand. -/
  | noContext (name : String)
  deriving DecidableEq, Repr

def AttachError.message : AttachError → String
  | notJson => "--attach is not valid JSON"
  | notObject => "--attach must be a JSON object"
  | itemsNotList name => "binding `" ++ name ++ "`: \"$each\" must be an array"
  | noContext name => "binding `" ++ name ++ "`: \"as\" must name the item context"

def Repeat.ofMembers (name : String) (members : Dict Json) : Except AttachError Repeat :=
  match (members.get? "$each").bind Json.items? with
  | none => .error (.itemsNotList name)
  | some items =>
    match (members.get? "as").bind Json.text? with
    | none => .error (.noContext name)
    | some context =>
      .ok ⟨items.map Value.ofJson, context, (members.get? "key").bind Json.text?⟩

def Binding.ofJson (name : String) (j : Json) : Except AttachError (Binding ω) :=
  match j with
  | .obj fields =>
    let members := Dict.ofList fields
    if members.contains "$each" then (Repeat.ofMembers name members).map .items
    else .ok (.value (Value.ofJson j))
  | _ => .ok (.value (Value.ofJson j))

/-- Entries are read in the order of their names, and the first one that cannot be read decides the
error. -/
def Bindings.read (text : String) : Except AttachError (Bindings ω) :=
  match Json.read? text with
  | none => .error .notJson
  | some (.obj fields) =>
    (Dict.ofList fields).entries.foldlM
      (fun (bindings : Bindings ω) e => (Binding.ofJson e.1 e.2).map (bindings.insert e.1))
      Dict.empty
  | some _ => .error .notObject

end ReactiveView
