import ReactiveView.Json.Basic
import ReactiveView.Template.Node
import ReactiveView.Template.Token

namespace ReactiveView

def Phase.stored : Phase → String
  | start => "start"
  | finish => "end"

def TagKind.stored : TagKind → String
  | regular => "regular"
  | custom => "custom"
  | command => "command"

def ValueKind.stored : ValueKind → String
  | empty => "empty"
  | string => "string"
  | serial => "serial"

def AttrToken.fields (t : AttrToken) : List (String × Json) :=
  [("name", .str t.name), ("value_kind", .str t.kind.stored), ("value", Json.ofText? t.value)]

def Token.toJson : Token → Json
  | .tag t => .obj [("type", .str "tag"), ("name", .str t.name), ("kind", .str t.kind.stored),
      ("body", Json.ofText? (t.body.map Phase.stored)),
      ("children", Json.ofText? (t.children.map Phase.stored)), ("offset", .int t.offset)]
  | .attr t => .obj (("type", .str "attr") :: t.fields)
  | .prop t => .obj (("type", .str "prop") :: t.fields)
  | .text value => .obj [("type", .str "text"), ("value", .str value)]
  | .serial reference => .obj [("type", .str "serial"), ("value", .str reference)]

def AttrValue.toJson : AttrValue → Json
  | empty => .obj [("kind", .str "empty")]
  | literal text => .obj [("kind", .str "literal"), ("value", .str text)]
  | serial reference => .obj [("kind", .str "serial"), ("value", .str reference)]

def Attr.toJson (a : Attr) : Json := .obj [("name", .str a.name), ("value", a.value.toJson)]

def AttrValue.ofJson? (j : Json) : Option AttrValue := do
  let kind ← (← j.field? "kind").text?
  if kind = "empty" then some .empty
  else
    let value ← (← j.field? "value").text?
    if kind = "literal" then some (.literal value)
    else if kind = "serial" then some (.serial value)
    else none

def Attr.ofJson? (j : Json) : Option Attr := do
  let name ← (← j.field? "name").text?
  let value ← AttrValue.ofJson? (← j.field? "value")
  some ⟨name, value⟩

def Attr.list? (name : String) (j : Json) : Option (List Attr) := do
  (← (← j.field? name).items?).mapM Attr.ofJson?

namespace Node

mutual

def toJson : Node → Json
  | element tag attrs children => .obj [("type", .str "element"), ("tag", .str tag),
      ("attrs", .arr (attrs.map Attr.toJson)), ("children", .arr (toJsonAll children))]
  | custom name attrs props children => .obj [("type", .str "custom"), ("name", .str name),
      ("attrs", .arr (attrs.map Attr.toJson)), ("props", .arr (props.map Attr.toJson)),
      ("children", .arr (toJsonAll children))]
  | literal text => .obj [("type", .str "text"), ("kind", .str "literal"), ("value", .str text)]
  | serial reference =>
    .obj [("type", .str "text"), ("kind", .str "serial"), ("value", .str reference)]
  | command c binding children => .obj [("type", .str "command"),
      ("command", .str c.name), ("binding", .str binding),
      ("children", .arr (toJsonAll children))]

def toJsonAll : List Node → List Json
  | [] => []
  | node :: rest => node.toJson :: toJsonAll rest

end

def ofFields? (j : Json) (children : Option (List Node)) : Option Node := do
  let type ← (← j.field? "type").text?
  if type = "element" then
    some (.element (← (← j.field? "tag").text?) (← Attr.list? "attrs" j) (← children))
  else if type = "custom" then
    some (.custom (← (← j.field? "name").text?) (← Attr.list? "attrs" j) (← Attr.list? "props" j)
      (← children))
  else if type = "text" then
    let kind ← (← j.field? "kind").text?
    let value ← (← j.field? "value").text?
    if kind = "literal" then some (.literal value)
    else if kind = "serial" then some (.serial value)
    else none
  else if type = "command" then
    some (.command (← Command.ofName? (← (← j.field? "command").text?))
      (← (← j.field? "binding").text?) (← children))
  else none

mutual

def ofJson? : Json → Option Node
  | .obj fields => ofFields? (.obj fields) (childrenOf? fields)
  | _ => none

def childrenOf? : List (String × Json) → Option (List Node)
  | [] => none
  | (name, j) :: rest => if name = "children" then listOf? j else childrenOf? rest

def listOf? : Json → Option (List Node)
  | .arr items => allOf? items
  | _ => none

def allOf? : List Json → Option (List Node)
  | [] => some []
  | j :: rest => do
    let node ← ofJson? j
    let nodes ← allOf? rest
    some (node :: nodes)

end

end Node

def Template.toJson (t : Template) : Json := .obj [("root", t.root.toJson)]

def Template.ofJson? (j : Json) : Option Template := do
  let root ← Node.ofJson? (← j.field? "root")
  some ⟨root⟩

end ReactiveView
