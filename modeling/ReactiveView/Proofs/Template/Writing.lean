import ReactiveView.Proofs.Text.Trim
import ReactiveView.Template.Node
import ReactiveView.Template.Scan

namespace ReactiveView

/-- A text of parts with a separator between them, each part a run of characters that pass a
test. -/
def Segmented (separator : Char) (p : Char → Bool) (w : List Char) : Prop :=
  ∃ parts : List (List Char), parts ≠ [] ∧ (∀ part ∈ parts, part ≠ [] ∧ ∀ c ∈ part, p c = true) ∧
    w = [separator].intercalate parts

namespace NameClass

/-- The names of a class: `[a-z][a-z0-9]*(-[a-z0-9]+)*`, `[a-z][a-zA-Z0-9]+` and
`[A-Z][a-zA-Z0-9]+`. -/
def Spells : NameClass → List Char → Prop
  | kebab, w => startsWith Char.isLower w = true ∧ Segmented '-' isLowerOrDigit w
  | lowerCamel, w => ∃ c more, w = c :: more ∧ more ≠ [] ∧ c.isLower = true ∧
      ∀ x ∈ more, x.isAlphanum = true
  | upperCamel, w => ∃ c more, w = c :: more ∧ more ≠ [] ∧ c.isUpper = true ∧
      ∀ x ∈ more, x.isAlphanum = true

end NameClass

/-- The texts of references: `[a-zA-Z][a-zA-Z0-9]*(.[a-zA-Z0-9]+)*`. -/
def SpellsReference (w : List Char) : Prop :=
  startsWith Char.isAlpha w = true ∧ Segmented '.' Char.isAlphanum w

namespace TagKind

def nameClass : TagKind → NameClass
  | regular => .kebab
  | custom => .upperCamel
  | command => .lowerCamel

def sigil : TagKind → List Char
  | command => ['$']
  | _ => []

end TagKind

namespace AttrValue

inductive Quoted : AttrValue → List Char → Prop
  | literal {text : String} (h : '"' ∉ text.toList) :
      Quoted (literal text) ('"' :: text.toList ++ ['"'])
  | serial {reference : String} (h : SpellsReference reference.toList) :
      Quoted (serial reference) ('\x7b' :: reference.toList ++ ['\x7d'])

/-- The text of a value behind the name it belongs to. -/
inductive Written : AttrValue → List Char → Prop
  | empty : Written empty []
  | given {value : AttrValue} {u v w : List Char} (hu : Blank u) (hv : Blank v)
      (h : Quoted value w) : Written value (u ++ '=' :: v ++ w)

end AttrValue

/-- The text of attributes and props behind the name of a tag, each in their order, with white space
anywhere between them. It may end in a name; another name can follow only behind white space. -/
inductive WrittenBody (kind : TagKind) : List Attr → List Attr → Bool → List Char → Prop
  | nil : WrittenBody kind [] [] true []
  | space {attrs props : List Attr} {named : Bool} {w : List Char} {c : Char}
      (h : WrittenBody kind attrs props named w) (hc : isSpace c = true) :
      WrittenBody kind attrs props false (w ++ [c])
  | attr {attrs props : List Attr} {w u : List Char} {name : String} {value : AttrValue}
      (h : WrittenBody kind attrs props false w) (hn : NameClass.lowerCamel.Spells name.toList)
      (hv : value.Written u) :
      WrittenBody kind (attrs ++ [⟨name, value⟩]) props (decide (value = .empty))
        (w ++ (name.toList ++ u))
  | prop {attrs props : List Attr} {named : Bool} {w u : List Char} {name : String}
      {value : AttrValue} (h : WrittenBody kind attrs props named w) (hk : kind = .custom)
      (hn : NameClass.lowerCamel.Spells name.toList) (hne : value ≠ .empty) (hv : value.Written u) :
      WrittenBody kind attrs (props ++ [⟨name, value⟩]) false (w ++ '$' :: (name.toList ++ u))

inductive WrittenStart : TagKind → String → List Attr → List Attr → Bool → List Char → Prop
  | mk {kind : TagKind} {name : String} {attrs props : List Attr} {named : Bool} {u w : List Char}
      (hu : Blank u) (hn : kind.nameClass.Spells name.toList)
      (h : WrittenBody kind attrs props named w) :
      WrittenStart kind name attrs props named ('<' :: u ++ (kind.sigil ++ name.toList) ++ w)

inductive WrittenClose : TagKind → String → List Char → Prop
  | mk {kind : TagKind} {name : String} {u v x : List Char} (hu : Blank u) (hv : Blank v)
      (hx : Blank x) (hn : kind.nameClass.Spells name.toList) :
      WrittenClose kind name ('<' :: u ++ '/' :: v ++ (kind.sigil ++ name.toList) ++ x ++ ['>'])

namespace Node

/-- What a tag with attributes, props and children stands for. -/
inductive IsTag : Node → TagKind → String → List Attr → List Attr → List Node → Prop
  | element {tag : String} {attrs : List Attr} {children : List Node} :
      IsTag (element tag attrs children) .regular tag attrs [] children
  | custom {name : String} {attrs props : List Attr} {children : List Node} :
      IsTag (custom name attrs props children) .custom name attrs props children
  | map {binding : String} {children : List Node} :
      IsTag (command .map binding children) .command "map" [⟨"each", .serial binding⟩] [] children

def isLiteral : Node → Bool
  | literal _ => true
  | _ => false

def endsInLiteral (nodes : List Node) : Bool := (nodes.getLast?.map isLiteral).getD false

mutual

/-- The text of a node. The name in a closing tag is that of any tag. -/
inductive Written : Node → List Char → Prop
  | literal {text : String} (hne : text.toList ≠ []) (ht : trim text.toList = text.toList)
      (h : ∀ c ∈ text.toList, Scanner.isText c = true) : Written (literal text) text.toList
  | serial {reference : String} (h : SpellsReference reference.toList) :
      Written (serial reference) ('\x7b' :: reference.toList ++ ['\x7d'])
  | childless {node : Node} {kind : TagKind} {name : String} {attrs props : List Attr} {named : Bool}
      {w u : List Char} (ht : IsTag node kind name attrs props [])
      (hs : WrittenStart kind name attrs props named w) (hu : Blank u) :
      Written node (w ++ '/' :: u ++ ['>'])
  | paired {node : Node} {kind : TagKind} {name : String} {attrs props : List Attr} {named : Bool}
      {children : List Node} {closing : TagKind} {closingName : String} {w v u : List Char}
      (ht : IsTag node kind name attrs props children)
      (hs : WrittenStart kind name attrs props named w) (hc : WrittenAll children v)
      (he : WrittenClose closing closingName u) : Written node (w ++ '>' :: v ++ u)

/-- The text of nodes one after another, with white space anywhere between them. Two literal texts
cannot follow each other. -/
inductive WrittenAll : List Node → List Char → Prop
  | nil : WrittenAll [] []
  | space {nodes : List Node} {w : List Char} {c : Char} (h : WrittenAll nodes w)
      (hc : isSpace c = true) : WrittenAll nodes (w ++ [c])
  | node {nodes : List Node} {node : Node} {w v : List Char} (h : WrittenAll nodes w)
      (hn : Written node v) (hl : node.isLiteral = true → endsInLiteral nodes = false) :
      WrittenAll (nodes ++ [node]) (w ++ v)

end

end Node

def Template.Written (t : Template) (w : List Char) : Prop := Node.WrittenAll [t.root] w

end ReactiveView
