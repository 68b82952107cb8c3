import ReactiveView.Template.Scan
import ReactiveView.Template.SyntaxError

namespace ReactiveView

/-- A tag whose body or whose children are open, with what has been read of it. -/
structure PendingTag where
  name : String
  kind : TagKind
  attrs : List Attr
  props : List Attr
  children : List Node

namespace PendingTag

def ofToken (t : TagToken) : PendingTag := ⟨t.name, t.kind, [], [], []⟩

def binding? (attrs : List Attr) : Option String :=
  match attrs with
  | [⟨name, .serial binding⟩] => if name = "each" then some binding else none
  | _ => none

def node (p : PendingTag) : Except SyntaxError Node :=
  match p.kind with
  | .regular => .ok (.element p.name p.attrs p.children)
  | .custom => .ok (.custom p.name p.attrs p.props p.children)
  | .command =>
    match Command.ofName? p.name with
    | none => .error (.unknownCommand p.name)
    | some command =>
      match binding? p.attrs with
      | some binding => .ok (.command command binding p.children)
      | none => .error (.commandAttributes command)

end PendingTag

/-- The attribute of a token. The value of an attribute that is written without one does not
count. -/
def AttrToken.attr (t : AttrToken) : Except SyntaxError Attr :=
  match t.kind, t.value with
  | .empty, _ => .ok ⟨t.name, .empty⟩
  | .string, some text => .ok ⟨t.name, .literal text⟩
  | .serial, some reference => .ok ⟨t.name, .serial reference⟩
  | kind, none => .error (.missingValue t.name kind)

/-- What is open, and the nodes that stand in no tag. A closing tag closes the innermost open tag,
whatever its name. -/
structure Builder where
  body : Option PendingTag
  /-- The tags whose children are open, the innermost first. -/
  opened : List PendingTag
  roots : List Node

namespace Builder

def empty : Builder := ⟨none, [], []⟩

def push (b : Builder) (n : Node) : Builder :=
  match b.opened with
  | [] => { b with roots := b.roots ++ [n] }
  | p :: rest => { b with opened := { p with children := p.children ++ [n] } :: rest }

def tag (b : Builder) (t : TagToken) : Except SyntaxError Builder :=
  match t.body, t.children with
  | some .start, none =>
    match b.body with
    | some _ => .error (.openedInBody t.name)
    | none => .ok { b with body := some (PendingTag.ofToken t) }
  | some .finish, none =>
    match b.body with
    | none => .error (.strayBodyEnd t.name)
    | some p => p.node.map ({ b with body := none } : Builder).push
  | some .finish, some .start =>
    match b.body with
    | none => .error (.strayChildrenStart t.name)
    | some p => .ok { b with body := none, opened := p :: b.opened }
  | none, some .finish =>
    match b.opened with
    | [] => .error (.unopenedClose t.name)
    | p :: rest => p.node.map ({ b with opened := rest } : Builder).push
  | body, children => .error (.invalidTransition t.name body children)

def attr (b : Builder) (t : AttrToken) : Except SyntaxError Builder :=
  match b.body with
  | none => .error (.attributeOutsideBody t.name)
  | some p => t.attr.map fun a => { b with body := some { p with attrs := p.attrs ++ [a] } }

def prop (b : Builder) (t : AttrToken) : Except SyntaxError Builder :=
  match b.body with
  | none => .error (.propOutsideCustomBody t.name)
  | some p =>
    if p.kind ≠ .custom then .error (.propOutsideCustomBody t.name)
    else if t.kind = .empty then .error (.emptyProp t.name)
    else t.attr.map fun a => { b with body := some { p with props := p.props ++ [a] } }

def text (b : Builder) (value : String) : Except SyntaxError Builder :=
  if b.body.isSome then .error (.textInBody value)
  else if value = "" then .ok b
  else .ok (b.push (.literal value))

def serial (b : Builder) (reference : String) : Except SyntaxError Builder :=
  if b.body.isSome then .error (.referenceInBody reference)
  else .ok (b.push (.serial reference))

def token (b : Builder) : Token → Except SyntaxError Builder
  | .tag t => b.tag t
  | .attr t => b.attr t
  | .prop t => b.prop t
  | .text value => b.text value
  | .serial reference => b.serial reference

/-- At the end nothing is open and exactly one node stands outside of all tags. -/
def template (b : Builder) : Except SyntaxError Template :=
  match b.body, b.opened, b.roots with
  | some p, _, _ => .error (.unclosedBody p.name)
  | none, p :: _, _ => .error (.unclosedTag p.name)
  | none, [], [] => .error .noRoot
  | none, [], [root] => .ok ⟨root⟩
  | none, [], _ => .error .severalRoots

end Builder

def parse (tokens : List Token) : Except SyntaxError Template :=
  tokens.foldlM Builder.token Builder.empty >>= Builder.template

inductive TemplateError where
  | lex (e : LexError)
  | invalid (e : SyntaxError)
  /-- The stored form of a template cannot be read back. -/
  | corrupt (id : String)
  deriving DecidableEq, Repr

def TemplateError.message : TemplateError → String
  | lex e => e.message
  | invalid e => e.message
  | corrupt id => "template cache entry for \"" ++ id ++ "\" is corrupt"

def compile (source : String) : Except TemplateError Template :=
  match tokenize source with
  | .error e => .error (.lex e)
  | .ok tokens => (parse tokens).mapError .invalid

end ReactiveView
