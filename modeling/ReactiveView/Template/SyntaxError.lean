import ReactiveView.Template.Node
import ReactiveView.Template.Token

namespace ReactiveView

inductive SyntaxError where
  | unknownCommand (name : String)
  /-- A command with attributes other than the one that names its list. -/
  | commandAttributes (command : Command)
  | openedInBody (name : String)
  /-- The end of a body without children, where no body is open. -/
  | strayBodyEnd (name : String)
  | strayChildrenStart (name : String)
  | unopenedClose (name : String)
  | invalidTransition (name : String) (body children : Option Phase)
  | attributeOutsideBody (name : String)
  | propOutsideCustomBody (name : String)
  | emptyProp (name : String)
  | missingValue (name : String) (kind : ValueKind)
  | textInBody (text : String)
  | referenceInBody (reference : String)
  | unclosedBody (name : String)
  | unclosedTag (name : String)
  | noRoot
  | severalRoots
  deriving DecidableEq, Repr

def Phase.label : Phase → String
  | start => "Start"
  | finish => "End"

def Phase.optionLabel : Option Phase → String
  | some p => "Some(" ++ p.label ++ ")"
  | none => "None"

def ValueKind.label : ValueKind → String
  | empty => "Empty"
  | string => "String"
  | serial => "Serial"

namespace SyntaxError

def reason : SyntaxError → String
  | unknownCommand name => "unknown command tag \"$" ++ name ++ "\""
  | commandAttributes command =>
    "command \"$" ++ command.name ++ "\" takes exactly one attribute: each=\x7blist\x7d"
  | openedInBody name => "tag \"" ++ name ++ "\" opened inside a tag body"
  | strayBodyEnd name => "\"/>\" without an open tag (" ++ name ++ ")"
  | strayChildrenStart name => "\">\" without an open tag (" ++ name ++ ")"
  | unopenedClose name => "closing tag \"" ++ name ++ "\" was never opened"
  | invalidTransition name body children =>
    "invalid tag transition for \"" ++ name ++ "\": body " ++ Phase.optionLabel body ++
      ", children " ++ Phase.optionLabel children
  | attributeOutsideBody name => "attribute \"" ++ name ++ "\" outside a tag body"
  | propOutsideCustomBody name => "prop \"$" ++ name ++ "\" outside a custom tag body"
  | emptyProp name => "prop \"$" ++ name ++ "\" needs a value"
  | missingValue name kind =>
    "attribute \"" ++ name ++ "\" declared " ++ kind.label ++ " without a value"
  | textInBody text => "text \"" ++ text ++ "\" inside a tag body"
  | referenceInBody reference => "reference \x7b" ++ reference ++ "\x7d inside a tag body"
  | unclosedBody name => "unclosed tag body \"" ++ name ++ "\""
  | unclosedTag name => "unclosed tag \"" ++ name ++ "\""
  | noRoot => "template is empty"
  | severalRoots => "template must have a single root node"

def message (e : SyntaxError) : String := "syntax error: " ++ e.reason

end SyntaxError

end ReactiveView
