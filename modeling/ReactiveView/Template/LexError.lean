import ReactiveView.Template.Name

namespace ReactiveView

inductive Expectation where
  | char (c : Char)
  | value
  | name (nameClass : NameClass)
  deriving DecidableEq, Repr

inductive LexErrorKind where
  /-- Something else stands where a character, a value or a name is required. -/
  | expected (what : Expectation) (found : Option Char)
  | invalidName (nameClass : NameClass) (word : String)
  | invalidReference (text : String)
  /-- A prop in the body of a tag that is no component. -/
  | propOutsideCustomTag (name : String)
  | emptyProp (name : String)
  | unopenedClose (name : String)
  | unclosedBody (name : String)
  /-- The template ends inside the children of a tag. -/
  | unclosedChildren (name : String)
  | unexpected (c : Char)
  /-- The template ends before the character that closes a value. -/
  | unexpectedEnd (closing : Char)
  deriving DecidableEq, Repr

structure LexFault where
  kind : LexErrorKind
  offset : Nat
  deriving DecidableEq, Repr

/-- What is wrong, with the place: the line and the column count from 1, the column in
characters. -/
structure LexError where
  kind : LexErrorKind
  offset : Nat
  line : Nat
  column : Nat
  deriving DecidableEq, Repr

def width (cs : List Char) : Nat := cs.foldr (fun c n => c.utf8Size + n) 0

def textBefore (offset : Nat) : List Char → List Char
  | [] => []
  | c :: rest => if offset = 0 then [] else c :: textBefore (offset - c.utf8Size) rest

def lineAfter (cs : List Char) : Nat := cs.count '\n' + 1

def columnAfter (cs : List Char) : Nat := (cs.reverse.takeWhile (· != '\n')).length + 1

def LexFault.locate (source : List Char) (fault : LexFault) : LexError :=
  let before := textBefore fault.offset source
  ⟨fault.kind, fault.offset, lineAfter before, columnAfter before⟩

def quoted (c : Char) : String := String.ofList ['\'', c, '\'']

def Expectation.label : Expectation → String
  | char c => quoted c
  | value => quoted '\x7b' ++ " or " ++ quoted '"'
  | name nameClass => nameClass.label

def LexErrorKind.message : LexErrorKind → String
  | expected what (some c) => "expected " ++ what.label ++ ", found " ++ quoted c
  | expected what none => "expected " ++ what.label ++ ", found end of input"
  | invalidName nameClass word => "invalid " ++ nameClass.label ++ " name \"" ++ word ++ "\""
  | invalidReference text => "invalid reference \"\x7b" ++ text ++ "\x7d\""
  | propOutsideCustomTag name =>
    "prop \"$" ++ name ++ "\" is only allowed inside a custom tag's body"
  | emptyProp name => "prop \"$" ++ name ++ "\" needs a value"
  | unopenedClose name => "closing tag \"" ++ name ++ "\" was never opened"
  | unclosedBody name => "unclosed body of tag \"" ++ name ++ "\", add \">\" or \"/>\""
  | unclosedChildren name => "unclosed children of tag \"" ++ name ++ "\", add a closing tag"
  | unexpected c => "unexpected " ++ quoted c
  | unexpectedEnd closing => "unexpected end of input, expected " ++ quoted closing

def LexError.message (e : LexError) : String :=
  e.kind.message ++ " at " ++ toString e.line ++ ":" ++ toString e.column

end ReactiveView
