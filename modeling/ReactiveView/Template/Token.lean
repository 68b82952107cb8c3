namespace ReactiveView

/-- One of the two ends of a region of a tag. -/
inductive Phase where
  | start
  | finish
  deriving DecidableEq, Repr

inductive TagKind where
  /-- A kebab-case name: an element. -/
  | regular
  /-- An upper camel case name: a component. -/
  | custom
  /-- A name after a dollar sign: a command. -/
  | command
  deriving DecidableEq, Repr

/-- One step of a tag: which ends of its body and of its children it marks. The step `<name` starts
the body, `/>` ends the body of a tag without children, `>` ends the body and starts the children,
and `</name>` ends them. -/
structure TagToken where
  name : String
  kind : TagKind
  body : Option Phase
  children : Option Phase
  /-- Where the step starts in the source, in bytes of UTF-8. -/
  offset : Nat
  deriving DecidableEq, Repr

inductive ValueKind where
  | empty
  | string
  | serial
  deriving DecidableEq, Repr

structure AttrToken where
  name : String
  kind : ValueKind
  value : Option String
  deriving DecidableEq, Repr

inductive Token where
  | tag (tag : TagToken)
  | attr (attr : AttrToken)
  | prop (prop : AttrToken)
  | text (value : String)
  | serial (reference : String)
  deriving DecidableEq, Repr

end ReactiveView
