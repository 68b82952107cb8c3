import ReactiveView.Value.Basic

namespace ReactiveView

/-- An event that reaches a listener. The name goes without `on`. -/
structure Event where
  name : String
  detail : Value

/-- The identity of a handler. Two handlers made apart are different handlers, whatever they
do. -/
abbrev HandlerId := Nat

end ReactiveView
