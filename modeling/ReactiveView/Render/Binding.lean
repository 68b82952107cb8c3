import ReactiveView.Dict
import ReactiveView.Hook.Program

namespace ReactiveView

variable {ω : Type}

structure Repeat where
  items : List Value
  context : String
  /-- The member by which the items are told apart; without it they are by their position. -/
  key : Option String

/-- What the item at a position is recognised by from one pass to the next. -/
def Repeat.keyOf (r : Repeat) (position : Nat) (item : Value) : String :=
  match r.key.bind item.member? with
  | some v => v.text
  | none => toString position

inductive Binding (ω : Type) where
  | value (v : Value)
  | callback (handler : Handler ω)
  | items (r : Repeat)

inductive BindingKind where
  | value
  | callback
  | items
  deriving DecidableEq, Repr

def BindingKind.label : BindingKind → String
  | value => "value"
  | callback => "callback"
  | items => "repeat"

namespace Binding

def kind : Binding ω → BindingKind
  | value _ => .value
  | callback _ => .callback
  | items _ => .items

/-- Whether a binding counts as true: callbacks do, lists when they have items. -/
def truthy : Binding ω → Bool
  | value v => v.truthy
  | callback _ => true
  | items r => !r.items.isEmpty

def value? : Binding ω → Option Value
  | value v => some v
  | _ => none

def handler? : Binding ω → Option (Handler ω)
  | callback h => some h
  | _ => none

end Binding

abbrev Bindings (ω : Type) := Dict (Binding ω)

end ReactiveView
