import ReactiveView.Json.Basic
import ReactiveView.Value.Basic

namespace ReactiveView.Value

def maxInt : Nat := Nat.pow 2 63 - 1

/-- The value of a number of things; a number past the largest integer counts as that one. -/
def ofCount (n : Nat) : Value := .int (Int64.ofNat (min n maxInt))

def ofOption : Option Value → Value
  | some v => v
  | none => .null

def ofTexts (texts : List String) : Value := .list (texts.map .str)

mutual

/-- The value of a JSON value. A whole number outside the 64-bit integers becomes a float, and of
two fields with one name the later counts. -/
def ofJson : Json → Value
  | .null => .null
  | .bool b => .bool b
  | .int n =>
    if -(Nat.pow 2 63 : Int) ≤ n ∧ n < Nat.pow 2 63 then .int (Int64.ofInt n)
    else .float (Float.ofInt n)
  | .float x => .float x
  | .str s => .str s
  | .arr items => .list (ofJsonAll items)
  | .obj fields => ofPairs (ofJsonFields fields)

def ofJsonAll : List Json → List Value
  | [] => []
  | j :: rest => ofJson j :: ofJsonAll rest

def ofJsonFields : List (String × Json) → List (String × Value)
  | [] => []
  | (name, j) :: rest => (name, ofJson j) :: ofJsonFields rest

end

end ReactiveView.Value
