namespace ReactiveView

/-- A JSON value. Whole numbers written without point and exponent are kept exactly, and the fields
of an object stand as they are written. -/
inductive Json where
  | null
  | bool (b : Bool)
  | int (n : Int)
  | float (x : Float)
  | str (s : String)
  | arr (items : List Json)
  | obj (fields : List (String × Json))

namespace Json

def field? (name : String) : Json → Option Json
  | .obj fields => fields.lookup name
  | _ => none

def text? : Json → Option String
  | .str s => some s
  | _ => none

def items? : Json → Option (List Json)
  | .arr items => some items
  | _ => none

def ofText? : Option String → Json
  | some s => .str s
  | none => .null

mutual

def depth : Json → Nat
  | .arr items => depthAll items + 1
  | .obj fields => depthFields fields + 1
  | _ => 0

def depthAll : List Json → Nat
  | [] => 0
  | j :: rest => max j.depth (depthAll rest)

def depthFields : List (String × Json) → Nat
  | [] => 0
  | (_, j) :: rest => max j.depth (depthFields rest)

end

end Json

end ReactiveView
