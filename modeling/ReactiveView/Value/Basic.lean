import ReactiveView.Decimal.Positional
import ReactiveView.Dict

namespace ReactiveView

/-- A value. The fields of a record stand in key order, as `Value.record` puts them. -/
inductive Value where
  | null
  | bool (b : Bool)
  | int (n : Int64)
  | float (x : Float)
  | str (s : String)
  | list (items : List Value)
  | map (fields : List (String × Value))

namespace Value

instance : Inhabited Value := ⟨.null⟩

def record (fields : Dict Value) : Value := .map fields.entries

def ofPairs (pairs : List (String × Value)) : Value := record (Dict.ofList pairs)

mutual

/-- The text of a value: nothing for null, the items of a list with commas between them, the
fields of a record in braces. -/
def text : Value → String
  | .null => ""
  | .bool b => if b then "true" else "false"
  | .int n => toString n.toInt
  | .float x => Decimal.text x
  | .str s => s
  | .list items => ",".intercalate (texts items)
  | .map fields => "\x7b" ++ ", ".intercalate (fieldTexts fields) ++ "\x7d"

def texts : List Value → List String
  | [] => []
  | v :: rest => text v :: texts rest

def fieldTexts : List (String × Value) → List String
  | [] => []
  | (name, v) :: rest => (name ++ ": " ++ text v) :: fieldTexts rest

end

/-- Whether a value counts as true. Lists and records do even when they are empty. -/
def truthy : Value → Bool
  | .null => false
  | .bool b => b
  | .int n => n != 0
  | .float x => x != 0.0 && !x.isNaN
  | .str s => !s.isEmpty
  | .list _ => true
  | .map _ => true

def attribute? : Value → Option String
  | .null => none
  | .bool b => if b then some "" else none
  | v => some v.text

/-- A list index: digits, perhaps after a plus sign, below 2^64. -/
def index? (segment : String) : Option Nat :=
  let digits : List Char := match segment.toList with
    | '+' :: rest => rest
    | cs => cs
  let n : Nat := digits.foldl (fun n c => n * 10 + (c.toNat - '0'.toNat)) 0
  if digits ≠ [] ∧ digits.all Char.isDigit ∧ n < Nat.pow 2 64 then some n else none

/-- The member of a value under a segment of a dotted reference: the field of a record, the item
of a list. -/
def member? (segment : String) : Value → Option Value
  | .map fields => fields.lookup segment
  | .list items => (index? segment).bind (items[·]?)
  | _ => none

def follow? (v : Value) (path : List String) : Option Value :=
  path.foldlM (fun v segment => v.member? segment) v

def string? : Value → Option String
  | .str s => some s
  | _ => none

def int? : Value → Option Int64
  | .int n => some n
  | _ => none

def bool? : Value → Option Bool
  | .bool b => some b
  | _ => none

def list? : Value → Option (List Value)
  | .list items => some items
  | _ => none

mutual

/-- Equality of values: within one kind, and for floats as numbers, so that NaN differs from
itself and 0 equals -0. -/
def equal : Value → Value → Bool
  | .null, .null => true
  | .bool a, .bool b => a == b
  | .int a, .int b => a == b
  | .float a, .float b => a == b
  | .str a, .str b => a == b
  | .list as, .list bs => equalAll as bs
  | .map as, .map bs => equalFields as bs
  | _, _ => false

def equalAll : List Value → List Value → Bool
  | [], [] => true
  | a :: as, b :: bs => equal a b && equalAll as bs
  | _, _ => false

def equalFields : List (String × Value) → List (String × Value) → Bool
  | [], [] => true
  | (k, a) :: as, (l, b) :: bs => k == l && equal a b && equalFields as bs
  | _, _ => false

end

instance : BEq Value := ⟨equal⟩

/-- Add to an integer, wrapping at 64 bits; any other value stays as it is. -/
def add (n : Int64) : Value → Value
  | .int m => .int (m + n)
  | v => v

end Value

end ReactiveView
