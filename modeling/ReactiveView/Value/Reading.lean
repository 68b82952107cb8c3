import ReactiveView.Text.Pieces
import ReactiveView.Value.Convert

namespace ReactiveView

inductive TextFormat where
  | count
  | integer (bits : Nat)
  | float
  | flag
  | text
  /-- The text is a value that may be missing, and it is not. -/
  | present
  | missing
  | words
  /-- A record: fields with semicolons between them, the name of each before its first equals
  sign. -/
  | fields
  deriving DecidableEq, Repr

namespace TextFormat

def magnitude? (digits : List Char) : Option Nat :=
  if isDigits digits then some (Decimal.readDigits digits 0).2.1 else none
where
  isDigits (cs : List Char) : Bool := !cs.isEmpty && cs.all Char.isDigit

def integer? : List Char → Option Int
  | '-' :: digits => (magnitude? digits).map fun n => -(n : Int)
  | '+' :: digits => (magnitude? digits).map fun n => (n : Int)
  | digits => (magnitude? digits).map fun n => (n : Int)

/-- A field of a record; without an equals sign it is a name whose value is empty. -/
def field (cs : List Char) : String × Value :=
  match splitOnce? '=' cs with
  | some (name, value) => (String.ofList name, .str (String.ofList value))
  | none => (String.ofList cs, .str "")

def value? (format : TextFormat) (s : String) : Option Value :=
  match format with
  | count => (Value.index? s).map Value.ofCount
  | integer bits =>
    (integer? s.toList).bind fun n =>
      if -(Nat.pow 2 (bits - 1) : Int) ≤ n ∧ n < Nat.pow 2 (bits - 1) then
        some (.int (Int64.ofInt n))
      else none
  | float => (Decimal.read? s).map .float
  | flag => if s = "true" then some (.bool true) else if s = "false" then some (.bool false) else none
  | text => some (.str s)
  | present => some (Value.ofOption (some (.str s)))
  | missing => some (Value.ofOption none)
  | words => some (Value.ofTexts (splitAt ' ' s))
  | fields => some (Value.ofPairs ((pieces ';' s.toList).map field))

end TextFormat

end ReactiveView
