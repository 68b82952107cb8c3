import ReactiveView.Text.Visible
import ReactiveView.Value.Basic

namespace ReactiveView.Value

/-- A character inside a quoted string. Quotes and backslashes are escaped, and characters that
are not visible are written by a letter or by their code points. -/
def escape (c : Char) : List Char :=
  if c = '"' then ['\\', '"']
  else if c = '\\' then ['\\', '\\']
  else if c = '\n' then ['\\', 'n']
  else if c = '\r' then ['\\', 'r']
  else if c = '\t' then ['\\', 't']
  else if c.toNat = 0 then ['\\', '0']
  else if isVisible c then [c]
  else '\\' :: 'u' :: '\x7b' :: (Nat.toDigits 16 c.toNat ++ ['\x7d'])

def quote (s : String) : String :=
  String.ofList ('"' :: (s.toList.flatMap escape ++ ['"']))

/-- A float: from 10^-4 to below 10^16 in positional notation with a place after the point at
least, outside with a power of ten. -/
def floatDiagnostic (x : Float) : String :=
  let size := x.abs
  if x.isFinite ∧ x != 0 ∧ (size < 1e-4 ∨ 1e16 ≤ size) then
    let (negative, exponent, fraction) := Decimal.parts x
    (if negative then "-" else "") ++ (Decimal.binary exponent fraction).shortest.scientific
  else
    let s := Decimal.text x
    if x.isFinite && !s.toList.contains '.' then s ++ ".0" else s

mutual

def diagnostic : Value → String
  | .null => "Null"
  | .bool b => "Bool(" ++ (if b then "true" else "false") ++ ")"
  | .int n => "Int(" ++ toString n.toInt ++ ")"
  | .float x => "Float(" ++ floatDiagnostic x ++ ")"
  | .str s => "Str(" ++ quote s ++ ")"
  | .list items => "List([" ++ ", ".intercalate (diagnostics items) ++ "])"
  | .map fields => "Map(\x7b" ++ ", ".intercalate (fieldDiagnostics fields) ++ "\x7d)"

def diagnostics : List Value → List String
  | [] => []
  | v :: rest => diagnostic v :: diagnostics rest

def fieldDiagnostics : List (String × Value) → List String
  | [] => []
  | (name, v) :: rest => (quote name ++ ": " ++ diagnostic v) :: fieldDiagnostics rest

end

end ReactiveView.Value
