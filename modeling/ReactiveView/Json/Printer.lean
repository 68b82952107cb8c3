import ReactiveView.Decimal.Positional
import ReactiveView.Json.Basic

namespace ReactiveView.Json

def hexDigit (n : Nat) : Char :=
  if n < 10 then Char.ofNat ('0'.toNat + n) else Char.ofNat ('a'.toNat + (n - 10))

/-- A character inside a string. The quote, the backslash and the control characters below the
space are escaped, five of them by a letter; all else stands for itself. -/
def escape (c : Char) : List Char :=
  if c = '"' then ['\\', '"']
  else if c = '\\' then ['\\', '\\']
  else if c = '\n' then ['\\', 'n']
  else if c = '\r' then ['\\', 'r']
  else if c = '\t' then ['\\', 't']
  else if c = '\x08' then ['\\', 'b']
  else if c = '\x0c' then ['\\', 'f']
  else if c.toNat < 0x20 then ['\\', 'u', '0', '0', hexDigit (c.toNat / 16), hexDigit (c.toNat % 16)]
  else [c]

def quote (s : String) : List Char :=
  '"' :: (s.toList.flatMap escape ++ ['"'])

def scalar : Json → List Char
  | .null => "null".toList
  | .bool true => "true".toList
  | .bool false => "false".toList
  | .int n => (toString n).toList
  | .float x => (Decimal.text x).toList
  | .str s => quote s
  | _ => []

mutual

def compact : Json → List Char
  | .arr items => '[' :: ([','].intercalate (compactAll items) ++ [']'])
  | .obj fields => '{' :: ([','].intercalate (compactFields fields) ++ ['}'])
  | j => scalar j

def compactAll : List Json → List (List Char)
  | [] => []
  | j :: rest => compact j :: compactAll rest

def compactFields : List (String × Json) → List (List Char)
  | [] => []
  | (name, j) :: rest => (quote name ++ ':' :: compact j) :: compactFields rest

end

def newLine (indent : Nat) : List Char := '\n' :: List.replicate (2 * indent) ' '

def block (indent : Nat) (opening closing : Char) (parts : List (List Char)) : List Char :=
  if parts.isEmpty then [opening, closing]
  else opening :: ((',' :: newLine (indent + 1)).intercalate
    ((newLine (indent + 1) ++ parts.headD []) :: parts.tail) ++ newLine indent ++ [closing])

mutual

def pretty (indent : Nat) : Json → List Char
  | .arr items => block indent '[' ']' (prettyAll (indent + 1) items)
  | .obj fields => block indent '{' '}' (prettyFields (indent + 1) fields)
  | j => scalar j

def prettyAll (indent : Nat) : List Json → List (List Char)
  | [] => []
  | j :: rest => pretty indent j :: prettyAll indent rest

def prettyFields (indent : Nat) : List (String × Json) → List (List Char)
  | [] => []
  | (name, j) :: rest => (quote name ++ ':' :: ' ' :: pretty indent j) :: prettyFields indent rest

end

def line (j : Json) : String := String.ofList j.compact

def lines (j : Json) : String := String.ofList (j.pretty 0)

end ReactiveView.Json
