import ReactiveView.Json.Number

namespace ReactiveView.Json

def nestingLimit : Nat := 127

abbrev Reader (α : Type) := List Char → Option (α × List Char)

def skipBlanks (cs : List Char) : List Char :=
  cs.dropWhile fun c => c == ' ' || c == '\n' || c == '\t' || c == '\r'

def hexValue? (c : Char) : Option Nat :=
  if '0' ≤ c ∧ c ≤ '9' then some (c.toNat - '0'.toNat)
  else if 'a' ≤ c ∧ c ≤ 'f' then some (c.toNat - 'a'.toNat + 10)
  else if 'A' ≤ c ∧ c ≤ 'F' then some (c.toNat - 'A'.toNat + 10)
  else none

def readUnit : Reader Nat
  | a :: b :: c :: d :: rest => do
    let a ← hexValue? a
    let b ← hexValue? b
    let c ← hexValue? c
    let d ← hexValue? d
    some (((a * 16 + b) * 16 + c) * 16 + d, rest)
  | _ => none

/-- A character escaped by one unit of 16 bits or by the two of a surrogate pair. -/
def readUnits (cs : List Char) : Option (Char × List Char) := do
  let (unit, rest) ← readUnit cs
  if 0xdc00 ≤ unit ∧ unit < 0xe000 then none
  else if 0xd800 ≤ unit ∧ unit < 0xdc00 then
    match rest with
    | '\\' :: 'u' :: rest =>
      let (low, rest) ← readUnit rest
      if 0xdc00 ≤ low ∧ low < 0xe000 then
        some (Char.ofNat (0x10000 + (unit - 0xd800) * 0x400 + (low - 0xdc00)), rest)
      else none
    | _ => none
  else some (Char.ofNat unit, rest)

def readEscape : Reader Char
  | '"' :: rest => some ('"', rest)
  | '\\' :: rest => some ('\\', rest)
  | '/' :: rest => some ('/', rest)
  | 'b' :: rest => some ('\x08', rest)
  | 'f' :: rest => some ('\x0c', rest)
  | 'n' :: rest => some ('\n', rest)
  | 'r' :: rest => some ('\r', rest)
  | 't' :: rest => some ('\t', rest)
  | 'u' :: rest => readUnits rest
  | _ => none

/-- The characters of a string up to its closing quote; each takes at least one character of the
text, so the length of the text is fuel enough. -/
def readCharacters : Nat → Reader (List Char)
  | 0, _ => none
  | _, [] => none
  | _ + 1, '"' :: rest => some ([], rest)
  | fuel + 1, '\\' :: rest => do
    let (c, rest) ← readEscape rest
    let (cs, rest) ← readCharacters fuel rest
    some (c :: cs, rest)
  | fuel + 1, c :: rest =>
    if c.toNat < 0x20 then none
    else do
      let (cs, rest) ← readCharacters fuel rest
      some (c :: cs, rest)

def readString (cs : List Char) : Option (String × List Char) :=
  (readCharacters cs.length cs).map fun r => (String.ofList r.1, r.2)

def readItems (item : Reader Json) : Nat → Reader (List Json)
  | 0, _ => none
  | fuel + 1, cs => do
    let (j, rest) ← item cs
    match skipBlanks rest with
    | ']' :: rest => some ([j], rest)
    | ',' :: rest =>
      let (js, rest) ← readItems item fuel rest
      some (j :: js, rest)
    | _ => none

def readField (item : Reader Json) (cs : List Char) : Option ((String × Json) × List Char) :=
  match skipBlanks cs with
  | '"' :: rest => do
    let (name, rest) ← readString rest
    match skipBlanks rest with
    | ':' :: rest =>
      let (j, rest) ← item rest
      some ((name, j), rest)
    | _ => none
  | _ => none

def readFields (item : Reader Json) : Nat → Reader (List (String × Json))
  | 0, _ => none
  | fuel + 1, cs => do
    let (field, rest) ← readField item cs
    match skipBlanks rest with
    | '}' :: rest => some ([field], rest)
    | ',' :: rest =>
      let (fields, rest) ← readFields item fuel rest
      some (field :: fields, rest)
    | _ => none

def readArray (item : Reader Json) (cs : List Char) : Option (Json × List Char) :=
  match skipBlanks cs with
  | ']' :: rest => some (.arr [], rest)
  | _ => (readItems item cs.length cs).map fun r => (.arr r.1, r.2)

def readObject (item : Reader Json) (cs : List Char) : Option (Json × List Char) :=
  match skipBlanks cs with
  | '}' :: rest => some (.obj [], rest)
  | _ => (readFields item cs.length cs).map fun r => (.obj r.1, r.2)

/-- A value, with `levels` containers at most inside one another. -/
def readValue : Nat → Reader Json
  | 0, cs => readScalar (skipBlanks cs)
  | levels + 1, cs =>
    match skipBlanks cs with
    | '[' :: rest => readArray (readValue levels) rest
    | '{' :: rest => readObject (readValue levels) rest
    | cs => readScalar cs
where
  readScalar : Reader Json
    | 'n' :: 'u' :: 'l' :: 'l' :: rest => some (.null, rest)
    | 't' :: 'r' :: 'u' :: 'e' :: rest => some (.bool true, rest)
    | 'f' :: 'a' :: 'l' :: 's' :: 'e' :: rest => some (.bool false, rest)
    | '"' :: rest => (readString rest).map fun r => (.str r.1, r.2)
    | cs => readNumber cs

/-- The value that a text is, with nothing but blanks around it. A text that escapes half of a
surrogate pair or nests more containers than the reader's limit is refused. -/
def read? (s : String) : Option Json :=
  match readValue nestingLimit s.toList with
  | some (j, rest) => if (skipBlanks rest).isEmpty then some j else none
  | none => none

end ReactiveView.Json
