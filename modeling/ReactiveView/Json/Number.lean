import ReactiveView.Json.Basic

namespace ReactiveView.Json

def digitValue (c : Char) : Nat := c.toNat - '0'.toNat

/-- Extend a significand by the digits of a text as long as it stays below 2^64: the significand,
the number of digits taken and the rest of the text. -/
def takeDigits (significand : Nat) : List Char → Nat × Nat × List Char
  | c :: rest =>
    let next := significand * 10 + digitValue c
    if c.isDigit ∧ next < Nat.pow 2 64 then
      let (s, n, rest) := takeDigits next rest
      (s, n + 1, rest)
    else (significand, 0, c :: rest)
  | [] => (significand, 0, [])

def startsWithDigit : List Char → Bool
  | c :: _ => c.isDigit
  | [] => false

def powerOfTen (k : Nat) : Float := Float.ofScientific 1 false k

/-- Divide by 10^k, in steps of at most 10^308, until nothing is left to divide. -/
def divide (x : Float) (k : Nat) : Float :=
  if k ≤ 308 then x / powerOfTen k
  else if x == 0 then x
  else divide (x / powerOfTen 308) (k - 308)
termination_by k

/-- The float that a significand and a power of ten make, unless it is infinite. The power is
applied by one multiplication or by divisions, each of them rounded, so the float may be off in its
last bit. -/
def scale? (significand : Nat) (exponent : Int) : Option Float :=
  let x := significand.toUInt64.toFloat
  if exponent < 0 then some (divide x exponent.natAbs)
  else if exponent ≤ 308 then
    let y := x * powerOfTen exponent.natAbs
    if y.isInf then none else some y
  else if x == 0 then some x
  else none

def signed (negative : Bool) (x : Float) : Json := .float (if negative then -x else x)

def finish (negative : Bool) (significand : Nat) (exponent : Int) (rest : List Char) :
    Option (Json × List Char) :=
  (scale? significand exponent).map fun x => (signed negative x, rest)

def readExponent (negative : Bool) (significand : Nat) (places : Int) (cs : List Char) :
    Option (Json × List Char) :=
  let (down, cs) := match cs with
    | '+' :: rest => (false, rest)
    | '-' :: rest => (true, rest)
    | _ => (false, cs)
  let digits := cs.takeWhile Char.isDigit
  let value : Nat := digits.foldl (fun n c => n * 10 + digitValue c) 0
  if digits.isEmpty then none
  else finish negative significand (if down then places - value else places + value)
    (cs.dropWhile Char.isDigit)

def readScaled (negative : Bool) (significand : Nat) (places : Int) (cs : List Char) :
    Option (Json × List Char) :=
  match cs with
  | 'e' :: rest => readExponent negative significand places rest
  | 'E' :: rest => readExponent negative significand places rest
  | _ => finish negative significand places cs

def readFraction (negative : Bool) (significand : Nat) (places : Int) (cs : List Char) :
    Option (Json × List Char) :=
  let (significand, n, rest) := takeDigits significand cs
  if startsWithDigit rest then
    readScaled negative significand (places - n) (rest.dropWhile Char.isDigit)
  else if n = 0 then none
  else readScaled negative significand (places - n) rest

/-- A whole number: the sign of zero and what lies below -2^63 need a float. -/
def whole (negative : Bool) (n : Nat) : Json :=
  if negative then
    if n = 0 ∨ Nat.pow 2 63 < n then .float (-n.toUInt64.toFloat) else .int (-(n : Int))
  else .int n

def readTail (negative : Bool) (significand : Nat) (cs : List Char) : Option (Json × List Char) :=
  match cs with
  | '.' :: rest => readFraction negative significand 0 rest
  | 'e' :: rest => readExponent negative significand 0 rest
  | 'E' :: rest => readExponent negative significand 0 rest
  | _ => some (whole negative significand, cs)

/-- What follows a significand that is full: the other digits of the whole part count as
places. -/
def readLong (negative : Bool) (significand : Nat) (cs : List Char) : Option (Json × List Char) :=
  let places := (cs.takeWhile Char.isDigit).length
  match cs.dropWhile Char.isDigit with
  | '.' :: rest => readFraction negative significand places rest
  | rest => readScaled negative significand places rest

/-- A number without its sign; zero is the only one that starts with the digit 0. -/
def readUnsigned (negative : Bool) : List Char → Option (Json × List Char)
  | '0' :: rest => if startsWithDigit rest then none else readTail negative 0 rest
  | c :: rest =>
    if c.isDigit then
      let (significand, _, rest) := takeDigits (digitValue c) rest
      if startsWithDigit rest then readLong negative significand rest
      else readTail negative significand rest
    else none
  | [] => none

def readNumber : List Char → Option (Json × List Char)
  | '-' :: rest => readUnsigned true rest
  | cs => readUnsigned false cs

end ReactiveView.Json
