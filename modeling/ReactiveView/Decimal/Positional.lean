import ReactiveView.Decimal.Shortest

namespace ReactiveView.Decimal

def Digits.positional (d : Digits) : String :=
  let digits := Nat.toDigits 10 d.coefficient
  if 0 ≤ d.exponent then
    String.ofList (digits ++ List.replicate d.exponent.toNat '0')
  else
    let places := (-d.exponent).toNat
    if places < digits.length then
      let whole := digits.length - places
      String.ofList (digits.take whole ++ '.' :: digits.drop whole)
    else
      String.ofList ('0' :: '.' :: (List.replicate (places - digits.length) '0' ++ digits))

/-- The parts of the 64-bit format: the sign, the eleven bits of the exponent and the 52 bits of
the fraction. -/
def parts (x : Float) : Bool × Nat × Nat :=
  let bits := x.toBits.toNat
  (bits / Nat.pow 2 63 == 1, bits / Nat.pow 2 52 % Nat.pow 2 11, bits % Nat.pow 2 52)

def binary (exponent fraction : Nat) : Binary :=
  if exponent = 0 then ⟨fraction, -1074, false⟩
  else ⟨Nat.pow 2 52 + fraction, (exponent : Int) - 1075, fraction == 0 && 1 < exponent⟩

def text (x : Float) : String :=
  let (negative, exponent, fraction) := parts x
  let sign := if negative then "-" else ""
  if exponent = 2047 then
    if fraction = 0 then sign ++ "inf" else "NaN"
  else if exponent = 0 ∧ fraction = 0 then sign ++ "0"
  else sign ++ (binary exponent fraction).shortest.positional

def Digits.scientific (d : Digits) : String :=
  let digits := Nat.toDigits 10 d.coefficient
  let power := d.exponent + (digits.length - 1 : Nat)
  let point := if digits.length = 1 then [] else ['.']
  String.ofList (digits.take 1 ++ point ++ digits.drop 1 ++ ['e']) ++ toString power

/-- The number of leading digits of a text, their value on top of `acc`, and the rest. -/
def readDigits : List Char → Nat → Nat × Nat × List Char
  | c :: rest, acc =>
    if c.isDigit then
      let (n, value, rest) := readDigits rest (acc * 10 + (c.toNat - '0'.toNat))
      (n + 1, value, rest)
    else (0, acc, c :: rest)
  | [], acc => (0, acc, [])

/-- The number nearest to c · 10^k. Far outside the range of the format it is zero or infinity,
without the power being computed. -/
def nearest (c : Nat) (k : Int) : Float :=
  let magnitude := ((Nat.toDigits 10 c).length : Int) + k
  if c = 0 ∨ magnitude < -400 then 0
  else if 400 < magnitude then 1.0 / 0.0
  else Float.ofScientific c (k < 0) k.natAbs

def readExponent? (cs : List Char) : Option Int :=
  let (negative, cs) := match cs with
    | '-' :: rest => (true, rest)
    | '+' :: rest => (false, rest)
    | _ => (false, cs)
  match readDigits cs 0 with
  | (_ + 1, value, []) => some (if negative then -(value : Int) else value)
  | _ => none

/-- A number without its sign: digits with at most one point among them, then perhaps an
exponent; or one of the words `inf`, `infinity` and `nan` in any case. -/
def readUnsigned? (cs : List Char) : Option Float :=
  let word := String.ofList (cs.map Char.toLower)
  if word = "inf" ∨ word = "infinity" then some (1.0 / 0.0)
  else if word = "nan" then some (0.0 / 0.0)
  else
    let (whole, value, rest) := readDigits cs 0
    let (places, value, rest) := match rest with
      | '.' :: rest => readDigits rest value
      | _ => (0, value, rest)
    if whole + places = 0 then none
    else match rest with
      | [] => some (nearest value (-(places : Int)))
      | e :: rest =>
        if e = 'e' ∨ e = 'E' then
          (readExponent? rest).map fun k => nearest value (k - places)
        else none

def read? (s : String) : Option Float :=
  match s.toList with
  | '-' :: rest => (readUnsigned? rest).map (-·)
  | '+' :: rest => readUnsigned? rest
  | cs => readUnsigned? cs

end ReactiveView.Decimal
