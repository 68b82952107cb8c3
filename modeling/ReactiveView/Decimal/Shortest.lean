namespace ReactiveView.Decimal

/-- A positive binary number m · 2^q and whether the gap to the number below it is half the gap
to the number above it, as it is at a power of two. -/
structure Binary where
  significand : Nat
  exponent : Int
  narrowBelow : Bool

structure Digits where
  coefficient : Nat
  exponent : Int

/-- A number and the two ends of its rounding interval over one denominator; the ends belong to
the interval iff `closed` holds. -/
structure Interval where
  low : Nat
  mid : Nat
  high : Nat
  denominator : Nat
  closed : Bool

/-- The reals that round to a binary number: half a gap to both sides, with the ends when the
significand is even. -/
def Binary.interval (b : Binary) : Interval :=
  let up := Nat.pow 2 (b.exponent - 2).toNat
  { low := (4 * b.significand - if b.narrowBelow then 1 else 2) * up
    mid := 4 * b.significand * up
    high := (4 * b.significand + 2) * up
    denominator := Nat.pow 2 (2 - b.exponent).toNat
    closed := b.significand % 2 == 0 }

def Interval.inUnits (i : Interval) (k : Int) : Interval :=
  let up := Nat.pow 10 (-k).toNat
  { low := i.low * up
    mid := i.mid * up
    high := i.high * up
    denominator := i.denominator * Nat.pow 10 k.toNat
    closed := i.closed }

def Interval.holds (i : Interval) (c : Nat) : Bool :=
  if i.closed then i.low ≤ c * i.denominator && c * i.denominator ≤ i.high
  else i.low < c * i.denominator && c * i.denominator < i.high

/-- The whole number of units in the interval that is nearest to the number, if one of its two
neighbours lies there. -/
def Interval.nearest? (i : Interval) : Option Nat :=
  let below := i.mid / i.denominator
  let above := below + 1
  match i.holds below, i.holds above with
  | true, true =>
    if i.mid - below * i.denominator < above * i.denominator - i.mid then some below
    else some above
  | true, false => some below
  | false, true => some above
  | false, false => none

def Interval.leading (i : Interval) : Int :=
  if i.denominator ≤ i.mid then
    ((Nat.toDigits 10 (i.mid / i.denominator)).length : Int) - 1
  else
    let n := (Nat.toDigits 10 (i.denominator / i.mid)).length
    if i.denominator ≤ i.mid * Nat.pow 10 (n - 1) then -((n : Int) - 1) else -(n : Int)

/-- A hit whose last digit is 0 is named by its other digits: the neighbour above 9 … 9 units. -/
def Digits.ofHit (c : Nat) (k : Int) : Digits :=
  if c % 10 = 0 then ⟨c / 10, k + 1⟩ else ⟨c, k⟩

/-- Try the units 10^k, 10^(k-1), … in turn; the coefficient 0 is no name of a positive number. -/
def Interval.firstHit (i : Interval) : Nat → Int → Digits
  | 0, k => ⟨i.mid / i.denominator, k⟩
  | tries + 1, k =>
    match (i.inUnits k).nearest? with
    | some (c + 1) => Digits.ofHit (c + 1) k
    | _ => i.firstHit tries (k - 1)

/-- The shortest decimal that rounds to a binary number, of several the nearest one, and of two that
are equally near the larger. Eighteen places from the leading one on always hold one for a
significand of 53 bits. -/
def Binary.shortest (b : Binary) : Digits :=
  b.interval.firstHit 18 b.interval.leading

end ReactiveView.Decimal
