import ClassListing.Decimal.Binary

namespace ClassListing.Decimal

structure Digits where
  digits : Nat
  exponent : Int
  deriving DecidableEq, Repr

/-- The reals that round to `value`, all in units of one power of ten. The ends are included when
the interval is closed. -/
structure Interval where
  low : Nat
  value : Nat
  high : Nat
  closed : Bool
  deriving DecidableEq, Repr

namespace Interval

def contains (interval : Interval) (n : Nat) : Bool :=
  if interval.closed then interval.low ≤ n && n ≤ interval.high
  else interval.low < n && n < interval.high

/-- The nearest multiple of `unit` inside the interval among the two around the value. Of two
that are equally near, the greater. -/
def multiple? (interval : Interval) (unit : Nat) : Option Nat :=
  let below := interval.value / unit
  let above := below + 1
  match interval.contains (below * unit), interval.contains (above * unit) with
  | true, true =>
    if interval.value - below * unit < above * unit - interval.value then some below
    else some above
  | true, false => some below
  | false, true => some above
  | false, false => none

/-- The digits over the greatest power of ten that has a multiple in the interval, up to
`10 ^ power`. -/
def shortestFrom (interval : Interval) : Nat → Digits
  | 0 => ⟨interval.value, 0⟩
  | power + 1 =>
    match interval.multiple? (Nat.pow 10 (power + 1)) with
    | some digits => ⟨digits, (power + 1 : Nat)⟩
    | none => interval.shortestFrom power

def shortest (interval : Interval) : Digits :=
  interval.shortestFrom ((Nat.toDigits 10 interval.value).length - 1)

end Interval

namespace Dyadic

/-- Quarters of the last place of the significand divide the interval evenly. A quarter is
`2 ^ (exponent - 2)`; below one it is a multiple of the same power of ten. -/
def interval (x : Dyadic) : Interval :=
  let quarter := x.exponent - 2
  let scale := Nat.pow (if quarter < 0 then 5 else 2) quarter.natAbs
  ⟨(4 * x.significand - if x.closeBelow then 1 else 2) * scale, 4 * x.significand * scale,
    (4 * x.significand + 2) * scale, x.significand % 2 == 0⟩

/-- The shortest decimal that rounds to a value other than zero, and of several that are equally
short the nearest. -/
def shortest (x : Dyadic) : Digits :=
  let found := x.interval.shortest
  ⟨found.digits, found.exponent + min (x.exponent - 2) 0⟩

end Dyadic

end ClassListing.Decimal
