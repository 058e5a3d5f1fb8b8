import ClassListing.Decimal.Shortest
import ClassListing.Text.Numeral

namespace ClassListing.Decimal

structure Scientific where
  first : Char
  others : List Char
  exponent : Int
  deriving DecidableEq, Repr

def Digits.scientific (d : Digits) : Scientific :=
  let written := Nat.toDigits 10 d.digits
  let others := (written.tail.reverse.dropWhile (· == '0')).reverse
  ⟨written.headD '0', others, d.exponent + (written.length - 1 : Nat)⟩

def Scientific.positional (s : Scientific) : List Char :=
  let digits := s.first :: s.others
  if s.exponent < 0 then
    ['0', '.'] ++ List.replicate (s.exponent.natAbs - 1) '0' ++ digits
  else
    let places := s.exponent.natAbs + 1
    let fraction := digits.drop places
    (digits.take places).rightpad places '0' ++
      '.' :: (if fraction.isEmpty then ['0'] else fraction)

/-- With an exponent, and a point only where digits follow it. -/
def Scientific.withExponent (s : Scientific) : List Char :=
  let fraction := if s.others.isEmpty then [] else '.' :: s.others
  s.first :: fraction ++ 'e' :: (Numeral.decimal s.exponent).toList

/-- Values from a ten-thousandth up to, but not including, ten to the sixteenth are written
without an exponent. -/
def Scientific.text (s : Scientific) : List Char :=
  if -4 ≤ s.exponent ∧ s.exponent < 16 then s.positional else s.withExponent

def Dyadic.text (x : Dyadic) : List Char :=
  if x.significand = 0 then ['0', '.', '0'] else x.shortest.scientific.text

/-- A value that is not a number has no sign. -/
def BinaryFormat.text (format : BinaryFormat) (bits : Nat) : String :=
  let sign := if format.isNegative bits then "-" else ""
  match format.magnitude bits with
  | .nan => "NaN"
  | .infinite => sign ++ "Infinity"
  | .finite value => sign ++ String.ofList value.text

end ClassListing.Decimal
