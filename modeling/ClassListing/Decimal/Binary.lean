namespace ClassListing.Decimal

structure BinaryFormat where
  fractionBits : Nat
  exponentBits : Nat

def binary32 : BinaryFormat := ⟨23, 8⟩

def binary64 : BinaryFormat := ⟨52, 11⟩

/-- The number `significand * 2 ^ exponent`. A value is `closeBelow` when its neighbour below is at
half the distance of the one above. -/
structure Dyadic where
  significand : Nat
  exponent : Int
  closeBelow : Bool
  deriving DecidableEq, Repr

inductive Magnitude where
  | nan
  | infinite
  | finite (value : Dyadic)
  deriving DecidableEq, Repr

namespace BinaryFormat

def fractionSpan (format : BinaryFormat) : Nat := Nat.pow 2 format.fractionBits

def exponentSpan (format : BinaryFormat) : Nat := Nat.pow 2 format.exponentBits

def fraction (format : BinaryFormat) (bits : Nat) : Nat :=
  bits % format.fractionSpan

def exponentField (format : BinaryFormat) (bits : Nat) : Nat :=
  bits / format.fractionSpan % format.exponentSpan

def isNegative (format : BinaryFormat) (bits : Nat) : Bool :=
  bits / format.fractionSpan / format.exponentSpan % 2 == 1

def leastExponent (format : BinaryFormat) : Int :=
  2 - (format.exponentSpan / 2 : Nat) - format.fractionBits

def magnitude (format : BinaryFormat) (bits : Nat) : Magnitude :=
  let fraction := format.fraction bits
  let field := format.exponentField bits
  if field = format.exponentSpan - 1 then if fraction = 0 then .infinite else .nan
  else if field = 0 then .finite ⟨fraction, format.leastExponent, false⟩
  else
    .finite ⟨format.fractionSpan + fraction, format.leastExponent + (field - 1 : Nat),
      fraction = 0 && 1 < field⟩

end BinaryFormat

end ClassListing.Decimal
