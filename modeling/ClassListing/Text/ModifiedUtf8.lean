import ClassListing.Text.Utf16

namespace ClassListing.ModifiedUtf8

open Utf16

def isSingle (b : UInt8) : Bool := 0x01 ≤ b && b ≤ 0x7F

def isLeadOfTwo (b : UInt8) : Bool := 0xC0 ≤ b && b ≤ 0xDF

def isLeadOfThree (b : UInt8) : Bool := 0xE0 ≤ b && b ≤ 0xEF

def isContinuation (b : UInt8) : Bool := 0x80 ≤ b && b ≤ 0xBF

def unitOfTwo (b c : UInt8) : UInt16 :=
  ((b.toUInt16 &&& 0x1F) <<< 6) ||| (c.toUInt16 &&& 0x3F)

def unitOfThree (b c d : UInt8) : UInt16 :=
  ((b.toUInt16 &&& 0x0F) <<< 12) ||| ((c.toUInt16 &&& 0x3F) <<< 6) ||| (d.toUInt16 &&& 0x3F)

/-- The units that a byte string spells, if it is cut into groups without a remainder. A group
may be longer than its unit needs. -/
def units? : List UInt8 → Option (List UInt16)
  | [] => some []
  | b :: rest =>
    if isSingle b then (units? rest).map (b.toUInt16 :: ·)
    else if isLeadOfTwo b then
      match rest with
      | c :: rest =>
        if isContinuation c then (units? rest).map (unitOfTwo b c :: ·) else none
      | [] => none
    else if isLeadOfThree b then
      match rest with
      | c :: d :: rest =>
        if isContinuation c && isContinuation d then
          (units? rest).map (unitOfThree b c d :: ·)
        else none
      | _ => none
    else none

/-- Stands for a surrogate without its partner. -/
def replacement : Char := '\uFFFD'

def charOfUnit (u : UInt16) : Char :=
  if isSurrogate u then replacement else Utf16.charOfUnit u

def chars : List UInt16 → List Char
  | [] => []
  | [u] => [charOfUnit u]
  | u :: v :: rest =>
    if isHighSurrogate u && isLowSurrogate v then charOfPair u v :: chars rest
    else charOfUnit u :: chars (v :: rest)

def decodeGroups (bytes : List UInt8) : Option String :=
  (units? bytes).map fun units => String.ofList (chars units)

/-- Bytes that are all groups of their own are UTF-8 as they stand. -/
def decode (bytes : List UInt8) : Option String :=
  if bytes.all isSingle then String.fromUTF8? bytes.toByteArray else decodeGroups bytes

def continuation (u : UInt16) : UInt8 :=
  ((u &&& 0x3F) ||| 0x80).toUInt8

def bytesOfUnit (u : UInt16) : List UInt8 :=
  if 0x01 ≤ u && u ≤ 0x7F then [u.toUInt8]
  else if u ≤ 0x07FF then [((u >>> 6) ||| 0xC0).toUInt8, continuation u]
  else [((u >>> 12) ||| 0xE0).toUInt8, continuation (u >>> 6), continuation u]

def encode (text : String) : List UInt8 :=
  (text.toList.flatMap unitsOfChar).flatMap bytesOfUnit

end ClassListing.ModifiedUtf8
