import ClassListing.Text.Utf16

namespace ClassListing.Json

def isSpace (c : Char) : Bool := c == ' ' || c == '\t' || c == '\n' || c == '\r'

def skipSpace (chars : List Char) : List Char := chars.dropWhile isSpace

/-- A part of a text: a character, or a unit that is written by its number. -/
inductive Piece where
  | char (c : Char)
  | unit (u : UInt16)
  deriving DecidableEq, Repr

def hexValue? (c : Char) : Option UInt16 :=
  if '0' ≤ c ∧ c ≤ '9' then some (c.toNat - '0'.toNat).toUInt16
  else if 'a' ≤ c ∧ c ≤ 'f' then some (c.toNat - 'a'.toNat + 10).toUInt16
  else if 'A' ≤ c ∧ c ≤ 'F' then some (c.toNat - 'A'.toNat + 10).toUInt16
  else none

def unit? (a b c d : Char) : Option UInt16 := do
  return (← hexValue? a) * 4096 + (← hexValue? b) * 256 + (← hexValue? c) * 16 + (← hexValue? d)

def escaped? (c : Char) : Option Char :=
  if c = '"' ∨ c = '\\' ∨ c = '/' then some c
  else if c = 'b' then some '\x08'
  else if c = 'f' then some '\x0c'
  else if c = 'n' then some '\n'
  else if c = 'r' then some '\r'
  else if c = 't' then some '\t'
  else none

def pieces : List Char → Option (List Piece × List Char)
  | [] => none
  | '"' :: rest => some ([], rest)
  | '\\' :: 'u' :: a :: b :: c :: d :: rest => do
    let u ← unit? a b c d
    let (others, rest) ← pieces rest
    return (.unit u :: others, rest)
  | '\\' :: c :: rest => do
    let c ← escaped? c
    let (others, rest) ← pieces rest
    return (.char c :: others, rest)
  | c :: rest =>
    if c.val < 0x20 ∨ c = '\\' then none
    else do
      let (others, rest) ← pieces rest
      return (.char c :: others, rest)

/-- What pieces spell. A surrogate has to have its partner right beside it. -/
def spell? : List Piece → Option (List Char)
  | [] => some []
  | .char c :: rest => (spell? rest).map (c :: ·)
  | .unit u :: .unit v :: rest =>
    if Utf16.isHighSurrogate u && Utf16.isLowSurrogate v then
      (spell? rest).map (Utf16.charOfPair u v :: ·)
    else if Utf16.isSurrogate u then none
    else (spell? (.unit v :: rest)).map (Utf16.charOfUnit u :: ·)
  | .unit u :: rest =>
    if Utf16.isSurrogate u then none else (spell? rest).map (Utf16.charOfUnit u :: ·)

def text? (chars : List Char) : Option (String × List Char) := do
  let (pieces, rest) ← pieces chars
  let spelled ← spell? pieces
  return (String.ofList spelled, rest)

def digits? (chars : List Char) : Option (List Char) :=
  match chars with
  | c :: rest => if c.isDigit then some (rest.dropWhile Char.isDigit) else none
  | [] => none

def whole? : List Char → Option (List Char)
  | '0' :: c :: rest => if c.isDigit then none else some (c :: rest)
  | chars => digits? chars

def fraction? : List Char → Option (List Char)
  | '.' :: rest => digits? rest
  | chars => some chars

def exponent? : List Char → Option (List Char)
  | c :: rest =>
    if c = 'e' ∨ c = 'E' then
      match rest with
      | '+' :: rest | '-' :: rest => digits? rest
      | _ => digits? rest
    else some (c :: rest)
  | [] => some []

def number? : List Char → Option (List Char)
  | '-' :: rest => whole? rest >>= fraction? >>= exponent?
  | chars => whole? chars >>= fraction? >>= exponent?

mutual

/-- A value of any form: its truth if it is `true` or `false`, and what follows. `fuel` bounds the
depth. -/
def value? (fuel : Nat) (chars : List Char) : Option (Option Bool × List Char) :=
  match fuel with
  | 0 => none
  | fuel + 1 =>
    match skipSpace chars with
    | 't' :: 'r' :: 'u' :: 'e' :: rest => some (some true, rest)
    | 'f' :: 'a' :: 'l' :: 's' :: 'e' :: rest => some (some false, rest)
    | 'n' :: 'u' :: 'l' :: 'l' :: rest => some (none, rest)
    | '"' :: rest => (pieces rest).map fun found => (none, found.2)
    | '[' :: rest =>
      match skipSpace rest with
      | ']' :: rest => some (none, rest)
      | rest => (items? fuel rest).map fun rest => (none, rest)
    | '\x7b' :: rest =>
      match skipSpace rest with
      | '\x7d' :: rest => some (none, rest)
      | rest => (members? fuel rest).map fun rest => (none, rest)
    | rest => (number? rest).map fun rest => (none, rest)

def items? (fuel : Nat) (chars : List Char) : Option (List Char) :=
  match fuel with
  | 0 => none
  | fuel + 1 => do
    let (_, rest) ← value? fuel chars
    match skipSpace rest with
    | ',' :: rest => items? fuel rest
    | ']' :: rest => some rest
    | _ => none

def members? (fuel : Nat) (chars : List Char) : Option (List Char) :=
  match fuel with
  | 0 => none
  | fuel + 1 =>
    match skipSpace chars with
    | '"' :: rest => do
      let (_, rest) ← pieces rest
      match skipSpace rest with
      | ':' :: rest =>
        let (_, rest) ← value? fuel rest
        match skipSpace rest with
        | ',' :: rest => members? fuel rest
        | '\x7d' :: rest => some rest
        | _ => none
      | _ => none
    | _ => none

end

/-- A value takes no more steps than it has characters. -/
def fuelFor (chars : List Char) : Nat := 2 * chars.length + 2

end ClassListing.Json
