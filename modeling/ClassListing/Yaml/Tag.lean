import ClassListing.Json.Reader
import ClassListing.Yaml.Text

namespace ClassListing.Yaml

abbrev Octets := List UInt8

def asciiOctets (text : String) : Octets := text.toList.map (·.toNat.toUInt8)

def isNameChar (a : At) : Bool := a.char.isAlphanum || a.char == '_' || a.char == '-'

def textOf (s : Stream) : String := String.ofList (s.map (·.char))

/-- Commas and square brackets belong to a suffix only where angle brackets or a directive hold
it. -/
def isUriChar (bracketed : Bool) (a : At) : Bool :=
  isNameChar a || ";/?:@&=+$.%!~*'()".toList.contains a.char ||
    (bracketed && ",[]".toList.contains a.char)

def following? (lead : UInt8) : Option Nat :=
  if lead &&& 0x80 = 0 then some 0
  else if lead &&& 0xE0 = 0xC0 then some 1
  else if lead &&& 0xF0 = 0xE0 then some 2
  else if lead &&& 0xF8 = 0xF0 then some 3
  else none

/-- The octets of a suffix. All octets of one character are written in the same way, and `more` of
them are still to come. -/
def octets? (more : Nat) : List Char → Option Octets
  | [] => if more = 0 then some [] else none
  | '%' :: a :: b :: rest => do
    let octet := ((← Json.hexValue? a) * 16 + (← Json.hexValue? b)).toUInt8
    let more ←
      if more = 0 then following? octet
      else if octet &&& 0xC0 = 0x80 then some (more - 1)
      else none
    return octet :: (← octets? more rest)
  | c :: rest =>
    if more = 0 && c != '%' then do return c.toNat.toUInt8 :: (← octets? 0 rest) else none

def suffix? (bracketed : Bool) (s : Stream) : Option (Octets × Stream) := do
  let octets ← octets? 0 ((s.takeWhile (isUriChar bracketed)).map (·.char))
  return (octets.takeWhile (· != 0), s.dropWhile (isUriChar bracketed))

def someSuffix? (bracketed : Bool) (s : Stream) : Option (Octets × Stream) :=
  if s.head?.any (isUriChar bracketed) then suffix? bracketed s else none

def namedHandle? (s : Stream) : Option (String × Stream) :=
  let after := s.dropWhile isNameChar
  if startsWith after '!' then
    some ("!" ++ textOf (s.takeWhile isNameChar) ++ "!", after.drop 1)
  else none

def handle? (s : Stream) : Option (String × Stream) :=
  if startsWith s '!' then
    match namedHandle? (s.drop 1) with
    | some found => some found
    | none => if (s.drop 1).head?.any isNameChar then none else some ("!", s.drop 1)
  else none

/-- The handle and the suffix of a tag after its mark. A mark alone is a suffix without a handle,
as is what stands between angle brackets. -/
def tagParts? (s : Stream) : Option (String × Octets × Stream) := do
  if startsWith s '<' then
    let (suffix, rest) ← someSuffix? true (s.drop 1)
    if startsWith rest '>' then return ("", suffix, rest.drop 1) else none
  else
    match namedHandle? s with
    | some (handle, rest) =>
      let (suffix, rest) ← someSuffix? false rest
      return (handle, suffix, rest)
    | none =>
      let (suffix, rest) ← suffix? false s
      if suffix.isEmpty then return ("", asciiOctets "!", rest) else return ("!", suffix, rest)

/-- A tag has to be set off from what follows; between brackets a comma does it too. -/
def tag? (inFlow : Bool) (s : Stream) : Option (String × Octets × Stream) := do
  let (handle, suffix, rest) ← tagParts? s
  if isWordEnd rest || (inFlow && startsWith rest ',') then return (handle, suffix, rest) else none

end ClassListing.Yaml
