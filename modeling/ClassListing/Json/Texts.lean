import ClassListing.Json.Reader

namespace ClassListing.Json

def textMember? (chars : List Char) : Option ((String × String) × List Char) :=
  match skipSpace chars with
  | '"' :: rest => do
    let (name, rest) ← text? rest
    match skipSpace rest with
    | ':' :: rest =>
      match skipSpace rest with
      | '"' :: rest => do
        let (value, rest) ← text? rest
        return ((name, value), rest)
      | _ => none
    | _ => none
  | _ => none

def textMembers? (fuel : Nat) (chars : List Char) : Option (List (String × String) × List Char) :=
  match fuel with
  | 0 => none
  | fuel + 1 => do
    let (member, rest) ← textMember? chars
    match skipSpace rest with
    | ',' :: rest => do
      let (others, rest) ← textMembers? fuel rest
      return (member :: others, rest)
    | '\x7d' :: rest => some ([member], rest)
    | _ => none

def textObject? (chars : List Char) : Option (List (String × String) × List Char) :=
  match skipSpace chars with
  | '\x7d' :: rest => some ([], rest)
  | _ => textMembers? (fuelFor chars) chars

/-- The members of an object of texts, in the order in which they are written. Nothing but space may
stand around it. -/
def texts? (text : String) : Option (List (String × String)) :=
  match skipSpace text.toList with
  | '\x7b' :: rest => do
    let (members, rest) ← textObject? rest
    if (skipSpace rest).isEmpty then some members else none
  | _ => none

end ClassListing.Json
