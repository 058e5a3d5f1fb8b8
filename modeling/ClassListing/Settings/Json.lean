import ClassListing.Json.Reader
import ClassListing.Settings

namespace ClassListing.Settings

open ClassListing.Json

/-- Members up to the closing brace. Their names have to spell something. No value takes more than
`size` steps. -/
def jsonMembers? (size fuel : Nat) (chars : List Char) :
    Option (List (String × Option Bool) × List Char) :=
  match fuel with
  | 0 => none
  | fuel + 1 =>
    match skipSpace chars with
    | '"' :: rest => do
      let (name, rest) ← text? rest
      match skipSpace rest with
      | ':' :: rest =>
        let (value, rest) ← value? size rest
        match skipSpace rest with
        | ',' :: rest => do
          let (others, rest) ← jsonMembers? size fuel rest
          return ((name, value) :: others, rest)
        | '\x7d' :: rest => some ([(name, value)], rest)
        | _ => none
      | _ => none
    | _ => none

def jsonItems? (size fuel : Nat) (chars : List Char) : Option (List (Option Bool) × List Char) :=
  match fuel with
  | 0 => none
  | fuel + 1 => do
    let (value, rest) ← value? size chars
    match skipSpace rest with
    | ',' :: rest => do
      let (others, rest) ← jsonItems? size fuel rest
      return (value :: others, rest)
    | ']' :: rest => some ([value], rest)
    | _ => none

def jsonOutline? (chars : List Char) : Option (Outline × List Char) :=
  let size := fuelFor chars
  match skipSpace chars with
  | '\x7b' :: rest =>
    match skipSpace rest with
    | '\x7d' :: rest => some (.mapping [], rest)
    | rest =>
      (jsonMembers? size chars.length rest).map fun (members, rest) => (.mapping members, rest)
  | '[' :: rest =>
    match skipSpace rest with
    | ']' :: rest => some (.list [], rest)
    | rest => (jsonItems? size chars.length rest).map fun (items, rest) => (.list items, rest)
  | _ => none

def ofJson? (text : String) : Option Options := do
  let (outline, rest) ← jsonOutline? text.toList
  if (skipSpace rest).isEmpty then
    match outline with
    | .mapping members => Outline.byName? members
    | .list items => Outline.byPlace? items
  else none

end ClassListing.Settings
