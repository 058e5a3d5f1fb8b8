import ClassListing.Listing.Options

namespace ClassListing

inductive Outline where
  | mapping (members : List (String × Option Bool))
  | list (items : List (Option Bool))
  deriving DecidableEq, Repr

namespace Outline

/-- What a mapping gives for a name: the one value under it, or true if there is none. -/
def flag? (members : List (String × Option Bool)) (name : String) : Option Bool :=
  match members.filter (·.1 == name) with
  | [] => some true
  | [(_, value)] => value
  | _ => none

/-- Options by name. Names without a meaning are passed over. -/
def byName? (members : List (String × Option Bool)) : Option Options := do
  return ⟨← flag? members "constant_pool", ← flag? members "code", ← flag? members "debug_info"⟩

def byPlace? : List (Option Bool) → Option Options
  | [] => some ⟨true, true, true⟩
  | [some pool] => some ⟨pool, true, true⟩
  | [some pool, some code] => some ⟨pool, code, true⟩
  | [some pool, some code, some debug] => some ⟨pool, code, debug⟩
  | _ => none

end Outline

end ClassListing
