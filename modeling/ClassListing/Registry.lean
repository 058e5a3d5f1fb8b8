import ClassListing.Engine
import ClassListing.NameMap

namespace ClassListing

structure Registry where
  engines : NameMap Engine
  named : ∀ entry ∈ engines.entries, entry.2.name = entry.1

structure UnknownEngine where
  name : String
  available : List String
  deriving DecidableEq, Repr

def UnknownEngine.message (u : UnknownEngine) : String :=
  "Unknown engine '" ++ u.name ++ "'. Available: " ++ ", ".intercalate u.available

namespace Registry

def empty : Registry := ⟨.empty, by simp [NameMap.empty]⟩

def names (r : Registry) : List String := r.engines.names

def toList (r : Registry) : List Engine := r.engines.entries.map (·.2)

def get? (r : Registry) (name : String) : Option Engine := r.engines.get? name

def resolve (r : Registry) (name : String) : Except UnknownEngine Engine :=
  match r.get? name with
  | some engine => .ok engine
  | none => .error ⟨name, r.names⟩

def register (r : Registry) (engine : Engine) : Registry where
  engines := r.engines.insert engine.name engine
  named entry h := by
    rcases NameMap.mem_insertEntry h with rfl | h
    · rfl
    · exact r.named entry h

def standard (options : Options) : Registry := empty.register (.classFile options)

end Registry

end ClassListing
