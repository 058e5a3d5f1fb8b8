import ClassListing.Attribute
import ClassListing.Pool

namespace ClassListing

structure Member where
  access : UInt16
  name : UInt16
  descriptor : UInt16
  attributes : List Attribute
  deriving Repr

/-- The superclass is 0 where there is none. -/
structure ClassFile where
  minor : UInt16
  major : UInt16
  pool : Pool
  access : UInt16
  thisClass : UInt16
  superClass : UInt16
  interfaces : List UInt16
  fields : List Member
  methods : List Member
  attributes : List Attribute
  deriving Repr

namespace Member

def code? (member : Member) : Option (CodeBody × List Attribute) :=
  member.attributes.findSome? fun
    | .code body attributes => some (body, attributes)
    | _ => none

def hasName (pool : Pool) (name : String) (member : Member) : Bool :=
  match pool.utf8 member.name with
  | .ok text => text == name
  | .error _ => false

end Member

namespace ClassFile

def className (c : ClassFile) : Except Fault String :=
  c.pool.className c.thisClass

def superClassName? (c : ClassFile) : Except Fault (Option String) :=
  if c.superClass = 0 then return none
  else return some (← c.pool.className c.superClass)

def interfaceNames (c : ClassFile) : Except Fault (List String) :=
  c.interfaces.mapM c.pool.className

def sourceFile? (c : ClassFile) : Except Fault (Option String) :=
  match c.attributes.findSome? (fun | .sourceFile name => some name | _ => none) with
  | none => return none
  | some name => return some (← c.pool.utf8 name)

def findField? (c : ClassFile) (name : String) : Option Member :=
  c.fields.find? (·.hasName c.pool name)

def findMethod? (c : ClassFile) (name : String) : Option Member :=
  c.methods.find? (·.hasName c.pool name)

end ClassFile

end ClassListing
