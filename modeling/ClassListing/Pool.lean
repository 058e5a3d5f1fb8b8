import ClassListing.Fault

namespace ClassListing

structure Pool where
  slots : Array (Option Constant)
  deriving DecidableEq, Repr

namespace Pool

def size (pool : Pool) : Nat := pool.slots.size

def isEmpty (pool : Pool) : Bool := pool.size ≤ 1

def get? (pool : Pool) (index : UInt16) : Option Constant :=
  pool.slots[index.toNat]?.join

def entries (pool : Pool) : List (UInt16 × Constant) :=
  pool.slots.toList.zipIdx.filterMap fun slot =>
    slot.1.map fun constant => (slot.2.toUInt16, constant)

def get (pool : Pool) (index : UInt16) : Except Fault Constant :=
  match pool.get? index with
  | some constant => .ok constant
  | none => .error (.badIndex index)

def require (pool : Pool) (role : Role) (index : UInt16) : Except Fault Constant := do
  let constant ← pool.get index
  if role.admits constant.kind then return constant
  else throw (.wrongKind index role constant.kind)

def utf8 (pool : Pool) (index : UInt16) : Except Fault String := do
  match ← pool.get index with
  | .utf8 text => return text
  | other => throw (.wrongKind index .text other.kind)

/-- The internal name of a class, such as `java/lang/Object`. -/
def className (pool : Pool) (index : UInt16) : Except Fault String := do
  match ← pool.get index with
  | .classRef name => pool.utf8 name
  | other => throw (.wrongKind index .classRef other.kind)

structure Signature where
  name : String
  descriptor : String
  deriving DecidableEq, Repr

def signature (pool : Pool) (index : UInt16) : Except Fault Signature := do
  match ← pool.get index with
  | .nameAndType name descriptor => return ⟨← pool.utf8 name, ← pool.utf8 descriptor⟩
  | other => throw (.wrongKind index .nameAndType other.kind)

structure MemberRef where
  owner : String
  signature : Signature
  deriving DecidableEq, Repr

/-- The signature is looked up before the class. -/
def member (pool : Pool) (index : UInt16) : Except Fault MemberRef := do
  match ← pool.get index with
  | .member _ owner nameAndType =>
    let signature ← pool.signature nameAndType
    return ⟨← pool.className owner, signature⟩
  | other => throw (.wrongKind index .member other.kind)

/-- A handle's target is looked up before its kind is judged. -/
def checkHandle (pool : Pool) (index : UInt16) (code : UInt8) (target : UInt16) :
    Except Fault Unit := do
  let _ ← pool.get target
  match ReferenceKind.ofCode? code with
  | some kind => do
    let _ ← pool.require kind.role target
  | none => throw (.badReferenceKind index code)

def checkEntry (pool : Pool) (index : UInt16) : Constant → Except Fault Unit
  | .utf8 _ | .integer _ | .float _ | .long _ | .double _ => return
  | .classRef name | .module name | .package name => do
    let _ ← pool.utf8 name
  | .string text => do
    let _ ← pool.utf8 text
  | .methodType descriptor => do
    let _ ← pool.utf8 descriptor
  | .nameAndType name descriptor => do
    let _ ← pool.utf8 name
    let _ ← pool.utf8 descriptor
  | .member _ _ _ => do
    let _ ← pool.member index
  | .dynamic _ nameAndType | .invokeDynamic _ nameAndType => do
    let _ ← pool.signature nameAndType
  | .methodHandle code target => pool.checkHandle index code target

def validate (pool : Pool) : Except Fault Unit :=
  pool.entries.forM fun entry => pool.checkEntry entry.1 entry.2

end Pool

end ClassListing
