import ClassListing.Attribute.Reader
import ClassListing.ClassFile
import ClassListing.Pool.Reader

namespace ClassListing

open Reader

def Attribute.readAll (pool : Pool) : Reader (List Attribute) := do
  let count ← word16
  Attribute.readFrames pool count.toNat

def Member.read (pool : Pool) : Reader Member := do
  let access ← word16
  let name ← Attribute.textIndex pool
  let descriptor ← Attribute.textIndex pool
  let attributes ← Attribute.readAll pool
  return ⟨access, name, descriptor, attributes⟩

namespace ClassFile

def magic : UInt32 := 0xCAFEBABE

def oldestMajor : UInt16 := 45

def newestMajor : UInt16 := 70

def readMagic : Reader Unit := do
  let word ← word32
  if word = magic then return else fail (.badMagic word)

def readVersion : Reader (UInt16 × UInt16) := do
  let minor ← word16
  let major ← word16
  if oldestMajor ≤ major ∧ major ≤ newestMajor then return (minor, major)
  else fail (.unsupportedVersion major minor)

def readClass : Reader ClassFile := do
  readMagic
  let (minor, major) ← readVersion
  let pool ← Pool.read
  let access ← word16
  let thisClass ← Attribute.classIndex pool
  let superClass ← Attribute.optionalIndex pool.className
  let interfaces ← counted (Attribute.classIndex pool)
  let fields ← counted (Member.read pool)
  let methods ← counted (Member.read pool)
  let attributes ← Attribute.readAll pool
  return ⟨minor, major, pool, access, thisClass, superClass, interfaces, fields, methods,
    attributes⟩

def read (bytes : Bytes) : Except Fault ClassFile :=
  match readClass (.start bytes) with
  | .error fault => .error fault
  | .ok (c, rest) =>
    if rest.rest.isEmpty then .ok c else .error (.trailingBytes rest.rest.length)

end ClassFile

end ClassListing
