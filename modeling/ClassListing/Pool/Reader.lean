import ClassListing.Bytes.Reader
import ClassListing.Pool
import ClassListing.Text.ModifiedUtf8

namespace ClassListing.Pool

open Reader

def readConstant (index : UInt16) : Reader Constant := do
  let tag ← byte
  match ConstantKind.ofTag? tag with
  | none => fail (.unknownTag tag index)
  | some .utf8 =>
    let length ← word16
    let bytes ← take length.toNat
    match ModifiedUtf8.decode bytes with
    | some text => return .utf8 text
    | none => fail (.malformedText index)
  | some .integer => return .integer (← word32).toInt32
  | some .float => return .float (← word32)
  | some .long => return .long (← word64).toInt64
  | some .double => return .double (← word64)
  | some .classRef => return .classRef (← word16)
  | some .string => return .string (← word16)
  | some (.member kind) => return .member kind (← word16) (← word16)
  | some .nameAndType => return .nameAndType (← word16) (← word16)
  | some .methodHandle => return .methodHandle (← byte) (← word16)
  | some .methodType => return .methodType (← word16)
  | some .dynamic => return .dynamic (← word16) (← word16)
  | some .invokeDynamic => return .invokeDynamic (← word16) (← word16)
  | some .module => return .module (← word16)
  | some .package => return .package (← word16)

/-- The slots from `index` on, of which there are `room`. A wide entry has to fit. -/
def readSlots (room index : Nat) : Reader (List (Option Constant)) :=
  match room with
  | 0 => return []
  | room + 1 => do
    let constant ← readConstant index.toUInt16
    if constant.kind.isWide then
      match room with
      | 0 => fail (.badIndex index.toUInt16)
      | room + 1 => return some constant :: none :: (← readSlots room (index + 2))
    else return some constant :: (← readSlots room (index + 1))

/-- The declared count is one more than the last index; a count of zero stands for one. -/
def read : Reader Pool := do
  let count ← word16
  let slots ← readSlots (count.toNat - 1) 1
  let pool : Pool := ⟨(none :: slots).toArray⟩
  check pool.validate
  return pool

end ClassListing.Pool
