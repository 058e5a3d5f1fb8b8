namespace ClassListing

inductive MemberKind where
  | field
  | method
  | interfaceMethod
  deriving DecidableEq, Repr

/-- A floating-point value is kept as its bits, so that values are equal when they are the same
in every bit. -/
inductive Constant where
  | utf8 (text : String)
  | integer (value : Int32)
  | float (bits : UInt32)
  | long (value : Int64)
  | double (bits : UInt64)
  | classRef (name : UInt16)
  | string (text : UInt16)
  | member (kind : MemberKind) (owner nameAndType : UInt16)
  | nameAndType (name descriptor : UInt16)
  | methodHandle (kind : UInt8) (target : UInt16)
  | methodType (descriptor : UInt16)
  | dynamic (bootstrap nameAndType : UInt16)
  | invokeDynamic (bootstrap nameAndType : UInt16)
  | module (name : UInt16)
  | package (name : UInt16)
  deriving DecidableEq, Repr

inductive ConstantKind where
  | utf8
  | integer
  | float
  | long
  | double
  | classRef
  | string
  | member (kind : MemberKind)
  | nameAndType
  | methodHandle
  | methodType
  | dynamic
  | invokeDynamic
  | module
  | package
  deriving DecidableEq, Repr

namespace ConstantKind

def name : ConstantKind → String
  | utf8 => "Utf8"
  | integer => "Integer"
  | float => "Float"
  | long => "Long"
  | double => "Double"
  | classRef => "Class"
  | string => "String"
  | member .field => "Fieldref"
  | member .method => "Methodref"
  | member .interfaceMethod => "InterfaceMethodref"
  | nameAndType => "NameAndType"
  | methodHandle => "MethodHandle"
  | methodType => "MethodType"
  | dynamic => "Dynamic"
  | invokeDynamic => "InvokeDynamic"
  | module => "Module"
  | package => "Package"

def operandLabel : ConstantKind → String
  | integer => "int"
  | float => "float"
  | long => "long"
  | double => "double"
  | classRef => "class"
  | member .field => "Field"
  | member .method => "Method"
  | member .interfaceMethod => "InterfaceMethod"
  | kind => kind.name

def tag : ConstantKind → UInt8
  | utf8 => 1
  | integer => 3
  | float => 4
  | long => 5
  | double => 6
  | classRef => 7
  | string => 8
  | member .field => 9
  | member .method => 10
  | member .interfaceMethod => 11
  | nameAndType => 12
  | methodHandle => 15
  | methodType => 16
  | dynamic => 17
  | invokeDynamic => 18
  | module => 19
  | package => 20

def all : List ConstantKind :=
  [utf8, integer, float, long, double, classRef, string, member .field, member .method,
    member .interfaceMethod, nameAndType, methodHandle, methodType, dynamic, invokeDynamic,
    module, package]

def ofTag? (tag : UInt8) : Option ConstantKind :=
  all.find? (·.tag == tag)

/-- A wide entry takes two slots of the pool. -/
def isWide : ConstantKind → Bool
  | long | double => true
  | _ => false

/-- Literals hold a value; all other entries refer to entries. -/
def isLiteral : ConstantKind → Bool
  | utf8 | integer | float | long | double => true
  | _ => false

end ConstantKind

namespace Constant

def kind : Constant → ConstantKind
  | utf8 _ => .utf8
  | integer _ => .integer
  | float _ => .float
  | long _ => .long
  | double _ => .double
  | classRef _ => .classRef
  | string _ => .string
  | member kind _ _ => .member kind
  | nameAndType _ _ => .nameAndType
  | methodHandle _ _ => .methodHandle
  | methodType _ => .methodType
  | dynamic _ _ => .dynamic
  | invokeDynamic _ _ => .invokeDynamic
  | module _ => .module
  | package _ => .package

def slots (constant : Constant) : Nat :=
  if constant.kind.isWide then 2 else 1

end Constant

inductive Role where
  | text
  | classRef
  | nameAndType
  | member
  | field
  | method
  | anyMethod
  | interfaceMethod
  | initialValue
  | loadable
  | wideLoadable
  | callSite
  deriving DecidableEq, Repr

namespace Role

def admits : Role → ConstantKind → Bool
  | text, .utf8 => true
  | classRef, .classRef => true
  | nameAndType, .nameAndType => true
  | member, .member _ => true
  | field, .member .field => true
  | method, .member .method => true
  | anyMethod, .member .method => true
  | anyMethod, .member .interfaceMethod => true
  | interfaceMethod, .member .interfaceMethod => true
  | initialValue, .integer => true
  | initialValue, .float => true
  | initialValue, .long => true
  | initialValue, .double => true
  | initialValue, .string => true
  | loadable, .integer => true
  | loadable, .float => true
  | loadable, .string => true
  | loadable, .classRef => true
  | loadable, .methodType => true
  | loadable, .methodHandle => true
  | loadable, .dynamic => true
  | wideLoadable, .long => true
  | wideLoadable, .double => true
  | wideLoadable, .dynamic => true
  | callSite, .invokeDynamic => true
  | _, _ => false

def label : Role → String
  | text => "Utf8"
  | classRef => "Class"
  | nameAndType => "NameAndType"
  | member => "Fieldref, Methodref or InterfaceMethodref"
  | field => "Fieldref"
  | method => "Methodref"
  | anyMethod => "Methodref or InterfaceMethodref"
  | interfaceMethod => "InterfaceMethodref"
  | initialValue => "a loadable constant"
  | loadable => "a loadable constant"
  | wideLoadable => "Long, Double or Dynamic"
  | callSite => "InvokeDynamic"

end Role

inductive ReferenceKind where
  | getField
  | getStatic
  | putField
  | putStatic
  | invokeVirtual
  | invokeStatic
  | invokeSpecial
  | newInvokeSpecial
  | invokeInterface
  deriving DecidableEq, Repr

namespace ReferenceKind

def ofCode? (code : UInt8) : Option ReferenceKind :=
  if code = 1 then some getField
  else if code = 2 then some getStatic
  else if code = 3 then some putField
  else if code = 4 then some putStatic
  else if code = 5 then some invokeVirtual
  else if code = 6 then some invokeStatic
  else if code = 7 then some invokeSpecial
  else if code = 8 then some newInvokeSpecial
  else if code = 9 then some invokeInterface
  else none

def name : ReferenceKind → String
  | getField => "REF_getField"
  | getStatic => "REF_getStatic"
  | putField => "REF_putField"
  | putStatic => "REF_putStatic"
  | invokeVirtual => "REF_invokeVirtual"
  | invokeStatic => "REF_invokeStatic"
  | invokeSpecial => "REF_invokeSpecial"
  | newInvokeSpecial => "REF_newInvokeSpecial"
  | invokeInterface => "REF_invokeInterface"

def role : ReferenceKind → Role
  | getField | getStatic | putField | putStatic => .field
  | invokeVirtual | newInvokeSpecial => .method
  | invokeStatic | invokeSpecial => .anyMethod
  | invokeInterface => .interfaceMethod

end ReferenceKind

/-- The name of a handle's kind as it is listed, also for a code without a meaning. -/
def referenceKindName (code : UInt8) : String :=
  match ReferenceKind.ofCode? code with
  | some kind => kind.name
  | none => "REF_unknown"

end ClassListing
