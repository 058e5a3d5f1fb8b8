namespace ClassListing

inductive Declared where
  | classFile
  | field
  | method
  | innerClass
  deriving DecidableEq, Repr

structure AccessFlag where
  mask : UInt16
  name : String
  keyword : Option String
  deriving DecidableEq, Repr

namespace AccessFlag

def pub : AccessFlag := ⟨0x0001, "ACC_PUBLIC", some "public"⟩
def priv : AccessFlag := ⟨0x0002, "ACC_PRIVATE", some "private"⟩
def prot : AccessFlag := ⟨0x0004, "ACC_PROTECTED", some "protected"⟩
def static : AccessFlag := ⟨0x0008, "ACC_STATIC", some "static"⟩
def final : AccessFlag := ⟨0x0010, "ACC_FINAL", some "final"⟩
def super : AccessFlag := ⟨0x0020, "ACC_SUPER", none⟩
def synchronized : AccessFlag := ⟨0x0020, "ACC_SYNCHRONIZED", some "synchronized"⟩
def volatile : AccessFlag := ⟨0x0040, "ACC_VOLATILE", some "volatile"⟩
def bridge : AccessFlag := ⟨0x0040, "ACC_BRIDGE", none⟩
def transient : AccessFlag := ⟨0x0080, "ACC_TRANSIENT", some "transient"⟩
def varargs : AccessFlag := ⟨0x0080, "ACC_VARARGS", none⟩
def native : AccessFlag := ⟨0x0100, "ACC_NATIVE", some "native"⟩
def interface : AccessFlag := ⟨0x0200, "ACC_INTERFACE", none⟩
def abstract : AccessFlag := ⟨0x0400, "ACC_ABSTRACT", some "abstract"⟩
def strict : AccessFlag := ⟨0x0800, "ACC_STRICT", some "strictfp"⟩
def synthetic : AccessFlag := ⟨0x1000, "ACC_SYNTHETIC", none⟩
def annotationType : AccessFlag := ⟨0x2000, "ACC_ANNOTATION", none⟩
def enum : AccessFlag := ⟨0x4000, "ACC_ENUM", none⟩
def module : AccessFlag := ⟨0x8000, "ACC_MODULE", none⟩

def isSet (flag : AccessFlag) (flags : UInt16) : Bool :=
  flags &&& flag.mask != 0

end AccessFlag

namespace Declared

open AccessFlag

def flags : Declared → List AccessFlag
  | classFile =>
    [pub, final, super, interface, abstract, synthetic, annotationType, enum, module]
  | field =>
    [pub, priv, prot, static, final, volatile, transient, synthetic, enum]
  | method =>
    [pub, priv, prot, static, final, synchronized, bridge, varargs, native,
      abstract, strict, synthetic]
  | innerClass =>
    [pub, priv, prot, static, final, interface, abstract, synthetic,
      annotationType, enum]

/-- Interfaces are abstract without saying so. -/
def leavesUnsaid (declared : Declared) (word : UInt16) (flag : AccessFlag) : Bool :=
  flag == abstract && interface.isSet word && (declared == classFile || declared == innerClass)

end Declared

def accessFlags (declared : Declared) (word : UInt16) : List AccessFlag :=
  declared.flags.filter (·.isSet word)

def flagNames (declared : Declared) (word : UInt16) : List String :=
  (accessFlags declared word).map (·.name)

def modifiers (declared : Declared) (word : UInt16) : String :=
  let said := (accessFlags declared word).filter (!declared.leavesUnsaid word ·)
  String.join ((said.filterMap (·.keyword)).map (· ++ " "))

inductive ClassKind where
  | module
  | annotationType
  | interface
  | enum
  | plain
  deriving DecidableEq, Repr

namespace ClassKind

/-- Of several marks on one class, a module's counts first and an enumeration's last. -/
def ofFlags (word : UInt16) : ClassKind :=
  if AccessFlag.module.isSet word then module
  else if AccessFlag.annotationType.isSet word then annotationType
  else if AccessFlag.interface.isSet word then interface
  else if AccessFlag.enum.isSet word then enum
  else plain

def keyword : ClassKind → String
  | module => "module"
  | annotationType => "@interface"
  | interface => "interface"
  | enum => "enum"
  | plain => "class"

end ClassKind

end ClassListing
