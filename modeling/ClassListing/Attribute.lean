import ClassListing.Bytes.Reader
import ClassListing.Instruction

namespace ClassListing

/-- Covers the code from `start` to before `stop`. The type 0 catches everything. -/
structure Handler where
  start : UInt16
  stop : UInt16
  entry : UInt16
  catchType : UInt16
  deriving DecidableEq, Repr

structure LineNumber where
  start : UInt16
  line : UInt16
  deriving DecidableEq, Repr

structure LocalVariable where
  start : UInt16
  length : UInt16
  name : UInt16
  descriptor : UInt16
  slot : UInt16
  deriving DecidableEq, Repr

/-- The outer class is 0 for a local or anonymous class, the name is 0 for an anonymous one. -/
structure InnerClass where
  inner : UInt16
  outer : UInt16
  name : UInt16
  access : UInt16
  deriving DecidableEq, Repr

structure CodeBody where
  maxStack : UInt16
  maxLocals : UInt16
  code : Bytes
  instructions : List Instruction
  handlers : List Handler
  deriving DecidableEq, Repr

inductive Attribute where
  | code (body : CodeBody) (attributes : List Attribute)
  | constantValue (index : UInt16)
  | exceptions (classes : List UInt16)
  | sourceFile (name : UInt16)
  | signature (text : UInt16)
  | lineNumbers (rows : List LineNumber)
  | localVariables (rows : List LocalVariable)
  | innerClasses (rows : List InnerClass)
  | deprecated
  | synthetic
  | unknown (name : String) (info : Bytes)
  deriving Repr

namespace Attribute

def name : Attribute → String
  | code _ _ => "Code"
  | constantValue _ => "ConstantValue"
  | exceptions _ => "Exceptions"
  | sourceFile _ => "SourceFile"
  | signature _ => "Signature"
  | lineNumbers _ => "LineNumberTable"
  | localVariables _ => "LocalVariableTable"
  | innerClasses _ => "InnerClasses"
  | deprecated => "Deprecated"
  | synthetic => "Synthetic"
  | unknown name _ => name

def isKnown : Attribute → Bool
  | unknown _ _ => false
  | _ => true

def allLineNumbers (attributes : List Attribute) : List LineNumber :=
  attributes.flatMap fun
    | lineNumbers rows => rows
    | _ => []

def allLocalVariables (attributes : List Attribute) : List LocalVariable :=
  attributes.flatMap fun
    | localVariables rows => rows
    | _ => []

end Attribute

end ClassListing
