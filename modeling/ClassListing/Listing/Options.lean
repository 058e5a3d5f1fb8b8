namespace ClassListing

structure Options where
  constantPool : Bool := true
  code : Bool := true
  debugInfo : Bool := true
  deriving DecidableEq, Repr

def isDebugAttribute (name : String) : Bool :=
  name == "SourceFile" || name == "SourceDebugExtension" || name == "LineNumberTable" ||
    name == "LocalVariableTable" || name == "LocalVariableTypeTable"

def Options.shows (options : Options) (name : String) : Bool :=
  options.debugInfo || !isDebugAttribute name

end ClassListing
