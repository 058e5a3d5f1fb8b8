import ClassListing.Registry

namespace ClassListing

/-- The bytes of classes, by name. The names need not be those inside the bytes. -/
abbrev Sources := NameMap Bytes

abbrev Results := NameMap String

def disassemble (engine : Engine) (sources : Sources) : Except Failure Results :=
  sources.mapM engine.render

end ClassListing
