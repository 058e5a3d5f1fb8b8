import ClassListing.Listing.Class
import ClassListing.Text.Blank

namespace ClassListing

/-- How a run ends. A crash may carry a text. -/
inductive Outcome where
  | text (text : String)
  | fault (fault : Fault)
  | error (message : String)
  | crash (payload : Option String)
  deriving DecidableEq, Repr

structure Engine where
  name : String
  description : String := "Custom disassembly engine"
  run : Bytes → Outcome

structure Failure where
  message : String
  deriving DecidableEq, Repr

/-- The message, or `otherwise` when nothing of it can be seen. -/
def Failure.ofMessage (message otherwise : String) : Failure :=
  ⟨if isBlankText message then otherwise else message⟩

namespace Engine

def namelessError : String := "classtrace_core::services::disassembly::EngineError"

def crashText (engine : Engine) : String := "engine '" ++ engine.name ++ "' panicked"

def conclude (engine : Engine) : Outcome → Except Failure String
  | .text text => .ok text
  | .fault fault => .error (.ofMessage fault.message namelessError)
  | .error message => .error (.ofMessage message namelessError)
  | .crash payload => .error (.ofMessage (payload.getD "") engine.crashText)

def render (engine : Engine) (bytes : Bytes) : Except Failure String :=
  engine.conclude (engine.run bytes)

def namedListing (options : Options) (bytes : Bytes) : Except Fault String := do
  let c ← ClassFile.read bytes
  let _ ← c.className
  c.listing options

def classFile (options : Options) : Engine where
  name := "classfile"
  description := "Built-in class-file parser with javap-style listings"
  run bytes :=
    match namedListing options bytes with
    | .ok text => .text text
    | .error fault => .fault fault

end Engine

end ClassListing
