import ClassListing.Batch

namespace ClassListing

structure Workspace where
  sources : Sources
  registry : Registry

inductive Operation where
  | insert (name : String) (bytes : Bytes)
  | replace (bindings : List (String × Bytes))
  | register (engine : Engine)
  | get (name : String)
  | contains (name : String)
  | size
  | entries
  | hasEngine (name : String)
  | resolve (name : String)
  | engines
  | disassemble (engine : String)

inductive Reply where
  | done
  | bytes (found : Option Bytes)
  | truth (value : Bool)
  | size (size : Nat) (isEmpty : Bool)
  | entries (entries : List (String × Bytes))
  | registered (name : String)
  | engine (found : Except UnknownEngine Engine)
  | engines (found : List Engine)
  | batch (outcome : Except UnknownEngine (Except Failure Results))

namespace Workspace

def disassemble (w : Workspace) (engine : String) :
    Except UnknownEngine (Except Failure Results) :=
  match w.registry.resolve engine with
  | .ok engine => .ok (ClassListing.disassemble engine w.sources)
  | .error unknown => .error unknown

def after (w : Workspace) : Operation → Workspace
  | .insert name bytes => { w with sources := w.sources.insert name bytes }
  | .replace bindings => { w with sources := .ofList bindings }
  | .register engine => { w with registry := w.registry.register engine }
  | .get _ | .contains _ | .size | .entries => w
  | .hasEngine _ | .resolve _ | .engines | .disassemble _ => w

/-- What an operation says of the workspace it meets. An insertion gives the bytes that it
replaces. -/
def reply (w : Workspace) : Operation → Reply
  | .insert name _ => .bytes (w.sources.get? name)
  | .replace _ => .done
  | .register engine => .registered engine.name
  | .get name => .bytes (w.sources.get? name)
  | .contains name => .truth (w.sources.contains name)
  | .size => .size w.sources.size w.sources.isEmpty
  | .entries => .entries w.sources.entries
  | .hasEngine name => .truth (w.registry.get? name).isSome
  | .resolve name => .engine (w.registry.resolve name)
  | .engines => .engines w.registry.toList
  | .disassemble engine => .batch (w.disassemble engine)

def run (w : Workspace) : List Operation → List (Reply × Workspace)
  | [] => []
  | operation :: rest =>
    let next := w.after operation
    (w.reply operation, next) :: next.run rest

end Workspace

end ClassListing
