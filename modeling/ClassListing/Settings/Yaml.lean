import ClassListing.Settings
import ClassListing.Yaml.Node

namespace ClassListing.Settings

open ClassListing.Yaml

/-- The numbers that names stand for, one for each name, and the nodes that numbers stand for, the
latest first. -/
structure Anchors where
  numbers : List (String × Nat) := []
  nodes : List (Nat × Node) := []

namespace Anchors

def bind (anchors : Anchors) (props : Properties) (node : Node) : Anchors :=
  match props.anchor with
  | some name =>
    let number := anchors.numbers.length
    ⟨(name, number) :: anchors.numbers.filter (·.1 != name), (number, node) :: anchors.nodes⟩
  | none => anchors

mutual

/-- The anchors after a node. An alias has to have a number by then. -/
def after? (anchors : Anchors) : Node → Option Anchors
  | .alias name => if (anchors.numbers.lookup name).isSome then some anchors else none
  | .scalar props style text => some (anchors.bind props (.scalar props style text))
  | .sequence props items => afterItems? (anchors.bind props (.sequence props [])) items
  | .mapping props members => afterMembers? (anchors.bind props (.mapping props [])) members

def afterItems? (anchors : Anchors) : List Node → Option Anchors
  | [] => some anchors
  | item :: items => do
    let anchors ← anchors.after? item
    afterItems? anchors items

def afterMembers? (anchors : Anchors) : List (Node × Node) → Option Anchors
  | [] => some anchors
  | (key, value) :: members => do
    let anchors ← anchors.after? key
    let anchors ← anchors.after? value
    afterMembers? anchors members

end

end Anchors

inductive Operand where
  | direct (node : Node)
  | aliased (number : Nat)

def Operand.of? (anchors : Anchors) : Node → Option Operand
  | .alias name => (anchors.numbers.lookup name).map .aliased
  | node => some (.direct node)

def Operand.node? (anchors : Anchors) : Operand → Option Node
  | .direct node => some node
  | .aliased number => anchors.nodes.lookup number

def operands? (anchors : Anchors) :
    List (Node × Node) → Option (List (Operand × Operand) × Anchors)
  | [] => some ([], anchors)
  | (key, value) :: members => do
    let keyOperand ← Operand.of? anchors key
    let anchors ← anchors.after? key
    let valueOperand ← Operand.of? anchors value
    let anchors ← anchors.after? value
    let (others, anchors) ← operands? anchors members
    return ((keyOperand, valueOperand) :: others, anchors)

def truthOfText? (text : String) : Option Bool :=
  if text = "true" ∨ text = "True" ∨ text = "TRUE" then some true
  else if text = "false" ∨ text = "False" ∨ text = "FALSE" then some false
  else none

def truthTag : Octets := asciiOctets "tag:yaml.org,2002:bool"

/-- Quoted texts are not true or false, and literal ones only with the tag that says so. -/
def truth? : Node → Option Bool
  | .scalar _ .plain text => truthOfText? text
  | .scalar props .literal text => if props.tag = some truthTag then truthOfText? text else none
  | _ => none

def yamlMember? (anchors : Anchors) (key value : Operand) : Option (String × Option Bool) := do
  match ← key.node? anchors with
  | .scalar _ _ name => return (name, truth? (← value.node? anchors))
  | _ => none

/-- The names and truth values of a document. One that is left out or empty gives no names. -/
def yamlOutline? : Option Node → Option (List (String × Option Bool))
  | none => some []
  | some (.scalar _ .plain text) => if text.isEmpty then some [] else none
  | some (.mapping props members) => do
    let (operands, anchors) ← operands? (({} : Anchors).bind props (.mapping props [])) members
    operands.mapM fun (key, value) => yamlMember? anchors key value
  | some _ => none

def ofYaml? (text : String) : Option Options := do
  let tokens ← tokens? text
  let node ← document? tokens
  let members ← yamlOutline? node
  Outline.byName? members

end ClassListing.Settings
