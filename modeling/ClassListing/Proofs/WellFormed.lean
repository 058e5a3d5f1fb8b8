import ClassListing.ClassFile
import ClassListing.Proofs.Instruction.Operands
import ClassListing.Text.ModifiedUtf8
import Mathlib.Algebra.Ring.Nat

namespace ClassListing

namespace Attribute

/-- The attribute is one of these or stands inside one of them, at any depth. -/
inductive Within (attr : Attribute) : List Attribute → Prop
  | here {attributes : List Attribute} (h : attr ∈ attributes) : Within attr attributes
  | inCode {body : CodeBody} {inside attributes : List Attribute}
      (h : code body inside ∈ attributes) (hw : Within attr inside) : Within attr attributes

theorem Within.mono {attr : Attribute} {some all : List Attribute} (h : Within attr some)
    (hsub : ∀ a ∈ some, a ∈ all) : Within attr all := by
  cases h with
  | here h => exact .here (hsub _ h)
  | inCode h hw => exact .inCode (hsub _ h) hw

theorem within_cons {attr first : Attribute} {others : List Attribute} :
    Within attr (first :: others) ↔ Within attr [first] ∨ Within attr others := by
  constructor
  · intro h
    cases h with
    | here h =>
        rcases List.mem_cons.1 h with rfl | h
        · exact .inl (.here (List.mem_singleton_self _))
        · exact .inr (.here h)
    | inCode h hw =>
        rcases List.mem_cons.1 h with rfl | h
        · exact .inl (.inCode (List.mem_singleton_self _) hw)
        · exact .inr (.inCode h hw)
  · rintro (h | h)
    · exact h.mono fun a ha => by simp_all
    · exact h.mono fun a ha => List.mem_cons_of_mem _ ha

theorem not_within_nil {attr : Attribute} : ¬Within attr [] := by
  intro h
  cases h with
  | here h => simp at h
  | inCode h => simp at h

theorem forall_within_cons {P : Attribute → Prop} {first : Attribute} {others : List Attribute} :
    (∀ attr, Within attr (first :: others) → P attr) ↔
      (∀ attr, Within attr [first] → P attr) ∧ ∀ attr, Within attr others → P attr := by
  have h (attr) := @within_cons attr first others
  simp only [h, or_imp, forall_and]

def inside : Attribute → List Attribute
  | code _ attributes => attributes
  | _ => []

theorem within_singleton {attr outer : Attribute} :
    Within attr [outer] ↔ attr = outer ∨ Within attr outer.inside := by
  constructor
  · intro h
    cases h with
    | here h => exact .inl (List.mem_singleton.1 h)
    | inCode h hw =>
        obtain rfl := List.mem_singleton.1 h
        exact .inr hw
  · rintro (rfl | h)
    · exact .here (List.mem_singleton_self _)
    · cases outer with
      | code body attributes => exact .inCode (List.mem_singleton_self _) h
      | _ => exact absurd h not_within_nil

theorem forall_within_singleton {P : Attribute → Prop} {outer : Attribute} :
    (∀ attr, Within attr [outer] → P attr) ↔ P outer ∧ ∀ attr, Within attr outer.inside → P attr := by
  simp only [within_singleton, or_imp, forall_and, forall_eq]

/-- The attribute's own references into the pool, not those of the attributes inside it. -/
def References (pool : Pool) : Attribute → Prop
  | code body _ =>
    body.code.length ≤ 65535 ∧ Instruction.decode body.code = .ok body.instructions ∧
      (∀ i ∈ body.instructions, i.References pool) ∧
      ∀ h ∈ body.handlers, h.catchType ≠ 0 → pool.HasKind [.classRef] h.catchType
  | constantValue index => pool.HasKind [.integer, .float, .long, .double, .string] index
  | exceptions classes => ∀ index ∈ classes, pool.HasKind [.classRef] index
  | sourceFile index | signature index => pool.HasKind [.utf8] index
  | localVariables rows =>
    ∀ row ∈ rows, pool.HasKind [.utf8] row.name ∧ pool.HasKind [.utf8] row.descriptor
  | innerClasses rows =>
    ∀ row ∈ rows, pool.HasKind [.classRef] row.inner ∧
      (row.outer ≠ 0 → pool.HasKind [.classRef] row.outer) ∧
      (row.name ≠ 0 → pool.HasKind [.utf8] row.name)
  | lineNumbers _ | deprecated | synthetic | unknown _ _ => True

def decodedNames : List String :=
  ["Code", "ConstantValue", "Exceptions", "SourceFile", "Signature", "LineNumberTable",
    "LocalVariableTable", "InnerClasses", "Deprecated", "Synthetic"]

mutual

def size : Attribute → Nat
  | code body attributes =>
    12 + body.code.length + 8 * body.handlers.length + sizes attributes
  | constantValue _ => 2
  | exceptions classes => 2 + 2 * classes.length
  | sourceFile _ => 2
  | signature _ => 2
  | lineNumbers rows => 2 + 4 * rows.length
  | localVariables rows => 2 + 10 * rows.length
  | innerClasses rows => 2 + 8 * rows.length
  | deprecated => 0
  | synthetic => 0
  | unknown _ info => info.length

def sizes : List Attribute → Nat
  | [] => 0
  | attr :: attributes => 6 + size attr + sizes attributes

end

/-- The attribute's own counts fit, and it is not kept unread where it has a form. -/
def CountsFit : Attribute → Prop
  | code body attributes => body.handlers.length < 65536 ∧ attributes.length < 65536
  | exceptions classes => classes.length < 65536
  | lineNumbers rows => rows.length < 65536
  | localVariables rows => rows.length < 65536
  | innerClasses rows => rows.length < 65536
  | unknown name _ => name ∉ decodedNames
  | constantValue _ | sourceFile _ | signature _ | deprecated | synthetic => True

structure Fits (pool : Pool) (attr : Attribute) : Prop where
  named : ∃ index, pool.get? index = some (.utf8 attr.name)
  counts : attr.CountsFit
  size_lt : attr.size < 2 ^ 32

end Attribute

namespace Pool

/-- Slots that are filled without a gap: a wide entry is followed by an empty slot. -/
inductive Filled : List (Option Constant) → Prop
  | nil : Filled []
  | narrow {constant : Constant} {slots : List (Option Constant)}
      (h : constant.kind.isWide = false) (hs : Filled slots) : Filled (some constant :: slots)
  | wide {constant : Constant} {slots : List (Option Constant)}
      (h : constant.kind.isWide = true) (hs : Filled slots) : Filled (some constant :: none :: slots)

structure WellFormed (pool : Pool) : Prop where
  filled : ∃ slots, pool.slots.toList = none :: slots ∧ Filled slots
  size_lt : pool.size < 65536
  texts : ∀ index text, pool.get? index = some (.utf8 text) →
    (ModifiedUtf8.encode text).length < 65536
  valid : pool.Valid

end Pool

namespace ClassFile

def Holds (c : ClassFile) (attr : Attribute) : Prop :=
  attr.Within c.attributes ∨ ∃ member ∈ c.fields ++ c.methods, attr.Within member.attributes

structure References (c : ClassFile) : Prop where
  thisClass : c.pool.HasKind [.classRef] c.thisClass
  superClass : c.superClass ≠ 0 → c.pool.HasKind [.classRef] c.superClass
  interfaces : ∀ index ∈ c.interfaces, c.pool.HasKind [.classRef] index
  members : ∀ member ∈ c.fields ++ c.methods,
    c.pool.HasKind [.utf8] member.name ∧ c.pool.HasKind [.utf8] member.descriptor
  attributes : ∀ attr, c.Holds attr → attr.References c.pool

structure WellFormed (c : ClassFile) : Prop extends c.References where
  version : 45 ≤ c.major ∧ c.major ≤ 70
  pool : c.pool.WellFormed
  interfaces_length : c.interfaces.length < 65536
  fields_length : c.fields.length < 65536
  methods_length : c.methods.length < 65536
  attributes_length : c.attributes.length < 65536
  member_attributes_length : ∀ member ∈ c.fields ++ c.methods, member.attributes.length < 65536
  attributes_fit : ∀ attr, c.Holds attr → attr.Fits c.pool

end ClassFile

end ClassListing
