import ClassListing.Listing.Class
import ClassListing.Proofs.Checks
import ClassListing.Proofs.Text.Clean
import Mathlib.Algebra.Ring.Nat

namespace ClassListing

structure Plan where
  rows : Nat
  raw : List String
  deriving DecidableEq, Repr

namespace Plan

def empty : Plan := ⟨0, []⟩

def row (raw : List String) : Plan := ⟨1, raw⟩

instance : Append Plan := ⟨fun o p => ⟨o.rows + p.rows, o.raw ++ p.raw⟩⟩

def sum (parts : List Plan) : Plan := ⟨(parts.map rows).sum, parts.flatMap raw⟩

theorem rows_append (o p : Plan) : (o ++ p).rows = o.rows + p.rows := rfl

theorem raw_append (o p : Plan) : (o ++ p).raw = o.raw ++ p.raw := rfl

theorem rows_sum_cons (o : Plan) (parts : List Plan) : (sum (o :: parts)).rows = o.rows + (sum parts).rows :=
  List.sum_cons

theorem raw_sum_cons (o : Plan) (parts : List Plan) : (sum (o :: parts)).raw = o.raw ++ (sum parts).raw :=
  List.flatMap_cons

end Plan

namespace Pool

def textAt (pool : Pool) (index : UInt16) : String :=
  match pool.get? index with
  | some (.utf8 text) => text
  | _ => ""

def nameAt (pool : Pool) (index : UInt16) : String :=
  match pool.get? index with
  | some (.classRef name) => pool.textAt name
  | _ => ""

def signatureTexts (pool : Pool) (index : UInt16) : List String :=
  match pool.get? index with
  | some (.nameAndType name descriptor) => [pool.textAt name, pool.textAt descriptor]
  | _ => []

def memberTexts (pool : Pool) (index : UInt16) : List String :=
  match pool.get? index with
  | some (.member _ owner nameAndType) => pool.nameAt owner :: pool.signatureTexts nameAndType
  | _ => []

/-- The texts that the description of an entry holds as they are. Strings are escaped there. -/
def describedTexts (pool : Pool) (index : UInt16) : List String :=
  match pool.get? index with
  | some (.classRef name) | some (.methodType name) | some (.module name) | some (.package name) =>
    [pool.textAt name]
  | some (.member _ _ _) => pool.memberTexts index
  | some (.nameAndType _ _) => pool.signatureTexts index
  | some (.methodHandle _ target) => pool.memberTexts target
  | some (.dynamic _ nameAndType) | some (.invokeDynamic _ nameAndType) =>
    pool.signatureTexts nameAndType
  | _ => []

def plan (pool : Pool) : Plan :=
  ⟨pool.entries.length + 2, pool.entries.flatMap fun entry =>
    if entry.2.kind.isLiteral then [] else pool.describedTexts entry.1⟩

end Pool

def Instruction.plan (pool : Pool) (i : Instruction) : Plan :=
  match i.operands with
  | .constant index | .invokeInterface index _ | .invokeDynamic index | .multiNewArray index _ =>
    .row (pool.describedTexts index)
  | .tableSwitch _ _ _ targets => ⟨targets.length + 3, []⟩
  | .lookupSwitch _ cases => ⟨cases.length + 3, []⟩
  | _ => .row []

namespace Handler

def texts (pool : Pool) (h : Handler) : List String :=
  if h.catchType = 0 then [] else [pool.nameAt h.catchType]

def plan (pool : Pool) (handlers : List Handler) : Plan :=
  if handlers.isEmpty then .empty else ⟨handlers.length + 2, handlers.flatMap (texts pool)⟩

end Handler

def LocalVariable.texts (pool : Pool) (v : LocalVariable) : List String :=
  [pool.textAt v.name, pool.textAt v.descriptor]

def InnerClass.texts (pool : Pool) (entry : InnerClass) : List String :=
  pool.nameAt entry.inner :: (if entry.name = 0 then [] else [pool.textAt entry.name]) ++
    if entry.outer = 0 then [] else [pool.nameAt entry.outer]

namespace Attribute

def planInCode (pool : Pool) (options : Options) : Attribute → Plan
  | .lineNumbers rows => if options.debugInfo then ⟨rows.length + 1, []⟩ else .empty
  | .localVariables rows =>
    if options.debugInfo then ⟨rows.length + 2, rows.flatMap (LocalVariable.texts pool)⟩ else .empty
  | .unknown name _ => if options.shows name then .row [name] else .empty
  | other => if options.shows other.name then .row [] else .empty

def commentPlan (pool : Pool) (options : Options) (onMember : Bool) : Attribute → Plan
  | .signature text => .row [pool.textAt text]
  | .deprecated | .synthetic => .row []
  | .unknown name _ => if onMember && options.shows name then .row [name] else .empty
  | _ => .empty

def commentsPlan (pool : Pool) (options : Options) (onMember : Bool)
    (attributes : List Attribute) : Plan :=
  .sum (attributes.map (commentPlan pool options onMember))

end Attribute

def CodeBody.plan (pool : Pool) (options : Options) (body : CodeBody)
    (attributes : List Attribute) : Plan :=
  .row [] ++ .sum (body.instructions.map (Instruction.plan pool)) ++
    Handler.plan pool body.handlers ++
    .sum (attributes.map (Attribute.planInCode pool options))

namespace Member

def initialTexts (pool : Pool) : Attribute → List String
  | .constantValue index => pool.describedTexts index
  | _ => []

def fieldPlan (pool : Pool) (options : Options) (field : Member) : Plan :=
  .row [] ++ Attribute.commentsPlan pool options true field.attributes ++
    .row (pool.textAt field.descriptor :: pool.textAt field.name ::
      field.attributes.flatMap (initialTexts pool))

def thrownTexts (pool : Pool) : Attribute → List String
  | .exceptions classes => classes.map pool.nameAt
  | _ => []

def bodyPlan (pool : Pool) (options : Options) (method : Member) : Plan :=
  if options.code then
    match method.code? with
    | some (body, attributes) => body.plan pool options attributes
    | none => .empty
  else .empty

def methodPlan (pool : Pool) (options : Options) (method : Member) : Plan :=
  .row [] ++ Attribute.commentsPlan pool options true method.attributes ++
    .row (pool.textAt method.name :: pool.textAt method.descriptor ::
      method.attributes.flatMap (thrownTexts pool)) ++
    method.bodyPlan pool options

def blockPlan (members : List Plan) : Plan :=
  ⟨2, []⟩ ++ if members.isEmpty then .row [] else ⟨members.length - 1, []⟩ ++ .sum members

end Member

namespace ClassFile

def sourcePlan (options : Options) (c : ClassFile) : Plan :=
  if options.debugInfo then
    match c.attributes.findSome? (fun | .sourceFile name => some name | _ => none) with
    | some name => .row [c.pool.textAt name]
    | none => .empty
  else .empty

def parentTexts (c : ClassFile) : List String :=
  c.interfaces.map c.pool.nameAt ++
    match ClassKind.ofFlags c.access with
    | .interface | .annotationType => []
    | _ => if c.superClass = 0 then [] else [c.pool.nameAt c.superClass]

def attributePlan (pool : Pool) : Attribute → Plan
  | .innerClasses entries => ⟨entries.length + 1, entries.flatMap (InnerClass.texts pool)⟩
  | .unknown name _ => .row [name]
  | _ => .empty

def headerPlan (options : Options) (c : ClassFile) : Plan :=
  ⟨2, []⟩ ++ Attribute.commentsPlan c.pool options false c.attributes ++ c.sourcePlan options ++
    .row (c.pool.nameAt c.thisClass :: c.parentTexts) ++
    .sum (c.attributes.map (attributePlan c.pool))

def plan (options : Options) (c : ClassFile) : Plan :=
  c.headerPlan options ++ (if options.constantPool then c.pool.plan else .empty) ++
    Member.blockPlan (c.fields.map (Member.fieldPlan c.pool options)) ++
    Member.blockPlan (c.methods.map (Member.methodPlan c.pool options))

end ClassFile

/-- The computation gives a text that is clean exactly if these texts are. -/
def Says (x : Except Fault String) (raw : List String) : Prop :=
  ∃ text, x = .ok text ∧ (Clean text ↔ ∀ t ∈ raw, Clean t)

/-- The rows are as many as the plan has, and clean exactly if its texts are. -/
def Follows (rows : List String) (o : Plan) : Prop :=
  rows.length = o.rows ∧ ((∀ row ∈ rows, Clean row) ↔ ∀ t ∈ o.raw, Clean t)

def Shows (x : Except Fault (List String)) (o : Plan) : Prop :=
  ∃ rows, x = .ok rows ∧ Follows rows o

open Clean

theorem says_pure {text : String} (h : Clean text) : Says (pure text) [] :=
  ⟨text, rfl, by simp [h]⟩

theorem Says.map {x : Except Fault String} {raw : List String} (hx : Says x raw)
    {f : String → String} (hf : ∀ t, Clean (f t) ↔ Clean t) : Says (do return f (← x)) raw := by
  obtain ⟨text, rfl, htext⟩ := hx
  exact ⟨f text, rfl, (hf text).trans htext⟩

theorem Says.map₂ {x y : Except Fault String} {raw others : List String} (hx : Says x raw)
    (hy : Says y others) {f : String → String → String}
    (hf : ∀ s t, Clean (f s t) ↔ Clean s ∧ Clean t) :
    Says (do return f (← x) (← y)) (raw ++ others) := by
  obtain ⟨s, rfl, hs⟩ := hx
  obtain ⟨t, rfl, ht⟩ := hy
  refine ⟨f s t, rfl, ?_⟩
  rw [hf, hs, ht, List.forall_mem_append]

theorem clean_optional {absent : Prop} [Decidable absent] {before text : String} (h : Clean before) :
    Clean (if absent then "" else before ++ text) ↔
      ∀ t ∈ (if absent then [] else [text]), Clean t := by
  split
  · decide
  · rw [clean_after h, List.forall_mem_singleton]

theorem clean_listed {keyword : String} (h : Clean keyword) {names : List String} :
    Clean (if names.isEmpty then "" else keyword ++ ", ".intercalate names) ↔
      ∀ name ∈ names, Clean name := by
  cases names with
  | nil =>
      have hempty : Clean "" := by decide
      exact ⟨fun _ => by simp, fun _ => hempty⟩
  | cons name names =>
      change Clean (keyword ++ ", ".intercalate (name :: names)) ↔ _
      rw [clean_after h, clean_intercalate (by decide)]

theorem follows_clean {rows : List String} (h : ∀ row ∈ rows, Clean row) :
    Follows rows ⟨rows.length, []⟩ :=
  ⟨rfl, by simpa using h⟩

theorem follows_row {row : String} {raw : List String} (h : Clean row ↔ ∀ t ∈ raw, Clean t) :
    Follows [row] (.row raw) :=
  ⟨rfl, List.forall_mem_singleton.trans h⟩

theorem follows_when {shown : Bool} {rows : List String} {o : Plan} (h : Follows rows o) :
    Follows (if shown then rows else []) (if shown then o else .empty) := by
  cases shown with
  | false => exact follows_clean (by simp)
  | true => exact h

theorem Follows.append {rows others : List String} {o p : Plan} (h : Follows rows o)
    (h' : Follows others p) : Follows (rows ++ others) (o ++ p) := by
  constructor
  · rw [List.length_append, h.1, h'.1]
    rfl
  · change _ ↔ ∀ t ∈ o.raw ++ p.raw, Clean t
    rw [List.forall_mem_append, List.forall_mem_append, h.2, h'.2]

theorem Follows.under {rows : List String} {n : Nat} {raw : List String}
    (h : Follows rows ⟨n, raw⟩) {heading : List String} (hheading : ∀ row ∈ heading, Clean row) :
    Follows (heading ++ rows) ⟨n + heading.length, raw⟩ := by
  constructor
  · rw [List.length_append, h.1, Nat.add_comm]
  · rw [List.forall_mem_append, h.2]
    exact and_iff_right hheading

theorem shows_pure {rows : List String} {o : Plan} (h : Follows rows o) : Shows (pure rows) o :=
  ⟨rows, rfl, h⟩

theorem shows_empty : Shows (pure []) .empty := shows_pure (follows_clean (by simp))

theorem shows_row {row : String} (h : Clean row) : Shows (pure [row]) (.row []) :=
  shows_pure (follows_row (by simpa using h))

theorem Says.row {x : Except Fault String} {raw : List String} (hx : Says x raw)
    {f : String → String} (hf : ∀ t, Clean (f t) ↔ Clean t) :
    Shows (do return [f (← x)]) (.row raw) := by
  obtain ⟨text, rfl, htext⟩ := hx
  exact ⟨[f text], rfl, follows_row ((hf text).trans htext)⟩

theorem Shows.under {x : Except Fault (List String)} {n : Nat} {raw : List String}
    (hx : Shows x ⟨n, raw⟩) (heading : List String) (h : ∀ row ∈ heading, Clean row) :
    Shows (do return heading ++ (← x)) ⟨n + heading.length, raw⟩ := by
  obtain ⟨rows, rfl, hrows⟩ := hx
  exact ⟨heading ++ rows, rfl, hrows.under h⟩

theorem shows_mapM {α : Type} {f : α → Except Fault String} {raw : α → List String} {as : List α}
    (h : ∀ a ∈ as, Says (f a) (raw a)) : Shows (as.mapM f) ⟨as.length, as.flatMap raw⟩ := by
  induction as with
  | nil => exact shows_empty
  | cons a as ih =>
      obtain ⟨ha, has⟩ := List.forall_mem_cons.1 h
      obtain ⟨text, htext, hclean⟩ := ha
      obtain ⟨rows, hrows, hlen, hclean'⟩ := ih has
      refine ⟨text :: rows, ?_, congrArg (· + 1) hlen, ?_⟩
      · rw [List.mapM_cons, htext, hrows]
        rfl
      · rw [List.forall_mem_cons, hclean, hclean', List.flatMap_cons, List.forall_mem_append]

theorem exists_parts {α : Type} {f : α → Except Fault (List String)} {o : α → Plan}
    {as : List α} (h : ∀ a ∈ as, Shows (f a) (o a)) :
    ∃ parts, as.mapM f = .ok parts ∧ List.Forall₂ Follows parts (as.map o) := by
  induction as with
  | nil => exact ⟨[], rfl, .nil⟩
  | cons a as ih =>
      obtain ⟨⟨rows, hrows, hfollows⟩, has⟩ := List.forall_mem_cons.1 h
      obtain ⟨parts, hparts, hall⟩ := ih has
      refine ⟨rows :: parts, ?_, .cons hfollows hall⟩
      rw [List.mapM_cons, hrows, hparts]
      rfl

theorem follows_flatten {parts : List (List String)} {os : List Plan}
    (h : List.Forall₂ Follows parts os) : Follows parts.flatten (.sum os) := by
  induction h with
  | nil => exact follows_clean (by simp)
  | cons h _ ih => exact h.append ih

theorem follows_intercalate {first : List String} {others : List (List String)} {o : Plan}
    {plans : List Plan} (hfirst : Follows first o) (h : List.Forall₂ Follows others plans) :
    Follows ([""].intercalate (first :: others)) (⟨others.length, []⟩ ++ .sum (o :: plans)) := by
  induction h generalizing first o with
  | nil =>
      have hone : [""].intercalate [first] = [first].flatten := by simp [List.intercalate]
      rw [hone]
      exact (follows_clean (by simp : ∀ row ∈ ([] : List String), Clean row)).append
        (follows_flatten (.cons hfirst .nil))
  | @cons next p others plans hnext hothers ih =>
      obtain ⟨hlen, hclean⟩ := ih hnext
      have hmore : [""].intercalate (first :: next :: others) =
          first ++ "" :: [""].intercalate (next :: others) := by simp [List.intercalate]
      have hempty : Clean "" := by decide
      rw [hmore]
      constructor
      · rw [List.length_append, List.length_cons, hlen, hfirst.1]
        simp only [Plan.rows_append, Plan.rows_sum_cons, List.length_cons]
        omega
      · rw [List.forall_mem_append, List.forall_mem_cons, hclean, hfirst.2]
        simp only [Plan.raw_append, Plan.raw_sum_cons, List.nil_append, List.forall_mem_append, hempty,
          true_and]

end ClassListing
