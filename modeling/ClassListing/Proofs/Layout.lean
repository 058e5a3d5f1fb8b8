import ClassListing.ClassFile
import ClassListing.Proofs.Bytes.Reads
import ClassListing.Text.ModifiedUtf8
import Mathlib.Data.List.ReduceOption
import Mathlib.Data.Set.Functor

namespace ClassListing

namespace Layout

/-- What a layout leaves open: the bytes of a text, and the entry that names an attribute. -/
structure Choices (m : Type → Type) where
  text : String → m Bytes
  name : String → m UInt16

/-- The shortest spelling of a text, and the first entry with the text of a name. -/
def usual (pool : Pool) : Choices Id where
  text := ModifiedUtf8.encode
  name text := ((pool.entries.find? (·.2 == .utf8 text)).map (·.1)).getD 0

/-- Every spelling of a text that fits, and every entry with the text of a name. -/
def free (pool : Pool) : Choices SetM where
  text text := {bytes : Bytes | ModifiedUtf8.decode bytes = some text ∧ bytes.length < 65536}
  name text := {index : UInt16 | pool.utf8 index = .ok text}

def word (w : UInt16) : Bytes := number 2 w.toNat

def table {α : Type} (row : α → Bytes) (rows : List α) : Bytes :=
  number 2 rows.length ++ rows.flatMap row

variable {m : Type → Type} [Monad m]

def sequence {α : Type} (item : α → m Bytes) : List α → m Bytes
  | [] => return []
  | a :: as => do return (← item a) ++ (← sequence item as)

def constant (choices : Choices m) : Constant → m Bytes
  | .utf8 text => do
    let bytes ← choices.text text
    return 1 :: number 2 bytes.length ++ bytes
  | .integer value => return 3 :: number 4 value.toUInt32.toNat
  | .float bits => return 4 :: number 4 bits.toNat
  | .long value => return 5 :: number 8 value.toUInt64.toNat
  | .double bits => return 6 :: number 8 bits.toNat
  | .classRef name => return 7 :: word name
  | .string text => return 8 :: word text
  | .member .field owner nameAndType => return 9 :: word owner ++ word nameAndType
  | .member .method owner nameAndType => return 10 :: word owner ++ word nameAndType
  | .member .interfaceMethod owner nameAndType => return 11 :: word owner ++ word nameAndType
  | .nameAndType name descriptor => return 12 :: word name ++ word descriptor
  | .methodHandle kind target => return 15 :: kind :: word target
  | .methodType descriptor => return 16 :: word descriptor
  | .dynamic bootstrap nameAndType => return 17 :: word bootstrap ++ word nameAndType
  | .invokeDynamic bootstrap nameAndType => return 18 :: word bootstrap ++ word nameAndType
  | .module name => return 19 :: word name
  | .package name => return 20 :: word name

/-- The entries stand without the slots that hold nothing. -/
def pool (choices : Choices m) (p : Pool) : m Bytes := do
  return number 2 p.size ++ (← sequence (constant choices) p.slots.toList.reduceOption)

def handler (h : Handler) : Bytes := word h.start ++ word h.stop ++ word h.entry ++ word h.catchType

def lineNumber (n : LineNumber) : Bytes := word n.start ++ word n.line

def localVariable (v : LocalVariable) : Bytes :=
  word v.start ++ word v.length ++ word v.name ++ word v.descriptor ++ word v.slot

def innerClass (i : InnerClass) : Bytes :=
  word i.inner ++ word i.outer ++ word i.name ++ word i.access

def codeBody (body : CodeBody) : Bytes :=
  word body.maxStack ++ word body.maxLocals ++ number 4 body.code.length ++ body.code ++
    table handler body.handlers

def frame (index : UInt16) (info : Bytes) : Bytes := word index ++ number 4 info.length ++ info

mutual

def info (choices : Choices m) : Attribute → m Bytes
  | .code body attributes => do
    return codeBody body ++ number 2 attributes.length ++ (← frames choices attributes)
  | .constantValue index => return word index
  | .exceptions classes => return table word classes
  | .sourceFile name => return word name
  | .signature text => return word text
  | .lineNumbers rows => return table lineNumber rows
  | .localVariables rows => return table localVariable rows
  | .innerClasses rows => return table innerClass rows
  | .deprecated => return []
  | .synthetic => return []
  | .unknown _ bytes => return bytes

def frames (choices : Choices m) : List Attribute → m Bytes
  | [] => return []
  | attr :: attributes => do
    let index ← choices.name attr.name
    let bytes ← info choices attr
    return frame index bytes ++ (← frames choices attributes)

end

def member (choices : Choices m) (x : Member) : m Bytes := do
  return word x.access ++ word x.name ++ word x.descriptor ++ number 2 x.attributes.length ++
    (← frames choices x.attributes)

def classFile (choices : Choices m) (c : ClassFile) : m Bytes := do
  return number 4 0xCAFEBABE ++ word c.minor ++ word c.major ++ (← pool choices c.pool) ++
    word c.access ++ word c.thisClass ++ word c.superClass ++ table word c.interfaces ++
    number 2 c.fields.length ++ (← sequence (member choices) c.fields) ++
    number 2 c.methods.length ++ (← sequence (member choices) c.methods) ++
    number 2 c.attributes.length ++ (← frames choices c.attributes)

section Membership

variable {α β : Type}

@[simp]
theorem mem_run_pure {a b : α} : b ∈ (pure a : SetM α).run ↔ b = a := Iff.rfl

@[simp]
theorem mem_run_bind {x : SetM α} {f : α → SetM β} {b : β} :
    b ∈ (x >>= f).run ↔ ∃ a ∈ x.run, b ∈ (f a).run := by
  change b ∈ ⋃ a ∈ x.run, (f a).run ↔ _
  simp only [Set.mem_iUnion, exists_prop]

@[simp]
theorem mem_run_text {pool : Pool} {text : String} {bytes : Bytes} :
    bytes ∈ ((free pool).text text).run ↔
      ModifiedUtf8.decode bytes = some text ∧ bytes.length < 65536 := Iff.rfl

@[simp]
theorem mem_run_name {pool : Pool} {text : String} {index : UInt16} :
    index ∈ ((free pool).name text).run ↔ pool.utf8 index = .ok text := Iff.rfl

theorem mem_run_sequence {item : α → SetM Bytes} {as : List α} {bytes : Bytes} :
    bytes ∈ (sequence item as).run ↔ bytes ∈ concat (fun a => (item a).run) as := by
  induction as generalizing bytes with
  | nil => exact Iff.rfl
  | cons a as ih =>
      simp only [sequence, mem_run_bind, mem_run_pure, ih]
      rfl

theorem nonempty_of_mem_concat {L : α → Set Bytes} {as : List α} {bytes : Bytes} {a : α}
    (h : bytes ∈ concat L as) (ha : a ∈ as) : (L a).Nonempty := by
  induction as generalizing bytes with
  | nil => simp at ha
  | cons b as ih =>
      obtain ⟨s, hs, t, ht, -⟩ := h
      rcases List.mem_cons.1 ha with rfl | ha
      · exact ⟨s, hs⟩
      · exact ih ht ha

theorem mem_concat_and {P : α → Prop} {L : α → Set Bytes} {as : List α} {bytes : Bytes} :
    bytes ∈ concat (fun a => {s | P a ∧ s ∈ L a}) as ↔ (∀ a ∈ as, P a) ∧ bytes ∈ concat L as := by
  induction as generalizing bytes with
  | nil => exact ⟨fun h => ⟨by simp, h⟩, fun h => h.2⟩
  | cons a as ih =>
      rw [List.forall_mem_cons]
      constructor
      · rintro ⟨s, ⟨ha, hs⟩, t, ht, rfl⟩
        obtain ⟨has, ht⟩ := ih.1 ht
        exact ⟨⟨ha, has⟩, s, hs, t, ht, rfl⟩
      · rintro ⟨⟨ha, has⟩, s, hs, t, ht, rfl⟩
        exact ⟨s, ⟨ha, hs⟩, t, ih.2 ⟨has, ht⟩, rfl⟩

theorem mem_concat_singleton {row : α → Bytes} {rows : List α} {bytes : Bytes} :
    bytes ∈ concat (fun a => {row a}) rows ↔ bytes = rows.flatMap row := by
  induction rows generalizing bytes with
  | nil => exact Iff.rfl
  | cons a as ih =>
      rw [List.flatMap_cons]
      constructor
      · rintro ⟨s, rfl, t, ht, rfl⟩
        rw [ih.1 ht]
      · rintro rfl
        exact ⟨row a, rfl, _, ih.2 rfl, rfl⟩

theorem reads_table {item : Reader α} {P : α → Prop} {row : α → Bytes}
    (h : item.Reads (only P row)) :
    (Reader.counted item).Reads
      (only (fun rows => rows.length < 65536 ∧ ∀ a ∈ rows, P a) (table row)) := by
  refine (Reader.reads_counted h).congr fun rows bytes => ?_
  constructor
  · rintro ⟨hlen, t, ht, rfl⟩
    obtain ⟨hrows, ht⟩ := mem_concat_and.1 ht
    rw [mem_concat_singleton.1 ht]
    exact ⟨⟨hlen, hrows⟩, rfl⟩
  · rintro ⟨⟨hlen, hrows⟩, rfl⟩
    exact ⟨hlen, _, mem_concat_and.2 ⟨hrows, mem_concat_singleton.2 rfl⟩, rfl⟩

end Membership

end Layout

namespace ClassFile

def encode (c : ClassFile) : Bytes := (Layout.classFile (Layout.usual c.pool) c).run

def layouts (c : ClassFile) : Set Bytes := (Layout.classFile (Layout.free c.pool) c).run

end ClassFile

end ClassListing
