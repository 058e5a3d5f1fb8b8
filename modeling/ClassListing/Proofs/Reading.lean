import ClassListing.Proofs.Layout.Encoding

namespace ClassListing.ClassFile

open Attribute

def sampleCode : CodeBody where
  maxStack := 2
  maxLocals := 0
  code := [0x14, 0, 6, 0x58, 0xB1]
  instructions := [⟨0, ⟨0x14, by decide⟩, false, .constant 6⟩, ⟨3, ⟨0x58, by decide⟩, false, .none⟩,
    ⟨4, ⟨0xB1, by decide⟩, false, .none⟩]
  handlers := []

/-- A class with a line feed in its name, with a wide entry, and with code that has a table inside. -/
def sample : ClassFile where
  minor := 0
  major := 52
  pool := ⟨#[none, some (.utf8 "A\nB"), some (.classRef 1), some (.utf8 "Code"), some (.utf8 "m"),
    some (.utf8 "()V"), some (.long 7), none, some (.utf8 "LineNumberTable")]⟩
  access := 0x21
  thisClass := 2
  superClass := 0
  interfaces := []
  fields := []
  methods := [⟨1, 4, 5, [.code sampleCode [.lineNumbers [⟨0, 3⟩]]]⟩]
  attributes := []

theorem wellFormed_sample_pool : sample.pool.WellFormed where
  filled := ⟨_, rfl, .narrow rfl (.narrow rfl (.narrow rfl (.narrow rfl (.narrow rfl (.wide rfl
    (.narrow rfl .nil))))))⟩
  size_lt := by decide
  texts index text h := by
    have hmem := Pool.some_mem_slots h
    simp only [sample, List.mem_cons, reduceCtorEq, Option.some.injEq, Constant.utf8.injEq,
      List.not_mem_nil, or_false, false_or] at hmem
    rcases hmem with rfl | rfl | rfl | rfl | rfl
    all_goals decide +kernel
  valid := (Pool.validate_eq_ok (by decide)).1 (by decide +kernel)

theorem allSound_sample_code : AllSound sample.pool [.code sampleCode [.lineNumbers [⟨0, 3⟩]]] := by
  have hnil : AllSound sample.pool [] := fun attr h => absurd h not_within_nil
  have hlines : Attribute.Fits sample.pool (.lineNumbers [⟨0, 3⟩]) :=
    ⟨⟨8, rfl⟩, Nat.le_of_ble_eq_true rfl, by decide⟩
  have hcode : Attribute.Fits sample.pool (.code sampleCode [.lineNumbers [⟨0, 3⟩]]) :=
    ⟨⟨3, rfl⟩, ⟨by decide, by decide⟩, by decide⟩
  have hrefs : Attribute.References sample.pool (.code sampleCode [.lineNumbers [⟨0, 3⟩]]) :=
    ⟨by decide, by decide +kernel, by decide +kernel, by decide⟩
  exact allSound_cons.2 ⟨⟨⟨hrefs, hcode⟩, allSound_cons.2 ⟨⟨⟨trivial, hlines⟩, hnil⟩, hnil⟩⟩, hnil⟩

theorem wellFormed_sample : sample.WellFormed := by
  have hmethod : Member.Sound sample.pool ⟨1, 4, 5, [.code sampleCode [.lineNumbers [⟨0, 3⟩]]]⟩ :=
    ⟨by decide, by decide, by decide, allSound_sample_code⟩
  refine wellFormed_iff.2 ⟨by decide, wellFormed_sample_pool, by decide, by decide,
    ⟨by decide, List.forall_mem_nil _⟩, ⟨by decide, List.forall_mem_nil _⟩,
    ⟨by decide, List.forall_mem_singleton.2 hmethod⟩, by decide,
    fun attr h => absurd h not_within_nil⟩

/-- The encoding of a well-formed class reads as the class, and the bytes that read as a class are
those that its layout allows. -/
theorem read_inverse_of_layout :
    (∀ c : ClassFile, c.WellFormed → read c.encode = .ok c) ∧
      ∀ (bytes : Bytes) (c : ClassFile), read bytes = .ok c ↔ c.WellFormed ∧ bytes ∈ c.layouts :=
  ⟨fun _ h => read_encode h, fun _ _ => read_eq_ok_iff⟩

theorem read_inverse_of_layout_sample :
    sample.WellFormed ∧ read sample.encode = .ok sample ∧ sample.encode ∈ sample.layouts := by
  have hread := read_inverse_of_layout.1 sample wellFormed_sample
  exact ⟨wellFormed_sample, hread, ((read_inverse_of_layout.2 _ _).1 hread).2⟩

theorem references_of_read {bytes : Bytes} {c : ClassFile} (h : read bytes = .ok c) :
    c.References :=
  (read_eq_ok_iff.1 h).1.toReferences

theorem references_of_read_sample : read sample.encode = .ok sample ∧ sample.References :=
  ⟨read_encode wellFormed_sample, references_of_read (read_encode wellFormed_sample)⟩

end ClassListing.ClassFile
