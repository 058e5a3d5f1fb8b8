import ClassListing.Proofs.Layout.ClassFile

namespace ClassListing

open Layout

namespace Layout

variable {pool : Pool}

theorem run_bind_mem {α β : Type} {x : Id α} {X : SetM α} {f : α → Id β} {F : α → SetM β}
    (hx : x.run ∈ X.run) (hf : (f x.run).run ∈ (F x.run).run) : (x >>= f).run ∈ (X >>= F).run :=
  mem_run_bind.2 ⟨x.run, hx, hf⟩

theorem run_sequence_mem {α : Type} {item : α → Id Bytes} {items : α → SetM Bytes} {as : List α}
    (h : ∀ a ∈ as, (item a).run ∈ (items a).run) :
    (sequence item as).run ∈ (sequence items as).run := by
  induction as with
  | nil => exact mem_run_pure.2 rfl
  | cons a as ih =>
      obtain ⟨ha, has⟩ := List.forall_mem_cons.1 h
      exact run_bind_mem ha (run_bind_mem (ih has) (mem_run_pure.2 rfl))

theorem run_constant_mem {c : Constant}
    (h : ∀ text, c = .utf8 text → (ModifiedUtf8.encode text).length < 65536) :
    (constant (usual pool) c).run ∈ (constant (free pool) c).run := by
  cases c with
  | utf8 text =>
      have htext : ((usual pool).text text).run ∈ ((free pool).text text).run :=
        mem_run_text.2 ⟨ModifiedUtf8.decode_encode text, h text rfl⟩
      exact run_bind_mem htext (mem_run_pure.2 rfl)
  | member kind owner nameAndType => cases kind <;> exact mem_run_pure.2 rfl
  | _ => exact mem_run_pure.2 rfl

theorem exists_get?_of_mem_slots (hsize : pool.size < 65536) {c : Constant}
    (h : some c ∈ pool.slots.toList) : ∃ index, pool.get? index = some c := by
  obtain ⟨n, hn, hc⟩ := List.mem_iff_getElem.1 h
  rw [Array.length_toList] at hn
  have hindex : n.toUInt16.toNat = n := UInt16.toNat_ofNat_of_lt (Nat.lt_trans hn hsize)
  refine ⟨n.toUInt16, ?_⟩
  rw [Pool.get?, hindex, Option.join_eq_some_iff, Array.getElem?_eq_getElem hn, ← hc,
    Array.getElem_toList]

theorem run_pool_mem (h : pool.WellFormed) :
    (Layout.pool (usual pool) pool).run ∈ (Layout.pool (free pool) pool).run := by
  refine run_bind_mem (run_sequence_mem fun c hc => run_constant_mem ?_) (mem_run_pure.2 rfl)
  rintro text rfl
  obtain ⟨index, hindex⟩ := exists_get?_of_mem_slots h.size_lt (List.reduceOption_mem_iff.1 hc)
  exact h.texts index text hindex

theorem run_name_mem (hsize : pool.size ≤ 65536) {text : String}
    (h : ∃ index, pool.get? index = some (.utf8 text)) :
    ((usual pool).name text).run ∈ ((free pool).name text).run := by
  obtain ⟨index, hindex⟩ := h
  have hmem := (Pool.mem_entries hsize).2 hindex
  rw [mem_run_name, Pool.utf8_eq_ok]
  cases hfind : pool.entries.find? (·.2 == .utf8 text) with
  | none => simpa using List.find?_eq_none.1 hfind _ hmem
  | some entry =>
      have hname : ((usual pool).name text).run = entry.1 := by
        change ((pool.entries.find? (·.2 == .utf8 text)).map (·.1)).getD 0 = entry.1
        rw [hfind]
        rfl
      have htext : entry.2 = .utf8 text := by simpa using List.find?_some hfind
      rw [hname, ← htext]
      exact (Pool.mem_entries hsize).1 (List.mem_of_find?_eq_some hfind)

open Attribute

mutual

theorem run_info_mem (hsize : pool.size ≤ 65536) : ∀ {attr : Attribute}, AllSound pool attr.inside →
    (info (usual pool) attr).run ∈ (info (free pool) attr).run
  | .code _ _, h => run_bind_mem (run_frames_mem hsize h) (mem_run_pure.2 rfl)
  | .constantValue _, _ | .exceptions _, _ | .sourceFile _, _ | .signature _, _ | .lineNumbers _, _
  | .localVariables _, _ | .innerClasses _, _ | .deprecated, _ | .synthetic, _ | .unknown _ _, _ =>
      mem_run_pure.2 rfl

theorem run_frames_mem (hsize : pool.size ≤ 65536) : ∀ {attributes : List Attribute},
    AllSound pool attributes → (frames (usual pool) attributes).run ∈ (frames (free pool) attributes).run
  | [], _ => mem_run_pure.2 rfl
  | attr :: attributes, h => by
      obtain ⟨⟨⟨-, hfits⟩, hinside⟩, hothers⟩ := allSound_cons.1 h
      exact run_bind_mem (run_name_mem hsize hfits.named) (run_bind_mem (run_info_mem hsize hinside)
        (run_bind_mem (run_frames_mem hsize hothers) (mem_run_pure.2 rfl)))

end

theorem run_member_mem (hsize : pool.size ≤ 65536) {x : Member} (h : x.Sound pool) :
    (member (usual pool) x).run ∈ (member (free pool) x).run :=
  run_bind_mem (run_frames_mem hsize h.attributes) (mem_run_pure.2 rfl)

end Layout

namespace ClassFile

theorem encode_mem_layouts {c : ClassFile} (h : c.WellFormed) : c.encode ∈ c.layouts := by
  obtain ⟨-, hpool, hbody⟩ := wellFormed_iff.1 h
  have hsize := Nat.le_of_lt hpool.size_lt
  have hfields := run_sequence_mem fun x hx => run_member_mem hsize (hbody.fields.2 x hx)
  have hmethods := run_sequence_mem fun x hx => run_member_mem hsize (hbody.methods.2 x hx)
  have hattributes := run_frames_mem hsize hbody.attributes.2
  exact run_bind_mem (run_pool_mem hpool) (run_bind_mem hfields (run_bind_mem hmethods
    (run_bind_mem hattributes (mem_run_pure.2 rfl))))

theorem read_encode {c : ClassFile} (h : c.WellFormed) : read c.encode = .ok c :=
  read_eq_ok_iff.2 ⟨h, encode_mem_layouts h⟩

end ClassFile

end ClassListing
