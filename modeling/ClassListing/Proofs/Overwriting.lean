import ClassListing.Proofs.Listing.Masked

namespace ClassListing

open Layout

namespace Attribute

/-- Attributes with a place left for one more, among them or inside of one of them. -/
inductive Hole where
  | among (before after : List Attribute)
  | inCode (before : List Attribute) (body : CodeBody) (hole : Hole) (after : List Attribute)

namespace Hole

def fill (attr : Attribute) : Hole → List Attribute
  | among before after => before ++ attr :: after
  | inCode before body hole after => before ++ code body (hole.fill attr) :: after

/-- The number of bytes that follow the frame of the attribute in the hole. -/
def bytesAfter : Hole → Nat
  | among _ after => sizes after
  | inCode _ _ hole after => hole.bytesAfter + sizes after

theorem exists_of_within {attr : Attribute} {attributes : List Attribute}
    (h : Within attr attributes) : ∃ hole : Hole, hole.fill attr = attributes := by
  induction h with
  | here h =>
      obtain ⟨before, after, rfl⟩ := List.append_of_mem h
      exact ⟨.among before after, rfl⟩
  | @inCode body inside attributes h _ ih =>
      obtain ⟨before, after, rfl⟩ := List.append_of_mem h
      obtain ⟨hole, hhole⟩ := ih
      refine ⟨.inCode before body hole after, ?_⟩
      rw [fill, hhole]

theorem length_fill (a b : Attribute) (hole : Hole) : (hole.fill a).length = (hole.fill b).length := by
  cases hole with
  | among before after => simp [fill]
  | inCode before body hole after => simp [fill]

end Hole

theorem sizes_append (xs ys : List Attribute) : sizes (xs ++ ys) = sizes xs + sizes ys := by
  induction xs with
  | nil => rw [List.nil_append, sizes, Nat.zero_add]
  | cons attr xs ih =>
      rw [List.cons_append, sizes, sizes, ih]
      omega

variable {pool : Pool} {name : String} {info new : Bytes}

theorem Hole.sizes_fill {a b : Attribute} (h : a.size = b.size) (hole : Hole) :
    sizes (hole.fill a) = sizes (hole.fill b) := by
  induction hole with
  | among before after => rw [fill, fill, sizes_append, sizes_append, sizes, sizes, h]
  | inCode before body hole after ih =>
      rw [fill, fill, sizes_append, sizes_append, sizes, sizes, size, size, ih]

theorem allSound_append {xs ys : List Attribute} :
    AllSound pool (xs ++ ys) ↔ AllSound pool xs ∧ AllSound pool ys := by
  induction xs with
  | nil =>
      have hnil : AllSound pool [] := fun attr h => absurd h not_within_nil
      simp [hnil]
  | cons attr xs ih =>
      rw [List.cons_append, allSound_cons, allSound_cons, ih]
      exact and_assoc.symm

theorem fits_overwritten (hlen : new.length = info.length) (h : (unknown name info).Fits pool) :
    (unknown name new).Fits pool := by
  refine ⟨h.named, h.counts, ?_⟩
  have hsize := h.size_lt
  rw [size] at hsize ⊢
  rwa [hlen]

/-- The attributes around a hole are counted and measured by what they hold, so they stay sound. -/
theorem Hole.allSound_fill (hlen : new.length = info.length) (hole : Hole)
    (h : AllSound pool (hole.fill (unknown name info))) :
    AllSound pool (hole.fill (unknown name new)) := by
  have hsize : (unknown name new).size = (unknown name info).size := by rw [size, size, hlen]
  induction hole with
  | among before after =>
      rw [fill, allSound_append, allSound_cons] at h ⊢
      obtain ⟨hbefore, ⟨⟨-, hfits⟩, hinside⟩, hafter⟩ := h
      exact ⟨hbefore, ⟨⟨trivial, fits_overwritten hlen hfits⟩, hinside⟩, hafter⟩
  | inCode before body hole after ih =>
      rw [fill, allSound_append, allSound_cons] at h ⊢
      obtain ⟨hbefore, ⟨⟨hrefs, hfits⟩, hinside⟩, hafter⟩ := h
      refine ⟨hbefore, ⟨⟨hrefs, hfits.named, ⟨hfits.counts.1, ?_⟩, ?_⟩, ih hinside⟩, hafter⟩
      · rw [hole.length_fill _ (unknown name info)]
        exact hfits.counts.2
      · have hlt := hfits.size_lt
        rw [size] at hlt ⊢
        rwa [hole.sizes_fill hsize]

theorem Hole.map_masked_fill {a b : Attribute} (h : a.masked = b.masked) (hole : Hole) :
    (hole.fill a).map masked = (hole.fill b).map masked := by
  induction hole with
  | among before after => rw [fill, fill, List.map_append, List.map_append, List.map_cons, List.map_cons, h]
  | inCode before body hole after ih =>
      rw [fill, fill, List.map_append, List.map_append, List.map_cons, List.map_cons, masked, masked,
        maskedAll_eq, maskedAll_eq, ih]

theorem mem_run_frames_append {xs ys : List Attribute} {bytes : Bytes} :
    bytes ∈ (frames (free pool) (xs ++ ys)).run ↔
      ∃ s ∈ (frames (free pool) xs).run, ∃ t ∈ (frames (free pool) ys).run, bytes = s ++ t := by
  induction xs generalizing bytes with
  | nil =>
      simp [frames]
  | cons attr xs ih =>
      simp only [List.cons_append, mem_run_frames_cons, ih]
      constructor
      · rintro ⟨index, hindex, body, hbody, _, ⟨s, hs, t, ht, rfl⟩, rfl⟩
        exact ⟨_, ⟨index, hindex, body, hbody, s, hs, rfl⟩, t, ht, by simp⟩
      · rintro ⟨_, ⟨index, hindex, body, hbody, s, hs, rfl⟩, t, ht, rfl⟩
        exact ⟨index, hindex, body, hbody, _, ⟨s, hs, t, ht, rfl⟩, by simp⟩

end Attribute

namespace Layout

variable {pool : Pool} {name : String} {info : Bytes}

/-- The byte strings of a layout hold the frame with this name and body, so many bytes before their
end. With another body of the same length in the frame, they are strings of the layout for that. -/
def Carries (pool : Pool) (name : String) (info : Bytes) (n : Nat) (L : Bytes → Set Bytes) : Prop :=
  ∀ bytes ∈ L info, ∃ before index after, pool.utf8 index = .ok name ∧
    bytes = before ++ frame index info ++ after ∧ after.length = n ∧
    ∀ new : Bytes, new.length = info.length → before ++ frame index new ++ after ∈ L new

/-- A layout around another one, where the bytes before and after do not depend on the body. -/
theorem Carries.within {L M : Bytes → Set Bytes} {n k : Nat} (h : Carries pool name info n L)
    (hM : ∀ bytes ∈ M info, ∃ pre s post, s ∈ L info ∧ bytes = pre ++ s ++ post ∧ post.length = k ∧
      ∀ new t, new.length = info.length → t ∈ L new → t.length = s.length →
        pre ++ t ++ post ∈ M new) : Carries pool name info (n + k) M := by
  intro bytes hbytes
  obtain ⟨pre, s, post, hs, rfl, hpost, hback⟩ := hM bytes hbytes
  obtain ⟨before, index, after, hindex, rfl, hafter, hnew⟩ := h s hs
  refine ⟨pre ++ before, index, after ++ post, hindex, by simp, by simp [hafter, hpost], ?_⟩
  intro new hlen
  have hmem := hback new _ hlen (hnew new hlen) (by simp [frame, hlen])
  simpa using hmem

theorem carries_frames (hole : Attribute.Hole) :
    Carries pool name info hole.bytesAfter fun body =>
      (frames (free pool) (hole.fill (.unknown name body))).run := by
  induction hole with
  | among before after =>
      intro bytes hbytes
      obtain ⟨s, hs, t, ht, rfl⟩ := Attribute.mem_run_frames_append.1 hbytes
      obtain ⟨index, hindex, body, hbody, u, hu, rfl⟩ := Attribute.mem_run_frames_cons.1 ht
      obtain rfl : body = info := mem_run_pure.1 hbody
      refine ⟨s, index, u, hindex, by simp, Attribute.length_of_mem_frames hu, fun new _ => ?_⟩
      rw [List.append_assoc]
      exact Attribute.mem_run_frames_append.2 ⟨s, hs, _,
        Attribute.mem_run_frames_cons.2 ⟨index, hindex, new, mem_run_pure.2 rfl, u, hu, rfl⟩, rfl⟩
  | inCode before body hole after ih =>
      refine ih.within fun bytes hbytes => ?_
      obtain ⟨s, hs, t, ht, rfl⟩ := Attribute.mem_run_frames_append.1 hbytes
      obtain ⟨index, hindex, _, hcode, u, hu, rfl⟩ := Attribute.mem_run_frames_cons.1 ht
      obtain ⟨inside, hinside, rfl⟩ := Attribute.mem_run_info_code.1 hcode
      let count := (hole.fill (.unknown name info)).length
      let head := codeBody body ++ number 2 count
      refine ⟨s ++ (word index ++ number 4 (head ++ inside).length ++ head), inside, u, hinside, ?_,
        Attribute.length_of_mem_frames hu, fun new t _ ht hlen => ?_⟩
      · simp [frame, head, count]
      · have hcount : (hole.fill (.unknown name new)).length = count := hole.length_fill _ _
        have hmem : head ++ t ∈
            (Layout.info (free pool) (.code body (hole.fill (.unknown name new)))).run :=
          Attribute.mem_run_info_code.2 ⟨t, ht, by rw [hcount]⟩
        have hname : pool.utf8 index =
            .ok (Attribute.code body (hole.fill (.unknown name new))).name := hindex
        have hframes := Attribute.mem_run_frames_append.2 ⟨s, hs, _,
          Attribute.mem_run_frames_cons.2 ⟨index, hname, _, hmem, u, hu, rfl⟩, rfl⟩
        simpa [frame, head, hlen, Attribute.Hole.fill] using hframes

theorem mem_concat_append {α : Type} {L : α → Set Bytes} {as bs : List α} {bytes : Bytes} :
    bytes ∈ concat L (as ++ bs) ↔ ∃ s ∈ concat L as, ∃ t ∈ concat L bs, bytes = s ++ t := by
  induction as generalizing bytes with
  | nil => simp [concat]
  | cons a as ih =>
      constructor
      · rintro ⟨s, hs, _, ht, rfl⟩
        obtain ⟨u, hu, v, hv, rfl⟩ := ih.1 ht
        exact ⟨s ++ u, ⟨s, hs, u, hu, rfl⟩, v, hv, by simp⟩
      · rintro ⟨_, ⟨s, hs, u, hu, rfl⟩, v, hv, rfl⟩
        exact ⟨s, hs, u ++ v, ih.2 ⟨u, hu, v, hv, rfl⟩, by simp⟩

end Layout

namespace Member

variable {pool : Pool} {name : String} {info : Bytes}

def size (x : Member) : Nat := 8 + Attribute.sizes x.attributes

def sizes (xs : List Member) : Nat := (xs.map size).sum

theorem mem_run_member {x : Member} {bytes : Bytes} :
    bytes ∈ (Layout.member (free pool) x).run ↔ ∃ t ∈ (frames (free pool) x.attributes).run,
      bytes = word x.access ++ word x.name ++ word x.descriptor ++ number 2 x.attributes.length ++ t := by
  simp only [Layout.member, mem_run_bind, mem_run_pure]

theorem length_of_mem_concat {xs : List Member} {bytes : Bytes}
    (h : bytes ∈ concat (fun x => (Layout.member (free pool) x).run) xs) : bytes.length = sizes xs := by
  induction xs generalizing bytes with
  | nil =>
      obtain rfl : bytes = [] := h
      rfl
  | cons x xs ih =>
      obtain ⟨s, hs, t, ht, rfl⟩ := h
      obtain ⟨u, hu, rfl⟩ := mem_run_member.1 hs
      simp only [List.length_append, Attribute.length_word, length_number,
        Attribute.length_of_mem_frames hu, ih ht, sizes, List.map_cons, List.sum_cons, size]

theorem carries_member (x : Member) (hole : Attribute.Hole) :
    Carries pool name info hole.bytesAfter fun body =>
      (Layout.member (free pool) { x with attributes := hole.fill (.unknown name body) }).run := by
  rw [← Nat.add_zero hole.bytesAfter]
  refine (carries_frames hole).within fun bytes hbytes => ?_
  obtain ⟨t, ht, rfl⟩ := mem_run_member.1 hbytes
  refine ⟨_, t, [], ht, (List.append_nil _).symm, rfl, fun new u _ hu _ => ?_⟩
  refine mem_run_member.2 ⟨u, hu, ?_⟩
  dsimp only
  rw [List.append_nil, hole.length_fill (.unknown name new) (.unknown name info)]

theorem carries_members (before : List Member) (x : Member) (hole : Attribute.Hole)
    (after : List Member) :
    Carries pool name info (hole.bytesAfter + sizes after) fun body =>
      (sequence (Layout.member (free pool))
        (before ++ { x with attributes := hole.fill (.unknown name body) } :: after)).run := by
  refine (carries_member x hole).within fun bytes hbytes => ?_
  obtain ⟨s, hs, _, ⟨t, ht, u, hu, rfl⟩, rfl⟩ := mem_concat_append.1 (mem_run_sequence.1 hbytes)
  refine ⟨s, t, u, ht, by simp, length_of_mem_concat hu, fun new t' _ ht' _ => ?_⟩
  rw [List.append_assoc]
  exact mem_run_sequence.2 (mem_concat_append.2 ⟨s, hs, _, ⟨t', ht', u, hu, rfl⟩, rfl⟩)

theorem sounds_fill {new : Bytes} (hlen : new.length = info.length) {before : List Member} {x : Member}
    {hole : Attribute.Hole} {after : List Member}
    (h : (before ++ { x with attributes := hole.fill (.unknown name info) } :: after).length < 65536 ∧
      ∀ y ∈ before ++ { x with attributes := hole.fill (.unknown name info) } :: after, y.Sound pool) :
    (before ++ { x with attributes := hole.fill (.unknown name new) } :: after).length < 65536 ∧
      ∀ y ∈ before ++ { x with attributes := hole.fill (.unknown name new) } :: after, y.Sound pool := by
  obtain ⟨hlength, hsound⟩ := h
  rw [List.forall_mem_append, List.forall_mem_cons] at hsound
  obtain ⟨hbefore, hx, hafter⟩ := hsound
  have hcount := hx.attributes_length
  dsimp only at hcount
  rw [hole.length_fill _ (.unknown name new)] at hcount
  refine ⟨by simpa using hlength, List.forall_mem_append.2 ⟨hbefore, List.forall_mem_cons.2 ⟨?_, hafter⟩⟩⟩
  exact ⟨hx.name, hx.descriptor, hcount, hole.allSound_fill hlen hx.attributes⟩

end Member

namespace ClassFile

/-- A class with a place left for one more attribute. -/
inductive Hole where
  | onClass (c : ClassFile) (hole : Attribute.Hole)
  | onField (c : ClassFile) (before : List Member) (x : Member) (hole : Attribute.Hole)
      (after : List Member)
  | onMethod (c : ClassFile) (before : List Member) (x : Member) (hole : Attribute.Hole)
      (after : List Member)

namespace Hole

def fill (attr : Attribute) : Hole → ClassFile
  | onClass c hole => { c with attributes := hole.fill attr }
  | onField c before x hole after =>
    { c with fields := before ++ { x with attributes := hole.fill attr } :: after }
  | onMethod c before x hole after =>
    { c with methods := before ++ { x with attributes := hole.fill attr } :: after }

def bytesAfter : Hole → Nat
  | onClass _ hole => hole.bytesAfter
  | onField c _ _ hole after => hole.bytesAfter + Member.sizes after +
    (2 + Member.sizes c.methods + 2 + Attribute.sizes c.attributes)
  | onMethod c _ _ hole after => hole.bytesAfter + Member.sizes after +
    (2 + Attribute.sizes c.attributes)

theorem exists_of_holds {c : ClassFile} {attr : Attribute} (h : c.Holds attr) :
    ∃ hole : Hole, hole.fill attr = c := by
  rcases h with h | ⟨x, hx, h⟩
  · obtain ⟨hole, hhole⟩ := Attribute.Hole.exists_of_within h
    exact ⟨.onClass c hole, by rw [fill, hhole]⟩
  · obtain ⟨hole, hhole⟩ := Attribute.Hole.exists_of_within h
    rcases List.mem_append.1 hx with hx | hx
    · obtain ⟨before, after, hfields⟩ := List.append_of_mem hx
      exact ⟨.onField c before x hole after, by rw [fill, hhole, ← hfields]⟩
    · obtain ⟨before, after, hmethods⟩ := List.append_of_mem hx
      exact ⟨.onMethod c before x hole after, by rw [fill, hhole, ← hmethods]⟩

variable {name : String} {info new : Bytes}

theorem masked_fill {a b : Attribute} (h : a.masked = b.masked) (hole : Hole) :
    (hole.fill a).masked = (hole.fill b).masked := by
  cases hole with
  | onClass c hole => simp only [fill, masked, hole.map_masked_fill h]
  | onField c before x hole after =>
      simp only [fill, masked, List.map_append, List.map_cons, Member.masked, hole.map_masked_fill h]
  | onMethod c before x hole after =>
      simp only [fill, masked, List.map_append, List.map_cons, Member.masked, hole.map_masked_fill h]

theorem wellFormed_fill (hlen : new.length = info.length) (hole : Hole)
    (h : (hole.fill (.unknown name info)).WellFormed) : (hole.fill (.unknown name new)).WellFormed := by
  obtain ⟨hversion, hpool, hbody⟩ := wellFormed_iff.1 h
  cases hole with
  | onClass c hole =>
      have hcount := hbody.attributes.1
      dsimp only [fill] at hcount
      rw [hole.length_fill _ (.unknown name new)] at hcount
      exact wellFormed_iff.2 ⟨hversion, hpool, hbody.thisClass, hbody.superClass, hbody.interfaces,
        hbody.fields, hbody.methods, hcount, hole.allSound_fill hlen hbody.attributes.2⟩
  | onField c before x hole after =>
      exact wellFormed_iff.2 ⟨hversion, hpool, hbody.thisClass, hbody.superClass, hbody.interfaces,
        Member.sounds_fill hlen hbody.fields, hbody.methods, hbody.attributes⟩
  | onMethod c before x hole after =>
      exact wellFormed_iff.2 ⟨hversion, hpool, hbody.thisClass, hbody.superClass, hbody.interfaces,
        hbody.fields, Member.sounds_fill hlen hbody.methods, hbody.attributes⟩

theorem carries_bodyLayouts (hole : Hole) :
    Carries (hole.fill (.unknown name info)).pool name info hole.bytesAfter fun body =>
      (hole.fill (.unknown name body)).bodyLayouts := by
  cases hole with
  | onClass c hole =>
      rw [bytesAfter, ← Nat.add_zero hole.bytesAfter]
      refine (carries_frames hole).within fun bytes hbytes => ?_
      obtain ⟨fields, hfields, methods, hmethods, attributes, hattributes, rfl⟩ := hbytes
      refine ⟨_, attributes, [], hattributes, (List.append_nil _).symm, rfl, fun new t _ ht _ => ?_⟩
      refine ⟨fields, hfields, methods, hmethods, t, ht, ?_⟩
      dsimp only [fill]
      rw [List.append_nil, hole.length_fill (.unknown name new) (.unknown name info)]
  | onField c before x hole after =>
      refine (Member.carries_members before x hole after).within fun bytes hbytes => ?_
      obtain ⟨fields, hfields, methods, hmethods, attributes, hattributes, rfl⟩ := hbytes
      refine ⟨word c.access ++ word c.thisClass ++ word c.superClass ++ table word c.interfaces ++
        number 2 (before.length + (after.length + 1)), fields,
        number 2 c.methods.length ++ methods ++ number 2 c.attributes.length ++ attributes,
        hfields, ?_, ?_, fun new t _ ht _ => ⟨t, ht, methods, hmethods, attributes, hattributes, ?_⟩⟩
      · simp [fill]
      · have hlength := Member.length_of_mem_concat (mem_run_sequence.1 hmethods)
        dsimp only [fill] at hlength
        simp only [List.length_append, length_number, hlength, Attribute.length_of_mem_frames hattributes]
        rfl
      · simp [fill]
  | onMethod c before x hole after =>
      refine (Member.carries_members before x hole after).within fun bytes hbytes => ?_
      obtain ⟨fields, hfields, methods, hmethods, attributes, hattributes, rfl⟩ := hbytes
      refine ⟨word c.access ++ word c.thisClass ++ word c.superClass ++ table word c.interfaces ++
        number 2 c.fields.length ++ fields ++ number 2 (before.length + (after.length + 1)), methods,
        number 2 c.attributes.length ++ attributes, hmethods, ?_, ?_,
        fun new t _ ht _ => ⟨fields, hfields, t, ht, attributes, hattributes, ?_⟩⟩
      · simp [fill]
      · simp only [List.length_append, length_number, Attribute.length_of_mem_frames hattributes]
        rfl
      · simp [fill]

theorem carries_layouts (hole : Hole) :
    Carries (hole.fill (.unknown name info)).pool name info hole.bytesAfter fun body =>
      (hole.fill (.unknown name body)).layouts := by
  rw [← Nat.add_zero hole.bytesAfter]
  refine hole.carries_bodyLayouts.within fun bytes hbytes => ?_
  obtain ⟨p, hp, body, hbody, rfl⟩ := mem_layouts.1 hbytes
  refine ⟨_, body, [], hbody, (List.append_nil _).symm, rfl, fun new t _ ht _ => ?_⟩
  rw [List.append_nil]
  cases hole with
  | onClass | onField | onMethod => exact mem_layouts.2 ⟨p, hp, t, ht, rfl⟩

end Hole

/-- Every attribute of a class has its place in it. Where one is kept unread, its body stands in the
bytes behind its name and its length, and can be overwritten there. -/
theorem read_overwritten {bytes : Bytes} {c : ClassFile} (h : read bytes = .ok c) :
    (∀ attr, c.Holds attr → ∃ hole : Hole, hole.fill attr = c) ∧
      ∀ (hole : Hole) (name : String) (info : Bytes), hole.fill (.unknown name info) = c →
        ∃ before index after, c.pool.utf8 index = .ok name ∧ after.length = hole.bytesAfter ∧
          bytes = before ++ (word index ++ number 4 info.length) ++ info ++ after ∧
          ∀ new : Bytes, new.length = info.length →
            read (before ++ (word index ++ number 4 info.length) ++ new ++ after) =
                .ok (hole.fill (.unknown name new)) ∧
              ∀ options, ∃ text, render options bytes = .ok text ∧
                render options (before ++ (word index ++ number 4 info.length) ++ new ++ after) =
                  .ok text := by
  refine ⟨fun attr hattr => Hole.exists_of_holds hattr, ?_⟩
  rintro hole name info rfl
  obtain ⟨hc, hbytes⟩ := read_eq_ok_iff.1 h
  obtain ⟨before, index, after, hindex, rfl, hafter, hnew⟩ := hole.carries_layouts _ hbytes
  refine ⟨before, index, after, hindex, hafter, by simp [frame], fun new hlen => ?_⟩
  have hread : read (before ++ (word index ++ number 4 info.length) ++ new ++ after) =
      .ok (hole.fill (.unknown name new)) := by
    refine read_eq_ok_iff.2 ⟨hole.wellFormed_fill hlen hc, ?_⟩
    simpa [frame, hlen] using hnew new hlen
  refine ⟨hread, fun options => ?_⟩
  obtain ⟨rows, hrows, -⟩ := listing_of_wellFormed hc options
  refine ⟨_, (render_of_read h options).trans hrows, ?_⟩
  calc render options (before ++ (word index ++ number 4 info.length) ++ new ++ after)
      _ = (hole.fill (.unknown name new)).listing options := render_of_read hread options
      _ = (hole.fill (.unknown name new)).masked.listing options := (listing_masked options _).symm
      _ = (hole.fill (.unknown name info)).masked.listing options := by
        rw [hole.masked_fill (Attribute.masked_unknown name hlen)]
      _ = (hole.fill (.unknown name info)).listing options := listing_masked options _
      _ = .ok _ := hrows

def annotated : ClassFile :=
  { sample with methods := [⟨1, 4, 5, [.code sampleCode [.unknown "m" [1, 2]]]⟩] }

theorem wellFormed_annotated : annotated.WellFormed := by
  obtain ⟨hversion, hpool, hbody⟩ := wellFormed_iff.1 wellFormed_sample
  have hnil : Attribute.AllSound sample.pool [] := fun attr h => absurd h Attribute.not_within_nil
  have hunknown : Attribute.Fits sample.pool (.unknown "m" [1, 2]) :=
    ⟨⟨4, rfl⟩, (by decide : "m" ∉ Attribute.decodedNames), by decide⟩
  have hcode : Attribute.Fits sample.pool (.code sampleCode [.unknown "m" [1, 2]]) :=
    ⟨⟨3, rfl⟩, ⟨by decide, by decide⟩, by decide⟩
  have hrefs : Attribute.References sample.pool (.code sampleCode [.unknown "m" [1, 2]]) :=
    ⟨by decide, by decide +kernel, by decide +kernel, by decide⟩
  have hinside : Attribute.AllSound sample.pool [.unknown "m" [1, 2]] :=
    Attribute.allSound_cons.2 ⟨⟨⟨trivial, hunknown⟩, hnil⟩, hnil⟩
  have hmethod : Member.Sound sample.pool ⟨1, 4, 5, [.code sampleCode [.unknown "m" [1, 2]]]⟩ :=
    ⟨by decide, by decide, by decide, Attribute.allSound_cons.2 ⟨⟨⟨hrefs, hcode⟩, hinside⟩, hnil⟩⟩
  exact wellFormed_iff.2 ⟨hversion, hpool, hbody.thisClass, hbody.superClass, hbody.interfaces,
    hbody.fields, ⟨by decide, List.forall_mem_singleton.2 hmethod⟩, hbody.attributes⟩

theorem read_overwritten_sample :
    read annotated.encode = .ok annotated ∧
      (∃ hole : Hole, hole.fill (.unknown "m" [1, 2]) = annotated) ∧
      ∃ bytes text, bytes.length = annotated.encode.length ∧
        read bytes =
          .ok { sample with methods := [⟨1, 4, 5, [.code sampleCode [.unknown "m" [7, 9]]]⟩] } ∧
        render ⟨true, true, true⟩ annotated.encode = .ok text ∧
        render ⟨true, true, true⟩ bytes = .ok text := by
  have hread := read_encode wellFormed_annotated
  have hholds : annotated.Holds (.unknown "m" [1, 2]) :=
    .inr ⟨_, List.mem_singleton_self _, .inCode (List.mem_singleton_self _)
      (.here (List.mem_singleton_self _))⟩
  obtain ⟨hplace, hoverwritten⟩ := read_overwritten hread
  obtain ⟨before, index, after, -, -, hbytes, hnew⟩ :=
    hoverwritten (.onMethod sample [] ⟨1, 4, 5, []⟩ (.inCode [] sampleCode (.among [] []) []) [])
      "m" [1, 2] rfl
  obtain ⟨hresult, hrender⟩ := hnew [7, 9] rfl
  obtain ⟨text, htext, htext'⟩ := hrender ⟨true, true, true⟩
  refine ⟨hread, hplace _ hholds, _, text, ?_, hresult, htext, htext'⟩
  rw [hbytes]
  simp

end ClassFile

end ClassListing
