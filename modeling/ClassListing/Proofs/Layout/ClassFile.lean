import ClassListing.ClassFile.Reader
import ClassListing.Proofs.Layout.Attribute
import ClassListing.Proofs.Layout.Pool

namespace ClassListing

open Reader Layout

theorem Attribute.reads_readAll {pool : Pool} (valid : pool.Valid) :
    (Attribute.readAll pool).Reads fun attributes =>
      {bytes | (attributes.length < 65536 ∧ AllSound pool attributes) ∧
        ∃ t ∈ (frames (free pool) attributes).run, bytes = number 2 attributes.length ++ t} := by
  have hframes (count : UInt16) :
      Reads (readFrames pool count.toNat) (frameLayouts pool count.toNat) :=
    fun c attributes c' => readFrames_eq_ok valid attributes count.toNat c c'
  refine (reads_word16.bind hframes).congr fun attributes bytes => ?_
  constructor
  · rintro ⟨count, _, rfl, t, ⟨hlen, hsound, ht⟩, rfl⟩
    rw [← hlen]
    exact ⟨⟨by rw [hlen]; exact count.toNat_lt, hsound⟩, t, ht, rfl⟩
  · rintro ⟨⟨hlt, hsound⟩, t, ht, rfl⟩
    have hcount : attributes.length.toUInt16.toNat = attributes.length := UInt16.toNat_ofNat_of_lt hlt
    exact ⟨attributes.length.toUInt16, _, rfl, t, ⟨hcount.symm, hsound, ht⟩, by rw [hcount]⟩

namespace Member

structure Sound (pool : Pool) (x : Member) : Prop where
  name : pool.HasKind [.utf8] x.name
  descriptor : pool.HasKind [.utf8] x.descriptor
  attributes_length : x.attributes.length < 65536
  attributes : Attribute.AllSound pool x.attributes

theorem reads_read {pool : Pool} (valid : pool.Valid) :
    (Member.read pool).Reads fun x =>
      {bytes | x.Sound pool ∧ bytes ∈ (Layout.member (free pool) x).run} := by
  refine (Attribute.reads_word.bind fun access => Attribute.reads_textIndex.bind fun name =>
    Attribute.reads_textIndex.bind fun descriptor => (Attribute.reads_readAll valid).bind fun attributes =>
      reads_pure _).congr fun x bytes => ?_
  simp only [Layout.member, mem_run_bind, mem_run_pure]
  constructor
  · rintro ⟨access, _, ⟨-, rfl⟩, _, ⟨name, _, ⟨hname, rfl⟩, _, ⟨descriptor, _, ⟨hdesc, rfl⟩, _,
      ⟨attributes, _, ⟨⟨hlt, hsound⟩, t, ht, rfl⟩, _, ⟨rfl, rfl⟩, rfl⟩, rfl⟩, rfl⟩, rfl⟩
    exact ⟨⟨hname, hdesc, hlt, hsound⟩, t, ht, by simp⟩
  · rintro ⟨hsound, t, ht, rfl⟩
    exact ⟨x.access, _, ⟨trivial, rfl⟩, _, ⟨x.name, _, ⟨hsound.name, rfl⟩, _,
      ⟨x.descriptor, _, ⟨hsound.descriptor, rfl⟩, _, ⟨x.attributes, _,
        ⟨⟨hsound.attributes_length, hsound.attributes⟩, t, ht, rfl⟩, [], ⟨rfl, rfl⟩, rfl⟩, rfl⟩, rfl⟩,
      by simp⟩

theorem reads_counted_read {pool : Pool} (valid : pool.Valid) :
    (Reader.counted (Member.read pool)).Reads fun members =>
      {bytes | (members.length < 65536 ∧ ∀ x ∈ members, x.Sound pool) ∧
        ∃ t ∈ (sequence (Layout.member (free pool)) members).run,
          bytes = number 2 members.length ++ t} := by
  refine (reads_counted (reads_read valid)).congr fun members bytes => ?_
  constructor
  · rintro ⟨hlt, t, ht, rfl⟩
    obtain ⟨hsound, ht⟩ := mem_concat_and.1 ht
    exact ⟨⟨hlt, hsound⟩, t, mem_run_sequence.2 ht, rfl⟩
  · rintro ⟨⟨hlt, hsound⟩, t, ht, rfl⟩
    exact ⟨hlt, t, mem_concat_and.2 ⟨hsound, mem_run_sequence.1 ht⟩, rfl⟩

end Member

namespace ClassFile

theorem reads_readMagic : readMagic.Reads (only (fun _ => True) fun _ => number 4 0xCAFEBABE) := by
  have hword (word : UInt32) :
      (if word = magic then return else fail (.badMagic word) : Reader Unit).Reads
        fun _ => {bytes | word = magic ∧ bytes = []} := by
    by_cases h : word = magic
    · rw [if_pos h]
      exact (reads_pure ()).congr fun _ bytes => ⟨fun hb => ⟨h, hb.2⟩, fun hb => ⟨rfl, hb.2⟩⟩
    · rw [if_neg h]
      exact (reads_fail _).congr fun _ bytes => ⟨False.elim, fun hb => absurd hb.1 h⟩
  refine (reads_word32.bind hword).congr fun _ bytes => ?_
  constructor
  · rintro ⟨_, _, rfl, _, ⟨rfl, rfl⟩, rfl⟩
    exact ⟨trivial, rfl⟩
  · rintro ⟨-, rfl⟩
    exact ⟨magic, _, rfl, [], ⟨rfl, rfl⟩, rfl⟩

theorem reads_readVersion :
    readVersion.Reads
      (only (fun v => 45 ≤ v.2 ∧ v.2 ≤ 70) fun v => word v.1 ++ word v.2) := by
  have hmajor (minor major : UInt16) :
      (if oldestMajor ≤ major ∧ major ≤ newestMajor then return (minor, major)
        else fail (.unsupportedVersion major minor) : Reader (UInt16 × UInt16)).Reads
        fun v => {bytes | (minor, major) = v ∧ (45 ≤ major ∧ major ≤ 70) ∧ bytes = []} := by
    by_cases h : oldestMajor ≤ major ∧ major ≤ newestMajor
    · rw [if_pos h]
      exact (reads_pure _).congr fun v bytes => ⟨fun hb => ⟨hb.1, h, hb.2⟩, fun hb => ⟨hb.1, hb.2.2⟩⟩
    · rw [if_neg h]
      exact (reads_fail _).congr fun v bytes => ⟨False.elim, fun hb => absurd hb.2.1 h⟩
  refine (Attribute.reads_word.bind fun minor => Attribute.reads_word.bind fun major =>
    hmajor minor major).congr fun v bytes => ?_
  constructor
  · rintro ⟨minor, _, ⟨-, rfl⟩, _, ⟨major, _, ⟨-, rfl⟩, _, ⟨rfl, hmajor, rfl⟩, rfl⟩, rfl⟩
    exact ⟨hmajor, by simp⟩
  · rintro ⟨hmajor, rfl⟩
    exact ⟨v.1, _, ⟨trivial, rfl⟩, _, ⟨v.2, _, ⟨trivial, rfl⟩, [], ⟨rfl, hmajor, rfl⟩, rfl⟩, by simp⟩

/-- What reading has checked after the pool. -/
structure SoundBody (c : ClassFile) : Prop where
  thisClass : c.pool.HasKind [.classRef] c.thisClass
  superClass : c.superClass ≠ 0 → c.pool.HasKind [.classRef] c.superClass
  interfaces : c.interfaces.length < 65536 ∧ ∀ index ∈ c.interfaces, c.pool.HasKind [.classRef] index
  fields : c.fields.length < 65536 ∧ ∀ x ∈ c.fields, x.Sound c.pool
  methods : c.methods.length < 65536 ∧ ∀ x ∈ c.methods, x.Sound c.pool
  attributes : c.attributes.length < 65536 ∧ Attribute.AllSound c.pool c.attributes

theorem SoundBody.member {c : ClassFile} (h : c.SoundBody) {x : Member}
    (hx : x ∈ c.fields ++ c.methods) : x.Sound c.pool := by
  rcases List.mem_append.1 hx with hx | hx
  · exact h.fields.2 x hx
  · exact h.methods.2 x hx

theorem SoundBody.holds {c : ClassFile} (h : c.SoundBody) {attr : Attribute} (hattr : c.Holds attr) :
    attr.References c.pool ∧ attr.Fits c.pool := by
  rcases hattr with hw | ⟨x, hx, hw⟩
  · exact h.attributes.2 attr hw
  · exact (h.member hx).attributes attr hw

theorem wellFormed_iff {c : ClassFile} :
    c.WellFormed ↔ (45 ≤ c.major ∧ c.major ≤ 70) ∧ c.pool.WellFormed ∧ c.SoundBody := by
  constructor
  · intro h
    have hattr (attr : Attribute) (hw : c.Holds attr) : attr.References c.pool ∧ attr.Fits c.pool :=
      ⟨h.attributes attr hw, h.attributes_fit attr hw⟩
    have hmember (x : Member) (hx : x ∈ c.fields ++ c.methods) : x.Sound c.pool :=
      ⟨(h.members x hx).1, (h.members x hx).2, h.member_attributes_length x hx,
        fun attr hw => hattr attr (.inr ⟨x, hx, hw⟩)⟩
    exact ⟨h.version, h.pool, h.thisClass, h.superClass, ⟨h.interfaces_length, h.interfaces⟩,
      ⟨h.fields_length, fun x hx => hmember x (List.mem_append_left _ hx)⟩,
      ⟨h.methods_length, fun x hx => hmember x (List.mem_append_right _ hx)⟩,
      h.attributes_length, fun attr hw => hattr attr (.inl hw)⟩
  · rintro ⟨hversion, hpool, h⟩
    exact {
      thisClass := h.thisClass
      superClass := h.superClass
      interfaces := h.interfaces.2
      members := fun x hx => ⟨(h.member hx).name, (h.member hx).descriptor⟩
      attributes := fun attr hattr => (h.holds hattr).1
      version := hversion
      pool := hpool
      interfaces_length := h.interfaces.1
      fields_length := h.fields.1
      methods_length := h.methods.1
      attributes_length := h.attributes.1
      member_attributes_length := fun x hx => (h.member hx).attributes_length
      attributes_fit := fun attr hattr => (h.holds hattr).2 }

def bodyLayouts (c : ClassFile) : Set Bytes :=
  {bytes | ∃ fields ∈ (sequence (Layout.member (free c.pool)) c.fields).run,
    ∃ methods ∈ (sequence (Layout.member (free c.pool)) c.methods).run,
    ∃ attributes ∈ (frames (free c.pool) c.attributes).run,
    bytes = word c.access ++ word c.thisClass ++ word c.superClass ++ table word c.interfaces ++
      number 2 c.fields.length ++ fields ++ number 2 c.methods.length ++ methods ++
      number 2 c.attributes.length ++ attributes}

theorem reads_body {pool : Pool} (valid : pool.Valid) (minor major : UInt16) :
    (do
      let access ← word16
      let thisClass ← Attribute.classIndex pool
      let superClass ← Attribute.optionalIndex pool.className
      let interfaces ← Reader.counted (Attribute.classIndex pool)
      let fields ← Reader.counted (Member.read pool)
      let methods ← Reader.counted (Member.read pool)
      let attributes ← Attribute.readAll pool
      return ⟨minor, major, pool, access, thisClass, superClass, interfaces, fields, methods,
        attributes⟩ : Reader ClassFile).Reads
      fun c => {bytes | (c.minor = minor ∧ c.major = major ∧ c.pool = pool) ∧ c.SoundBody ∧
        bytes ∈ c.bodyLayouts} := by
  refine (Attribute.reads_word.bind fun access => (Attribute.reads_classIndex valid).bind fun this =>
    (Attribute.reads_optionalClass valid).bind fun super =>
    (reads_table (Attribute.reads_classIndex valid)).bind fun interfaces =>
    (Member.reads_counted_read valid).bind fun fields =>
    (Member.reads_counted_read valid).bind fun methods =>
    (Attribute.reads_readAll valid).bind fun attributes => reads_pure _).congr fun c bytes => ?_
  constructor
  · rintro ⟨access, _, ⟨-, rfl⟩, t₁, h₁, rfl⟩
    obtain ⟨this, _, ⟨hthis, rfl⟩, t₂, h₂, rfl⟩ := h₁
    obtain ⟨super, _, ⟨hsuper, rfl⟩, t₃, h₃, rfl⟩ := h₂
    obtain ⟨interfaces, _, ⟨hinterfaces, rfl⟩, t₄, h₄, rfl⟩ := h₃
    obtain ⟨fields, _, ⟨hfields, fs, hfs, rfl⟩, t₅, h₅, rfl⟩ := h₄
    obtain ⟨methods, _, ⟨hmethods, ms, hms, rfl⟩, t₆, h₆, rfl⟩ := h₅
    obtain ⟨attributes, _, ⟨hattributes, as, has, rfl⟩, _, ⟨rfl, rfl⟩, rfl⟩ := h₆
    exact ⟨⟨rfl, rfl, rfl⟩, ⟨hthis, hsuper, hinterfaces, hfields, hmethods, hattributes⟩,
      fs, hfs, ms, hms, as, has, by simp⟩
  · rintro ⟨⟨rfl, rfl, rfl⟩, h, fs, hfs, ms, hms, as, has, rfl⟩
    exact ⟨c.access, _, ⟨trivial, rfl⟩, _, ⟨c.thisClass, _, ⟨h.thisClass, rfl⟩, _,
      ⟨c.superClass, _, ⟨h.superClass, rfl⟩, _, ⟨c.interfaces, _, ⟨h.interfaces, rfl⟩, _,
      ⟨c.fields, _, ⟨h.fields, fs, hfs, rfl⟩, _, ⟨c.methods, _, ⟨h.methods, ms, hms, rfl⟩, _,
      ⟨c.attributes, _, ⟨h.attributes, as, has, rfl⟩, [], ⟨rfl, rfl⟩, rfl⟩, rfl⟩, rfl⟩, rfl⟩, rfl⟩, rfl⟩,
      by simp⟩

theorem mem_layouts {c : ClassFile} {bytes : Bytes} :
    bytes ∈ c.layouts ↔ ∃ p ∈ (Layout.pool (free c.pool) c.pool).run, ∃ body ∈ c.bodyLayouts,
      bytes = number 4 0xCAFEBABE ++ (word c.minor ++ word c.major) ++ p ++ body := by
  simp only [layouts, classFile, mem_run_bind, mem_run_pure, bodyLayouts]
  constructor
  · rintro ⟨p, hp, fs, hfs, ms, hms, as, has, rfl⟩
    exact ⟨p, hp, _, ⟨fs, hfs, ms, hms, as, has, rfl⟩, by simp⟩
  · rintro ⟨p, hp, _, ⟨fs, hfs, ms, hms, as, has, rfl⟩, rfl⟩
    exact ⟨p, hp, fs, hfs, ms, hms, as, has, by simp⟩

/-- A class refers to an entry of its pool, so the pool is not without entries. -/
theorem size_ne_one {c : ClassFile} (hpool : c.pool.WellFormed) (hbody : c.SoundBody) :
    c.pool.size ≠ 1 := by
  intro hsize
  obtain ⟨slots, hslots, -⟩ := hpool.filled
  obtain ⟨constant, hget, -⟩ := hbody.thisClass
  have hmem := Pool.some_mem_slots hget
  have hlen : c.pool.slots.toList.length = 1 := hsize
  rw [hslots, List.length_cons, Nat.succ_inj] at hlen
  rw [hslots, List.eq_nil_of_length_eq_zero hlen] at hmem
  simp at hmem

theorem reads_readClass :
    readClass.Reads fun c => {bytes | c.WellFormed ∧ bytes ∈ c.layouts} := by
  refine (reads_readMagic.bind fun _ => reads_readVersion.bind fun version =>
    Pool.reads_read.bindOn fun pool hpool =>
      reads_body hpool.some_mem.1.valid version.1 version.2).congr fun c bytes => ?_
  rw [Set.mem_ofPred_eq, Set.mem_ofPred_eq, wellFormed_iff, mem_layouts]
  constructor
  · rintro ⟨⟨⟩, _, ⟨-, rfl⟩, _, ⟨⟨minor, major⟩, _, ⟨hversion, rfl⟩, _, ⟨pool, p, ⟨hpool, hp⟩, body,
      ⟨⟨rfl, rfl, rfl⟩, hsound, hbody⟩, rfl⟩, rfl⟩, rfl⟩
    refine ⟨⟨hversion, hpool, hsound⟩, p, ?_, body, hbody, by simp⟩
    -- the count of 0 is no layout here: its pool has no entry for the class
    exact hp.resolve_right fun hone => size_ne_one hpool hsound hone.1
  · rintro ⟨⟨hversion, hpool, hsound⟩, p, hp, body, hbody, rfl⟩
    exact ⟨(), _, ⟨trivial, rfl⟩, _, ⟨(c.minor, c.major), _, ⟨hversion, rfl⟩, _,
      ⟨c.pool, p, ⟨hpool, .inl hp⟩, body, ⟨⟨rfl, rfl, rfl⟩, hsound, hbody⟩, rfl⟩, rfl⟩, by simp⟩

theorem read_eq_ok_iff {bytes : Bytes} {c : ClassFile} :
    read bytes = .ok c ↔ c.WellFormed ∧ bytes ∈ c.layouts := by
  refine Iff.trans ?_ (reads_readClass.whole c bytes)
  rw [read]
  cases hread : readClass (.start bytes) with
  | error fault => simp
  | ok p =>
      obtain ⟨result, rest⟩ := p
      dsimp only
      split
      next h => simp [List.isEmpty_iff.1 h]
      next h => simp [mt List.isEmpty_iff.2 h]

end ClassFile

end ClassListing
