import ClassListing.Attribute.Reader
import ClassListing.Proofs.Layout
import ClassListing.Proofs.WellFormed

namespace ClassListing.Attribute

open Reader Layout

variable {pool : Pool}

theorem reads_word : word16.Reads (only (fun _ => True) word) :=
  reads_word16.congr fun _ _ => ⟨fun h => ⟨trivial, h⟩, fun h => h.2⟩

theorem reads_checkedIndex {α β : Type} {resolve : UInt16 → Except Fault α} (f : UInt16 → β) :
    (do
      let index ← word16
      let _ ← check (resolve index)
      return f index : Reader β).Reads fun b =>
        {bytes | ∃ index, f index = b ∧ bytes ∈ only (fun i => Succeeds (resolve i)) word index} := by
  refine (reads_word.bind fun index => (reads_check (resolve index)).bind fun _ =>
    reads_pure (f index)).congr fun b bytes => ?_
  constructor
  · rintro ⟨index, _, ⟨-, rfl⟩, _, ⟨a, _, ⟨ha, rfl⟩, _, ⟨rfl, rfl⟩, rfl⟩, rfl⟩
    exact ⟨index, rfl, ⟨a, ha⟩, by simp⟩
  · rintro ⟨index, rfl, ⟨a, ha⟩, rfl⟩
    exact ⟨index, _, ⟨trivial, rfl⟩, [], ⟨a, [], ⟨ha, rfl⟩, [], ⟨rfl, rfl⟩, rfl⟩, by simp⟩

theorem reads_textIndex : (textIndex pool).Reads (only (pool.HasKind [.utf8]) word) := by
  refine (reads_checkedIndex id).congr fun index bytes => ?_
  simp only [id, Set.mem_ofPred_eq, exists_eq_left, only, Pool.succeeds_utf8]

theorem reads_classIndex (valid : pool.Valid) :
    (classIndex pool).Reads (only (pool.HasKind [.classRef]) word) := by
  refine (reads_checkedIndex id).congr fun index bytes => ?_
  simp only [id, Set.mem_ofPred_eq, exists_eq_left, only, valid.succeeds_className]

theorem reads_optionalIndex {α : Type} {resolve : UInt16 → Except Fault α} :
    (optionalIndex resolve).Reads
      (only (fun index => index ≠ 0 → Succeeds (resolve index)) word) := by
  have hindex (index : UInt16) :
      (if index = 0 then return index
      else do
        let _ ← check (resolve index)
        return index : Reader UInt16).Reads
        fun i => {bytes | index = i ∧ (i ≠ 0 → Succeeds (resolve i)) ∧ bytes = []} := by
    by_cases hzero : index = 0
    · rw [if_pos hzero]
      refine (reads_pure index).congr fun i bytes => ?_
      constructor
      · rintro ⟨rfl, rfl⟩
        exact ⟨rfl, fun h => absurd hzero h, rfl⟩
      · rintro ⟨rfl, -, rfl⟩
        exact ⟨rfl, rfl⟩
    · rw [if_neg hzero]
      refine ((reads_check (resolve index)).bind fun _ => reads_pure index).congr fun i bytes => ?_
      constructor
      · rintro ⟨a, _, ⟨ha, rfl⟩, _, ⟨rfl, rfl⟩, rfl⟩
        exact ⟨rfl, fun _ => ⟨a, ha⟩, rfl⟩
      · rintro ⟨rfl, h, rfl⟩
        obtain ⟨a, ha⟩ := h hzero
        exact ⟨a, [], ⟨ha, rfl⟩, [], ⟨rfl, rfl⟩, rfl⟩
  refine (reads_word.bind hindex).congr fun index bytes => ?_
  constructor
  · rintro ⟨_, _, ⟨-, rfl⟩, _, ⟨rfl, h, rfl⟩, rfl⟩
    exact ⟨h, by simp⟩
  · rintro ⟨h, rfl⟩
    exact ⟨index, _, ⟨trivial, rfl⟩, [], ⟨rfl, h, rfl⟩, by simp⟩

theorem reads_optionalClass (valid : pool.Valid) :
    (optionalIndex pool.className).Reads
      (only (fun index => index ≠ 0 → pool.HasKind [.classRef] index) word) := by
  refine reads_optionalIndex.congr fun index bytes => ?_
  rw [only, only, valid.succeeds_className]

theorem reads_optionalText :
    (optionalIndex pool.utf8).Reads
      (only (fun index => index ≠ 0 → pool.HasKind [.utf8] index) word) := by
  refine reads_optionalIndex.congr fun index bytes => ?_
  rw [only, only, Pool.succeeds_utf8]

theorem reads_readHandler (valid : pool.Valid) :
    (readHandler pool).Reads
      (only (fun h => h.catchType ≠ 0 → pool.HasKind [.classRef] h.catchType) handler) := by
  refine Reads.row (reads_word.field Handler.start fun start =>
    reads_word.field Handler.stop fun stop => reads_word.field Handler.entry fun entry =>
    (reads_optionalClass valid).field Handler.catchType fun catchType => reads_made fun h => ?_)
    (fun h => ?_) fun h => ?_
  · cases h
    simp [eq_comm, and_assoc]
  · simp only [true_and, and_true]
  · simp [handler]

theorem reads_readLineNumber : readLineNumber.Reads (only (fun _ => True) lineNumber) := by
  refine Reads.row (reads_word.field LineNumber.start fun start =>
    reads_word.field LineNumber.line fun line => reads_made fun row => ?_)
    (fun row => ?_) fun row => ?_
  · cases row
    simp [eq_comm]
  · simp only [and_true]
  · simp [lineNumber]

theorem reads_readLocalVariable :
    (readLocalVariable pool).Reads
      (only (fun row => pool.HasKind [.utf8] row.name ∧ pool.HasKind [.utf8] row.descriptor)
        localVariable) := by
  refine Reads.row (reads_word.field LocalVariable.start fun start =>
    reads_word.field LocalVariable.length fun length =>
    reads_textIndex.field LocalVariable.name fun name =>
    reads_textIndex.field LocalVariable.descriptor fun descriptor =>
    reads_word.field LocalVariable.slot fun slot => reads_made fun row => ?_)
    (fun row => ?_) fun row => ?_
  · cases row
    simp [eq_comm, and_assoc]
  · simp only [true_and, and_true]
  · simp [localVariable]

theorem reads_readInnerClass (valid : pool.Valid) :
    (readInnerClass pool).Reads
      (only (fun row => pool.HasKind [.classRef] row.inner ∧
        (row.outer ≠ 0 → pool.HasKind [.classRef] row.outer) ∧
        (row.name ≠ 0 → pool.HasKind [.utf8] row.name)) innerClass) := by
  refine Reads.row ((reads_classIndex valid).field InnerClass.inner fun inner =>
    (reads_optionalClass valid).field InnerClass.outer fun outer =>
    reads_optionalText.field InnerClass.name fun name =>
    reads_word.field InnerClass.access fun access => reads_made fun row => ?_)
    (fun row => ?_) fun row => ?_
  · cases row
    simp [eq_comm, and_assoc]
  · simp only [and_true]
  · simp [innerClass]

/-- What reading a body of code has checked. -/
structure SoundBody (pool : Pool) (body : CodeBody) : Prop where
  references : body.code.length ≤ 65535 ∧ Instruction.decode body.code = .ok body.instructions ∧
    (∀ i ∈ body.instructions, i.References pool) ∧
    ∀ h ∈ body.handlers, h.catchType ≠ 0 → pool.HasKind [.classRef] h.catchType
  handlers_length : body.handlers.length < 65536

theorem forM_checkUse_eq_ok {code : Bytes} {instructions : List Instruction}
    (h : Instruction.decode code = .ok instructions) :
    instructions.forM (checkUse pool) = .ok () ↔ ∀ i ∈ instructions, i.References pool := by
  rw [Checks.forM_eq_ok]
  exact forall₂_congr fun i hi => Instruction.checkUse_eq_ok (Instruction.wellShaped_of_decode h i hi)

theorem reads_codeArray (valid : pool.Valid) (maxStack maxLocals : UInt16) (length : UInt32) :
    (if maxCodeLength < length.toNat then fail (.codeTooLong length.toNat)
      else do
        let code ← take length.toNat
        let instructions ← check (Instruction.decode code)
        check (instructions.forM (checkUse pool))
        let handlers ← counted (readHandler pool)
        return ⟨maxStack, maxLocals, code, instructions, handlers⟩ : Reader CodeBody).Reads
      fun body => {bytes | (body.maxStack = maxStack ∧ body.maxLocals = maxLocals) ∧
        body.code.length = length.toNat ∧ SoundBody pool body ∧
        bytes = body.code ++ table handler body.handlers} := by
  by_cases hlong : maxCodeLength < length.toNat
  · rw [if_pos hlong]
    refine (reads_fail _).congr fun body bytes => ⟨False.elim, ?_⟩
    rintro ⟨-, hlen, hsound, -⟩
    have hle := hsound.references.1
    rw [maxCodeLength] at hlong
    omega
  · rw [if_neg hlong]
    refine ((reads_take _).bind fun code => (reads_check _).bind fun instructions =>
      (reads_check _).bind fun _ => (reads_table (reads_readHandler valid)).bind fun handlers =>
        reads_pure _).congr fun body bytes => ?_
    rw [maxCodeLength, Nat.not_lt] at hlong
    constructor
    · rintro ⟨code, _, ⟨rfl, hlen⟩, _, ⟨instructions, _, ⟨hdecode, rfl⟩, _, ⟨_, _, ⟨huse, rfl⟩, _,
        ⟨handlers, _, ⟨⟨hcount, hcatch⟩, rfl⟩, _, ⟨rfl, rfl⟩, rfl⟩, rfl⟩, rfl⟩, rfl⟩
      have hrefs := (forM_checkUse_eq_ok hdecode).1 huse
      exact ⟨⟨rfl, rfl⟩, hlen, ⟨⟨by rw [hlen]; exact hlong, hdecode, hrefs, hcatch⟩, hcount⟩, by simp⟩
    · rintro ⟨⟨rfl, rfl⟩, hlen, hsound, rfl⟩
      obtain ⟨-, hdecode, hrefs, hcatch⟩ := hsound.references
      exact ⟨body.code, _, ⟨rfl, hlen⟩, _, ⟨body.instructions, [], ⟨hdecode, rfl⟩, _,
        ⟨(), [], ⟨(forM_checkUse_eq_ok hdecode).2 hrefs, rfl⟩, _,
        ⟨body.handlers, _, ⟨⟨hsound.handlers_length, hcatch⟩, rfl⟩, [], ⟨rfl, rfl⟩, rfl⟩, rfl⟩, rfl⟩,
        by simp⟩

theorem reads_readCode (valid : pool.Valid) :
    (readCode pool).Reads (only (SoundBody pool) codeBody) := by
  refine (reads_word.bind fun maxStack => reads_word.bind fun maxLocals =>
    reads_word32.bind fun length => reads_codeArray valid maxStack maxLocals length).congr
    fun body bytes => ?_
  constructor
  · rintro ⟨_, _, ⟨-, rfl⟩, _, ⟨_, _, ⟨-, rfl⟩, _, ⟨length, _, rfl, _, ⟨⟨rfl, rfl⟩, hlen, hsound, rfl⟩,
      rfl⟩, rfl⟩, rfl⟩
    exact ⟨hsound, by simp [codeBody, hlen]⟩
  · rintro ⟨hsound, rfl⟩
    have hle := hsound.references.1
    have hlen : body.code.length.toUInt32.toNat = body.code.length :=
      UInt32.toNat_ofNat_of_lt (by rw [UInt32.size]; omega)
    refine ⟨body.maxStack, _, ⟨trivial, rfl⟩, _, ⟨body.maxLocals, _, ⟨trivial, rfl⟩, _,
      ⟨body.code.length.toUInt32, _, rfl, _, ⟨⟨rfl, rfl⟩, hlen.symm, hsound, rfl⟩, rfl⟩, rfl⟩, ?_⟩
    simp [codeBody, hlen]

theorem reads_readCodeHead (valid : pool.Valid) :
    (readCodeHead pool).Reads
      (only (fun head => SoundBody pool head.1 ∧ head.2 < 65536)
        fun head => codeBody head.1 ++ number 2 head.2) := by
  refine ((reads_readCode valid).bind fun body => reads_word16.bind fun count => reads_pure _).congr
    fun head bytes => ?_
  constructor
  · rintro ⟨body, _, ⟨hbody, rfl⟩, _, ⟨count, _, rfl, _, ⟨rfl, rfl⟩, rfl⟩, rfl⟩
    exact ⟨⟨hbody, count.toNat_lt⟩, by simp⟩
  · rintro ⟨⟨hbody, hlt⟩, rfl⟩
    have hcount : head.2.toUInt16.toNat = head.2 := UInt16.toNat_ofNat_of_lt hlt
    exact ⟨head.1, _, ⟨hbody, rfl⟩, _, ⟨head.2.toUInt16, _, rfl, [], ⟨by rw [hcount], rfl⟩, rfl⟩,
      by simp [hcount]⟩

theorem reads_readFrame :
    (readFrame pool).Reads fun frame =>
      {bytes | ∃ index, pool.utf8 index = .ok frame.name ∧ frame.info.length < 2 ^ 32 ∧
        bytes = Layout.frame index frame.info} := by
  refine (reads_word.bind fun index => (reads_check _).bind fun name => reads_word32.bind fun length =>
    (reads_take _).bind fun info => reads_pure _).congr fun frame bytes => ?_
  constructor
  · rintro ⟨index, _, ⟨-, rfl⟩, _, ⟨name, _, ⟨hname, rfl⟩, _, ⟨length, _, rfl, _, ⟨info, _, ⟨rfl, hlen⟩, _,
      ⟨rfl, rfl⟩, rfl⟩, rfl⟩, rfl⟩, rfl⟩
    refine ⟨index, hname, ?_, by simp [Layout.frame, hlen]⟩
    rw [hlen]
    exact length.toNat_lt
  · rintro ⟨index, hname, hlt, rfl⟩
    have hlen : frame.info.length.toUInt32.toNat = frame.info.length := UInt32.toNat_ofNat_of_lt hlt
    exact ⟨index, _, ⟨trivial, rfl⟩, _, ⟨frame.name, [], ⟨hname, rfl⟩, _,
      ⟨frame.info.length.toUInt32, _, rfl, _, ⟨frame.info, _, ⟨rfl, hlen.symm⟩, [], ⟨rfl, rfl⟩, rfl⟩, rfl⟩,
      rfl⟩, by simp [Layout.frame, hlen]⟩

theorem ctorIdx_eq_idxOf {attr : Attribute} (h : attr.CountsFit) :
    attr.ctorIdx = decodedNames.idxOf attr.name := by
  cases attr with
  | unknown name info => exact (List.idxOf_eq_length h).symm
  | _ => rfl

theorem reads_of_name {α : Type} {r : Reader Attribute} {f : α → Attribute} {P : α → Prop}
    {L : α → Bytes} {name : String}
    (hr : r.Reads fun attr => {bytes | ∃ a, f a = attr ∧ bytes ∈ only P L a})
    (hname : ∀ a, (f a).name = name) (hinfo : ∀ a, info (free pool) (f a) = pure (L a))
    (hP : ∀ a, P a ↔ (f a).References pool ∧ (f a).CountsFit)
    (hform : ∀ attr, attr.ctorIdx = decodedNames.idxOf name → ∃ a, f a = attr) :
    r.Reads fun attr => {bytes | attr.name = name ∧ (attr.References pool ∧ attr.CountsFit) ∧
      bytes ∈ (info (free pool) attr).run} := by
  refine hr.congr fun attr bytes => ?_
  constructor
  · rintro ⟨a, rfl, ha, rfl⟩
    refine ⟨hname a, (hP a).1 ha, ?_⟩
    rw [hinfo, mem_run_pure]
  · rintro ⟨rfl, hgood, hbytes⟩
    obtain ⟨a, rfl⟩ := hform attr (ctorIdx_eq_idxOf hgood.2)
    rw [hinfo, mem_run_pure] at hbytes
    exact ⟨a, rfl, (hP a).2 hgood, hbytes⟩

theorem reads_pure_of_name {attr : Attribute} (hinfo : info (free pool) attr = pure [])
    (hgood : attr.References pool ∧ attr.CountsFit)
    (hform : ∀ b : Attribute, b.ctorIdx = decodedNames.idxOf attr.name → attr = b) :
    (pure attr : Reader Attribute).Reads fun b => {bytes | b.name = attr.name ∧
      (b.References pool ∧ b.CountsFit) ∧ bytes ∈ (info (free pool) b).run} := by
  have hr : (pure attr : Reader Attribute).Reads fun b =>
      {bytes | ∃ a : Unit, attr = b ∧ bytes ∈ only (fun _ => True) (fun _ => []) a} :=
    (reads_pure attr).congr fun b bytes =>
      ⟨fun h => ⟨(), h.1, trivial, h.2⟩, fun ⟨_, h, _, hbytes⟩ => ⟨h, hbytes⟩⟩
  exact reads_of_name hr (fun _ => rfl) (fun _ => hinfo) (fun _ => ⟨fun _ => hgood, fun _ => trivial⟩)
    fun b hb => ⟨(), hform b hb⟩

theorem reads_flatBody (valid : pool.Valid) {name : String} {body : Reader Attribute}
    (h : flatBody? pool name = some body) :
    body.Reads fun attr => {bytes | attr.name = name ∧ (attr.References pool ∧ attr.CountsFit) ∧
      bytes ∈ (info (free pool) attr).run} := by
  unfold flatBody? at h
  split at h
  case h_1 =>
      obtain rfl := Option.some.inj h
      refine reads_of_name (reads_checkedIndex _) (fun _ => rfl) (fun _ => rfl) (fun index => ?_)
        fun | .constantValue index, _ => ⟨index, rfl⟩
      rw [Pool.succeeds_require (Role.admits_iff_mem rfl)]
      exact (iff_of_eq (and_true _)).symm
  case h_2 =>
      obtain rfl := Option.some.inj h
      exact reads_of_name ((reads_table (reads_classIndex valid)).map _) (fun _ => rfl) (fun _ => rfl)
        (fun _ => and_comm) fun | .exceptions classes, _ => ⟨classes, rfl⟩
  case h_3 =>
      obtain rfl := Option.some.inj h
      exact reads_of_name (reads_textIndex.map _) (fun _ => rfl) (fun _ => rfl)
        (fun _ => (iff_of_eq (and_true _)).symm) fun | .sourceFile name, _ => ⟨name, rfl⟩
  case h_4 =>
      obtain rfl := Option.some.inj h
      exact reads_of_name (reads_textIndex.map _) (fun _ => rfl) (fun _ => rfl)
        (fun _ => (iff_of_eq (and_true _)).symm) fun | .signature text, _ => ⟨text, rfl⟩
  case h_5 =>
      obtain rfl := Option.some.inj h
      exact reads_of_name ((reads_table reads_readLineNumber).map _) (fun _ => rfl) (fun _ => rfl)
        (fun _ => ⟨fun h => ⟨trivial, h.1⟩, fun h => ⟨h.2, fun _ _ => trivial⟩⟩)
        fun | .lineNumbers rows, _ => ⟨rows, rfl⟩
  case h_6 =>
      obtain rfl := Option.some.inj h
      exact reads_of_name ((reads_table reads_readLocalVariable).map _) (fun _ => rfl) (fun _ => rfl)
        (fun _ => and_comm) fun | .localVariables rows, _ => ⟨rows, rfl⟩
  case h_7 =>
      obtain rfl := Option.some.inj h
      exact reads_of_name ((reads_table (reads_readInnerClass valid)).map _) (fun _ => rfl) (fun _ => rfl)
        (fun _ => and_comm) fun | .innerClasses rows, _ => ⟨rows, rfl⟩
  case h_8 =>
      obtain rfl := Option.some.inj h
      exact reads_pure_of_name rfl ⟨trivial, trivial⟩ fun | .deprecated, _ => rfl
  case h_9 =>
      obtain rfl := Option.some.inj h
      exact reads_pure_of_name rfl ⟨trivial, trivial⟩ fun | .synthetic, _ => rfl
  case h_10 => cases h

theorem length_word (w : UInt16) : (word w).length = 2 := length_number _ _

theorem length_table {α : Type} {row : α → Bytes} {width : Nat} (h : ∀ a, (row a).length = width)
    (rows : List α) : (table row rows).length = 2 + width * rows.length := by
  rw [table, List.length_append, length_number, List.length_flatMap]
  simp [h, Nat.mul_comm]

theorem length_codeBody (body : CodeBody) :
    (codeBody body).length = 10 + body.code.length + 8 * body.handlers.length := by
  have hrow (h : Handler) : (handler h).length = 8 := by simp [handler, length_word]
  simp only [codeBody, List.length_append, length_word, length_number, length_table hrow]
  omega

theorem mem_run_frames_cons {attr : Attribute} {attributes : List Attribute} {bytes : Bytes} :
    bytes ∈ (frames (free pool) (attr :: attributes)).run ↔
      ∃ index, pool.utf8 index = .ok attr.name ∧ ∃ body ∈ (info (free pool) attr).run,
        ∃ t ∈ (frames (free pool) attributes).run, bytes = Layout.frame index body ++ t := by
  simp only [frames, mem_run_bind, mem_run_name, mem_run_pure]

theorem mem_run_info_code {body : CodeBody} {attributes : List Attribute} {bytes : Bytes} :
    bytes ∈ (info (free pool) (.code body attributes)).run ↔
      ∃ t ∈ (frames (free pool) attributes).run,
        bytes = codeBody body ++ number 2 attributes.length ++ t := by
  simp only [info, mem_run_bind, mem_run_pure]

mutual

theorem length_of_mem_info : ∀ {attr : Attribute} {bytes : Bytes},
    bytes ∈ (info (free pool) attr).run → bytes.length = attr.size
  | .code body attributes, bytes, h => by
      obtain ⟨t, ht, rfl⟩ := mem_run_info_code.1 h
      rw [List.length_append, List.length_append, length_codeBody, length_number,
        length_of_mem_frames ht, size]
      omega
  | .constantValue _, _, h => by rw [mem_run_pure.1 h, length_word, size]
  | .exceptions _, _, h => by rw [mem_run_pure.1 h, length_table length_word, size]
  | .sourceFile _, _, h => by rw [mem_run_pure.1 h, length_word, size]
  | .signature _, _, h => by rw [mem_run_pure.1 h, length_word, size]
  | .lineNumbers _, _, h => by
      rw [mem_run_pure.1 h, length_table (fun _ => by simp [lineNumber, length_word]; rfl), size]
  | .localVariables _, _, h => by
      rw [mem_run_pure.1 h, length_table (fun _ => by simp [localVariable, length_word]; rfl), size]
  | .innerClasses _, _, h => by
      rw [mem_run_pure.1 h, length_table (fun _ => by simp [innerClass, length_word]; rfl), size]
  | .deprecated, _, h => by rw [mem_run_pure.1 h, size, List.length_nil]
  | .synthetic, _, h => by rw [mem_run_pure.1 h, size, List.length_nil]
  | .unknown _ _, _, h => by rw [mem_run_pure.1 h, size]

theorem length_of_mem_frames : ∀ {attributes : List Attribute} {bytes : Bytes},
    bytes ∈ (frames (free pool) attributes).run → bytes.length = sizes attributes
  | [], _, h => by rw [mem_run_pure.1 h, sizes, List.length_nil]
  | attr :: attributes, bytes, h => by
      obtain ⟨index, -, body, hbody, t, ht, rfl⟩ := mem_run_frames_cons.1 h
      rw [List.length_append, Layout.frame, List.length_append, List.length_append, length_word,
        length_number, length_of_mem_info hbody, length_of_mem_frames ht, sizes]

end

theorem finish_eq_ok {frame : Frame} {attr result : Attribute} {c : Cursor} :
    finish frame attr c = .ok result ↔ attr = result ∧ c.rest = [] := by
  rw [finish]
  split
  next h => simp [List.isEmpty_iff.1 h]
  next h => simp [mt List.isEmpty_iff.2 h]

theorem flatBody?_eq_none {name : String} (h : flatBody? pool name = none) (hcode : name ≠ "Code") :
    name ∉ decodedNames := by
  intro hmem
  simp only [decodedNames, List.mem_cons, List.not_mem_nil, or_false] at hmem
  rcases hmem with rfl | rfl | rfl | rfl | rfl | rfl | rfl | rfl | rfl | rfl
  case inl => exact hcode rfl
  all_goals cases h

theorem ofFrame_eq_code (valid : pool.Valid) {frame : Frame} {body : CodeBody}
    {attributes : List Attribute} :
    ofFrame pool frame = .ok (.code body attributes) ↔
      frame.name = "Code" ∧ ∃ count d e, readCodeHead pool (.start frame.info) = .ok ((body, count), d) ∧
        readFrames pool count d = .ok (attributes, e) ∧ e.rest = [] := by
  rw [ofFrame]
  by_cases hname : frame.name = "Code"
  · rw [if_pos hname]
    constructor
    · intro h
      split at h
      · cases h
      next body' count d hhead =>
        split at h
        · cases h
        next attributes' e hframes =>
          obtain ⟨hattr, hrest⟩ := finish_eq_ok.1 h
          obtain ⟨rfl, rfl⟩ := Attribute.code.inj hattr
          exact ⟨hname, count, d, e, hhead, hframes, hrest⟩
    · rintro ⟨-, count, d, e, hhead, hframes, hrest⟩
      split
      next hhead' => rw [hhead] at hhead'; cases hhead'
      next hhead' =>
        rw [hhead] at hhead'
        cases hhead'
        simp only [hframes]
        exact finish_eq_ok.2 ⟨rfl, hrest⟩
  · rw [if_neg hname]
    refine ⟨fun h => ?_, fun h => absurd h.1 hname⟩
    split at h
    · cases h
    next reader hreader =>
      split at h
      · cases h
      next attr c hread =>
        obtain ⟨rfl, -⟩ := finish_eq_ok.1 h
        obtain ⟨_, ⟨hcode, -⟩, -⟩ := (reads_flatBody valid hreader _ _ _).1 hread
        exact absurd hcode.symm hname

theorem ofFrame_eq_flat (valid : pool.Valid) {frame : Frame} {attr : Attribute}
    (hflat : attr.ctorIdx ≠ 0) :
    ofFrame pool frame = .ok attr ↔ attr.name = frame.name ∧
      (attr.References pool ∧ attr.CountsFit) ∧ frame.info ∈ (info (free pool) attr).run := by
  rw [ofFrame]
  by_cases hname : frame.name = "Code"
  · rw [if_pos hname]
    constructor
    · intro h
      split at h
      · cases h
      · split at h
        · cases h
        · obtain ⟨rfl, -⟩ := finish_eq_ok.1 h
          exact absurd rfl hflat
    · -- only code has the name, since what is kept unread has no decoded name
      rintro ⟨hattr, ⟨-, hfit⟩, -⟩
      rw [ctorIdx_eq_idxOf hfit, hattr, hname] at hflat
      exact absurd rfl hflat
  · rw [if_neg hname]
    cases hbody : flatBody? pool frame.name with
    | none =>
        have hmem := flatBody?_eq_none hbody hname
        constructor
        · intro h
          obtain rfl := Except.ok.inj h
          exact ⟨rfl, ⟨trivial, hmem⟩, mem_run_pure.2 rfl⟩
        · rintro ⟨hattr, ⟨-, hfit⟩, hinfo⟩
          have hform := ctorIdx_eq_idxOf hfit
          rw [hattr, List.idxOf_eq_length hmem] at hform
          cases attr with
          | unknown name bytes =>
              obtain rfl : name = frame.name := hattr
              rw [mem_run_pure.1 hinfo]
          | _ => cases hform
    | some reader =>
        refine Iff.trans ?_ ((reads_flatBody valid hbody).whole attr frame.info)
        constructor
        · intro h
          dsimp only at h
          split at h
          · cases h
          next result c hread =>
            obtain ⟨rfl, hrest⟩ := finish_eq_ok.1 h
            exact ⟨c, hread, hrest⟩
        · rintro ⟨c, hread, hrest⟩
          simp only [hread]
          exact finish_eq_ok.2 ⟨rfl, hrest⟩

/-- The attributes and all that stand inside them are as reading has checked them. -/
def AllSound (pool : Pool) (attributes : List Attribute) : Prop :=
  ∀ attr, Within attr attributes → attr.References pool ∧ attr.Fits pool

theorem allSound_cons {attr : Attribute} {attributes : List Attribute} :
    AllSound pool (attr :: attributes) ↔
      ((attr.References pool ∧ attr.Fits pool) ∧ AllSound pool attr.inside) ∧
        AllSound pool attributes := by
  rw [AllSound, forall_within_cons, forall_within_singleton]
  rfl

theorem readFrames_eq_nil {count : Nat} {c c' : Cursor} :
    readFrames pool count c = .ok ([], c') ↔ count = 0 ∧ c = c' := by
  rw [readFrames.eq_def]
  cases count with
  | zero => simp
  | succ count =>
      refine ⟨fun h => ?_, fun h => absurd h.1 (Nat.succ_ne_zero count)⟩
      dsimp only at h
      split at h
      · cases h
      · split at h
        · cases h
        · split at h <;> cases h

theorem readFrames_eq_cons {count : Nat} {c c' : Cursor} {attr : Attribute}
    {attributes : List Attribute} :
    readFrames pool count c = .ok (attr :: attributes, c') ↔
      ∃ n frame d, count = n + 1 ∧ readFrame pool c = .ok (frame, d) ∧ ofFrame pool frame = .ok attr ∧
        readFrames pool n d = .ok (attributes, c') := by
  rw [readFrames.eq_def]
  cases count with
  | zero => simp
  | succ count =>
      constructor
      · intro h
        dsimp only at h
        split at h
        · cases h
        next frame d hframe =>
          split at h
          · cases h
          next hattr =>
            split at h
            · cases h
            next hrest =>
              cases h
              exact ⟨count, frame, d, rfl, hframe, hattr, hrest⟩
      · rintro ⟨n, frame, d, hn, hframe, hattr, hrest⟩
        obtain rfl := Nat.succ.inj hn
        dsimp only
        split
        next hframe' => rw [hframe] at hframe'; cases hframe'
        next hframe' =>
          rw [hframe] at hframe'
          cases hframe'
          simp only [hattr, hrest]

/-- What reading an attribute's body has checked, the name and the length of its frame apart. -/
structure Sound (pool : Pool) (attr : Attribute) : Prop where
  references : attr.References pool
  counts : attr.CountsFit
  inside : AllSound pool attr.inside

def frameLayouts (pool : Pool) (count : Nat) (attributes : List Attribute) : Set Bytes :=
  {bytes | attributes.length = count ∧ AllSound pool attributes ∧
    bytes ∈ (frames (free pool) attributes).run}

theorem sound_of_flat {attr : Attribute} (hflat : attr.inside = []) :
    attr.Sound pool ↔ attr.References pool ∧ attr.CountsFit := by
  refine ⟨fun h => ⟨h.references, h.counts⟩, fun h => ⟨h.1, h.2, ?_⟩⟩
  rw [hflat]
  exact fun _ hw => absurd hw not_within_nil

theorem ofFrame_eq_ok_of_flat (valid : pool.Valid) {attr : Attribute} {frame : Frame}
    (hform : attr.ctorIdx ≠ 0) (hinside : attr.inside = []) :
    ofFrame pool frame = .ok attr ↔
      attr.name = frame.name ∧ attr.Sound pool ∧ frame.info ∈ (info (free pool) attr).run := by
  rw [ofFrame_eq_flat valid hform, sound_of_flat hinside]

mutual

theorem ofFrame_eq_ok (valid : pool.Valid) : ∀ (attr : Attribute) (frame : Frame),
    ofFrame pool frame = .ok attr ↔
      attr.name = frame.name ∧ attr.Sound pool ∧ frame.info ∈ (info (free pool) attr).run
  | .code body attributes, frame => by
      rw [ofFrame_eq_code valid, mem_run_info_code]
      constructor
      · rintro ⟨hname, count, d, e, hhead, hframes, hrest⟩
        obtain ⟨_, ⟨⟨hbody, hcount⟩, rfl⟩, hinfo, -⟩ := (reads_readCodeHead valid _ _ _).1 hhead
        obtain ⟨t, ⟨rfl, hsound, ht⟩, hd, -⟩ := (readFrames_eq_ok valid attributes count d e).1 hframes
        refine ⟨hname.symm, ⟨hbody.references, ⟨hbody.handlers_length, hcount⟩, hsound⟩, t, ht, ?_⟩
        rw [hd, hrest, List.append_nil] at hinfo
        exact hinfo
      · rintro ⟨hname, hsound, t, ht, hinfo⟩
        have hbody : SoundBody pool body := ⟨hsound.references, hsound.counts.1⟩
        have hhead := (reads_readCodeHead valid (.start frame.info) (body, attributes.length) ⟨_, t⟩).2
          ⟨_, ⟨⟨hbody, hsound.counts.2⟩, rfl⟩, hinfo, rfl⟩
        have hframes (pos : Nat) :=
          (readFrames_eq_ok valid attributes attributes.length ⟨pos, t⟩ ⟨pos + t.length, []⟩).2
            ⟨t, ⟨rfl, hsound.inside, ht⟩, (List.append_nil t).symm, rfl⟩
        exact ⟨hname.symm, _, _, _, hhead, hframes _, rfl⟩
  | .constantValue _, _ | .exceptions _, _ | .sourceFile _, _ | .signature _, _ | .lineNumbers _, _
  | .localVariables _, _ | .innerClasses _, _ | .deprecated, _ | .synthetic, _ | .unknown _ _, _ =>
      ofFrame_eq_ok_of_flat valid (by simp [Attribute.ctorIdx]) rfl

theorem readFrames_eq_ok (valid : pool.Valid) :
    ∀ (attributes : List Attribute) (count : Nat) (c c' : Cursor),
    readFrames pool count c = .ok (attributes, c') ↔
      ∃ bytes ∈ frameLayouts pool count attributes,
        c.rest = bytes ++ c'.rest ∧ c'.pos = c.pos + bytes.length
  | [], count, c, c' => by
      rw [readFrames_eq_nil]
      constructor
      · rintro ⟨rfl, rfl⟩
        exact ⟨[], ⟨rfl, fun _ h => absurd h not_within_nil, mem_run_pure.2 rfl⟩, rfl, rfl⟩
      · rintro ⟨bytes, ⟨rfl, -, hbytes⟩, hrest, hpos⟩
        rw [mem_run_pure.1 hbytes] at hrest hpos
        exact ⟨rfl, by cases c; cases c'; simp_all⟩
  | attr :: attributes, count, c, c' => by
      rw [readFrames_eq_cons]
      constructor
      · rintro ⟨n, frame, d, rfl, hframe, hattr, hframes⟩
        obtain ⟨_, ⟨index, hindex, hlt, rfl⟩, hrest, hpos⟩ := (reads_readFrame _ _ _).1 hframe
        obtain ⟨hname, hsound, hinfo⟩ := (ofFrame_eq_ok valid attr frame).1 hattr
        obtain ⟨t, ⟨rfl, hall, ht⟩, hrest', hpos'⟩ := (readFrames_eq_ok valid attributes n d c').1 hframes
        rw [← hname] at hindex
        rw [length_of_mem_info hinfo] at hlt
        have hfits : attr.Fits pool := ⟨⟨index, Pool.utf8_eq_ok.1 hindex⟩, hsound.counts, hlt⟩
        refine ⟨Layout.frame index frame.info ++ t, ⟨rfl, ?_, ?_⟩, ?_, ?_⟩
        · exact allSound_cons.2 ⟨⟨⟨hsound.references, hfits⟩, hsound.inside⟩, hall⟩
        · exact mem_run_frames_cons.2 ⟨index, hindex, _, hinfo, t, ht, rfl⟩
        · rw [hrest, hrest', List.append_assoc]
        · rw [hpos', hpos, List.length_append, Nat.add_assoc]
      · rintro ⟨_, ⟨rfl, hall, hbytes⟩, hrest, hpos⟩
        obtain ⟨⟨⟨hrefs, hfits⟩, hinside⟩, hall⟩ := allSound_cons.1 hall
        obtain ⟨index, hindex, body, hbody, t, ht, rfl⟩ := mem_run_frames_cons.1 hbytes
        have hlt : body.length < 2 ^ 32 := by
          rw [length_of_mem_info hbody]
          exact hfits.size_lt
        have hframe := (reads_readFrame c ⟨attr.name, body⟩ ⟨_, t ++ c'.rest⟩).2
          ⟨_, ⟨index, hindex, hlt, rfl⟩, by rw [hrest, List.append_assoc], rfl⟩
        have hattr := (ofFrame_eq_ok valid attr ⟨attr.name, body⟩).2
          ⟨rfl, ⟨hrefs, hfits.counts, hinside⟩, hbody⟩
        have hframes := (readFrames_eq_ok valid attributes attributes.length
          ⟨c.pos + (Layout.frame index body).length, t ++ c'.rest⟩ c').2
            ⟨t, ⟨rfl, hall, ht⟩, rfl, by rw [hpos, List.length_append, Nat.add_assoc]⟩
        exact ⟨_, _, _, rfl, hframe, hattr, hframes⟩

end

end ClassListing.Attribute
