import ClassListing.Proofs.Listing.Plan
import ClassListing.Proofs.WellFormed

namespace ClassListing

open Clean

namespace Pool

variable {pool : Pool} {index : UInt16}

theorem textAt_eq {text : String} (h : pool.utf8 index = .ok text) : pool.textAt index = text := by
  rw [textAt, utf8_eq_ok.1 h]

theorem nameAt_eq {text : String} (h : pool.className index = .ok text) :
    pool.nameAt index = text := by
  obtain ⟨name, hget, htext⟩ := className_eq_ok.1 h
  rw [nameAt, hget]
  exact textAt_eq (utf8_eq_ok.2 htext)

theorem signatureTexts_eq {s : Signature} (h : pool.signature index = .ok s) :
    pool.signatureTexts index = [s.name, s.descriptor] := by
  obtain ⟨name, descriptor, hget, hname, hdesc⟩ := signature_eq_ok.1 h
  rw [signatureTexts, hget]
  dsimp only
  rw [textAt_eq (utf8_eq_ok.2 hname), textAt_eq (utf8_eq_ok.2 hdesc)]

theorem memberTexts_eq {m : MemberRef} (h : pool.member index = .ok m) :
    pool.memberTexts index = [m.owner, m.signature.name, m.signature.descriptor] := by
  obtain ⟨kind, owner, nameAndType, hget, hsig, howner⟩ := member_eq_ok.1 h
  rw [memberTexts, hget]
  dsimp only
  rw [nameAt_eq howner, signatureTexts_eq hsig]

theorem utf8_eq_textAt (h : pool.HasKind [.utf8] index) :
    pool.utf8 index = .ok (pool.textAt index) := by
  obtain ⟨text, htext⟩ := succeeds_utf8.2 h
  rw [htext, textAt_eq htext]

theorem className_eq_nameAt (valid : pool.Valid) (h : pool.HasKind [.classRef] index) :
    pool.className index = .ok (pool.nameAt index) := by
  obtain ⟨text, htext⟩ := valid.succeeds_className.2 h
  rw [htext, nameAt_eq htext]

theorem says_utf8 (h : pool.HasKind [.utf8] index) : Says (pool.utf8 index) [pool.textAt index] :=
  ⟨_, utf8_eq_textAt h, List.forall_mem_singleton.symm⟩

theorem says_className (valid : pool.Valid) (h : pool.HasKind [.classRef] index) :
    Says (pool.className index) [pool.nameAt index] :=
  ⟨_, className_eq_nameAt valid h, List.forall_mem_singleton.symm⟩

theorem clean_signatureText {s : Signature} :
    Clean s.text ↔ ∀ t ∈ [s.name, s.descriptor], Clean t := by
  have hcolon : Clean ":" := by decide
  rw [Signature.text, memberNameText, clean_append, clean_append, clean_quoteAfter]
  simp only [hcolon, and_true, List.forall_mem_cons, List.not_mem_nil, false_implies, implies_true]

theorem clean_memberText {m : MemberRef} :
    Clean m.text ↔ ∀ t ∈ [m.owner, m.signature.name, m.signature.descriptor], Clean t := by
  have hdot : Clean "." := by decide
  rw [MemberRef.text, classText, clean_append, clean_append, clean_quoteAfter, clean_signatureText,
    List.forall_mem_cons (a := m.owner)]
  simp only [hdot, and_true]

theorem says_signature {s : Signature} (h : pool.signature index = .ok s) (before : String)
    (hbefore : Clean before) :
    Says (do return before ++ (← pool.signature index).text) (pool.signatureTexts index) := by
  rw [h, signatureTexts_eq h]
  refine ⟨before ++ s.text, rfl, ?_⟩
  rw [clean_after hbefore, clean_signatureText]

theorem says_member {m : MemberRef} (h : pool.member index = .ok m) (before : String)
    (hbefore : Clean before) :
    Says (do return before ++ (← pool.member index).text) (pool.memberTexts index) := by
  rw [h, memberTexts_eq h]
  refine ⟨before ++ m.text, rfl, ?_⟩
  rw [clean_after hbefore, clean_memberText]

theorem says_describe (valid : pool.Valid) {constant : Constant}
    (h : pool.get? index = some constant) : Says (pool.describe index) (pool.describedTexts index) := by
  have hcheck := valid _ _ h
  rw [describe, get_eq_ok.2 h, describedTexts, h]
  cases constant with
  | utf8 text => exact says_pure (clean_escape text)
  | integer value => exact says_pure (clean_decimal _)
  | float bits => exact says_pure (clean_operandText (.float bits))
  | long value => exact says_pure (clean_operandText (.long value))
  | double bits => exact says_pure (clean_operandText (.double bits))
  | classRef name =>
      exact (says_utf8 (succeeds_utf8.1 (valid.utf8_of_classRef h))).map fun t => clean_quoteAfter
  | string text =>
      simp only [checkEntry, Checks.bind_eq_ok] at hcheck
      obtain ⟨t, ht, -⟩ := hcheck
      change Says (do return escape (← pool.utf8 text)) []
      rw [ht]
      exact says_pure (clean_escape t)
  | methodType name | module name | package name =>
      simp only [checkEntry, Checks.bind_eq_ok] at hcheck
      obtain ⟨t, ht, -⟩ := hcheck
      exact says_utf8 (succeeds_utf8.1 ⟨t, ht⟩)
  | member kind owner nameAndType =>
      obtain ⟨m, hm⟩ := valid.member_of_get h
      have hsays := says_member hm "" (by decide)
      simp only [String.empty_append] at hsays
      exact hsays
  | nameAndType name descriptor =>
      obtain ⟨s, hs⟩ := valid.signature_of_get h
      have hsays := says_signature hs "" (by decide)
      simp only [String.empty_append] at hsays
      exact hsays
  | methodHandle code target =>
      obtain ⟨kind, owner, nameAndType, htarget⟩ := valid.member_of_handle h
      obtain ⟨m, hm⟩ := valid.member_of_get htarget
      exact says_member hm _ (clean_append.2 ⟨clean_referenceKindName code, by decide⟩)
  | dynamic bootstrap nameAndType | invokeDynamic bootstrap nameAndType =>
      simp only [checkEntry, Checks.bind_eq_ok] at hcheck
      obtain ⟨s, hs, -⟩ := hcheck
      exact says_signature hs _ (clean_append.2 ⟨clean_indexText bootstrap, by decide⟩)

theorem says_operandComment (valid : pool.Valid) {kinds : List ConstantKind}
    (h : pool.HasKind kinds index) : Says (pool.operandComment index) (pool.describedTexts index) := by
  obtain ⟨constant, hget, -⟩ := h
  have hlabel : Clean (constant.kind.operandLabel ++ " ") :=
    clean_append.2 ⟨clean_operandLabel _, by decide⟩
  rw [operandComment, get_eq_ok.2 hget]
  exact (says_describe valid hget).map fun t => clean_after hlabel

theorem says_row (valid : pool.Valid) {constant : Constant} (h : pool.get? index = some constant) :
    Says (pool.row index constant)
      (if constant.kind.isLiteral then [] else pool.describedTexts index) := by
  have hentry : Clean (Column.right 6 (indexText index) ++ " = " ++
      Column.left 18 constant.kind.name ++ " " ++ constant.operandText) := by
    simp only [clean_append, clean_right, clean_left, clean_indexText, clean_kindName,
      clean_operandText, true_and, and_true]
    decide
  rw [row]
  by_cases hliteral : constant.kind.isLiteral = true
  · rw [if_pos hliteral, if_pos hliteral]
    exact says_pure hentry
  · rw [if_neg hliteral, if_neg hliteral]
    have hleft : Clean (Column.left 40 (Column.right 6 (indexText index) ++ " = " ++
        Column.left 18 constant.kind.name ++ " " ++ constant.operandText) ++ " // ") :=
      clean_append.2 ⟨clean_left.2 hentry, by decide⟩
    exact (says_describe valid h).map fun t => clean_after hleft

theorem shows_rows (valid : pool.Valid) (hsize : pool.size ≤ 65536) :
    Shows pool.rows pool.plan := by
  refine (shows_mapM fun entry hentry => ?_).under ["", "Constant pool:"] (by decide)
  exact says_row valid ((mem_entries hsize).1 hentry)

end Pool

namespace Instruction

theorem clean_mnemonicText (i : Instruction) : Clean i.mnemonicText := by
  rw [mnemonicText]
  split
  · exact clean_append.2 ⟨by decide, clean_mnemonic _⟩
  · exact clean_mnemonic _

theorem clean_label (i : Instruction) : Clean i.label := by
  simp only [label, clean_append, clean_right, clean_left, clean_natural, clean_mnemonicText, true_and,
    and_true]
  decide

theorem clean_plainRow (i : Instruction) {operand : String} (h : Clean operand) :
    Clean (i.plainRow operand) :=
  clean_trimRight (clean_append.2 ⟨i.clean_label, h⟩)

theorem clean_commentedRow (i : Instruction) {operand comment : String} (h : Clean operand) :
    Clean (i.commentedRow operand comment) ↔ Clean comment := by
  have hcolon : Clean ": " := by decide
  have hblank : Clean " " := by decide
  have hslashes : Clean " // " := by decide
  simp only [commentedRow, clean_append, clean_right, clean_left, clean_natural, clean_mnemonicText,
    h, hcolon, hblank, hslashes, true_and]

theorem clean_caseRow {key : String} (h : Clean key) (target : Nat) : Clean (caseRow key target) :=
  clean_append.2 ⟨clean_append.2 ⟨clean_right.2 h, by decide⟩, clean_natural target⟩

theorem shows_switchRows (i : Instruction) {summary : String} (h : Clean summary)
    (cases : List (Int × Nat)) (default : Nat) :
    Shows (pure (i.switchRows summary cases default)) ⟨cases.length + 3, []⟩ := by
  have hlen : (i.switchRows summary cases default).length = cases.length + 3 := by simp [switchRows]
  rw [← hlen]
  refine shows_pure (follows_clean ?_)
  rw [switchRows, List.forall_mem_append, List.forall_mem_cons, List.forall_mem_map]
  refine ⟨⟨?_, fun c _ => clean_caseRow (clean_decimal _) _⟩, ?_⟩
  · exact clean_append.2 ⟨clean_append.2 ⟨i.clean_label, by decide⟩, h⟩
  · rw [List.forall_mem_cons, List.forall_mem_singleton]
    exact ⟨clean_caseRow (by decide) default, clean_right.2 (by decide)⟩

variable {pool : Pool}

theorem shows_commentedRow (valid : pool.Valid) {i : Instruction} {index : UInt16}
    (h : i.References pool) (hindex : i.operands.poolIndex? = some index) {operand : String}
    (hoperand : Clean operand) :
    Shows (do return [i.commentedRow operand (← pool.operandComment index)])
      (.row (pool.describedTexts index)) := by
  rw [References, hindex] at h
  exact (Pool.says_operandComment valid h).row fun _ => i.clean_commentedRow hoperand

theorem shows_rows (valid : pool.Valid) {i : Instruction} (h : i.References pool) :
    Shows (i.rows pool) (i.plan pool) := by
  have hcount (index : UInt16) (n : Nat) : Clean (indexText index ++ ",  " ++ Numeral.natural n) :=
    clean_append.2 ⟨clean_append.2 ⟨clean_indexText index, by decide⟩, clean_natural n⟩
  rw [rows, plan]
  cases hop : i.operands with
  | none => exact shows_row (i.clean_plainRow (by decide))
  | immediate value => exact shows_row (i.clean_plainRow (clean_decimal _))
  | slot index => exact shows_row (i.clean_plainRow (clean_natural _))
  | branch target => exact shows_row (i.clean_plainRow (clean_natural _))
  | increment index delta =>
      exact shows_row (i.clean_plainRow (clean_append.2
        ⟨clean_append.2 ⟨clean_natural _, by decide⟩, clean_decimal _⟩))
  | newArray element => exact shows_row (i.clean_plainRow (clean_arrayType element))
  | constant index => exact shows_commentedRow valid h (by rw [hop]; rfl) (clean_indexText index)
  | invokeInterface index count =>
      exact shows_commentedRow valid h (by rw [hop]; rfl) (hcount index count.toNat)
  | invokeDynamic index =>
      exact shows_commentedRow valid h (by rw [hop]; rfl)
        (clean_append.2 ⟨clean_indexText index, by decide⟩)
  | multiNewArray index dimensions =>
      exact shows_commentedRow valid h (by rw [hop]; rfl) (hcount index dimensions.toNat)
  | tableSwitch default low high targets =>
      have hlen : (tableCases low.toInt targets).length = targets.length := by simp [tableCases]
      dsimp only
      rw [← hlen]
      exact i.shows_switchRows (clean_append.2 ⟨clean_append.2 ⟨clean_decimal _, by decide⟩,
        clean_decimal _⟩) _ default
  | lookupSwitch default cases =>
      have hlen : (cases.map fun p => (p.1.toInt, p.2)).length = cases.length := by simp
      dsimp only
      rw [← hlen]
      exact i.shows_switchRows (clean_natural _) _ default

end Instruction

section Code

variable {pool : Pool}

theorem Handler.says_row (valid : pool.Valid) {h : Handler}
    (href : h.catchType ≠ 0 → pool.HasKind [.classRef] h.catchType) :
    Says (h.row pool) (h.texts pool) := by
  have hrow (type : String) : Clean (Column.right 11 (Numeral.natural h.start.toNat) ++
      Column.right 6 (Numeral.natural h.stop.toNat) ++ Column.right 8 (Numeral.natural h.entry.toNat) ++
      "   " ++ type) ↔ Clean type := by
    have hgap : Clean "   " := by decide
    simp only [clean_append, clean_right, clean_natural, hgap, true_and]
  rw [row, texts]
  by_cases hzero : h.catchType = 0
  · rw [if_pos hzero, if_pos hzero]
    exact says_pure ((hrow _).2 (by decide))
  · rw [if_neg hzero, if_neg hzero]
    obtain ⟨name, hname, hclean⟩ := Pool.says_className valid (href hzero)
    rw [hname]
    refine ⟨_, rfl, ?_⟩
    rw [hrow, clean_after (by decide), hclean]

theorem Handler.shows_rows (valid : pool.Valid) {handlers : List Handler}
    (href : ∀ h ∈ handlers, h.catchType ≠ 0 → pool.HasKind [.classRef] h.catchType) :
    Shows (rows pool handlers) (plan pool handlers) := by
  rw [rows, plan]
  cases handlers with
  | nil => exact shows_empty
  | cons first others =>
      exact (shows_mapM fun h hh => says_row valid (href h hh)).under
        ["    Exception table:", "       from    to  target type"] (by decide)

theorem LineNumber.clean_row (n : LineNumber) : Clean n.row := by
  simp only [row, clean_append, clean_natural, and_true]
  decide

theorem LocalVariable.says_row {v : LocalVariable}
    (h : pool.HasKind [.utf8] v.name ∧ pool.HasKind [.utf8] v.descriptor) :
    Says (v.row pool) (v.texts pool) := by
  refine (Pool.says_utf8 h.1).map₂ (Pool.says_utf8 h.2) fun name descriptor => ?_
  have hgap : Clean "  " := by decide
  have hblank : Clean " " := by decide
  simp only [clean_append, clean_right, clean_left, clean_natural, hgap, hblank, true_and, and_true]

theorem Attribute.clean_sizeText (info : Bytes) : Clean (sizeText info) :=
  clean_append.2 ⟨clean_append.2 ⟨by decide, clean_natural _⟩, by decide⟩

theorem Attribute.clean_name {attr : Attribute} (h : attr.isKnown = true) : Clean attr.name := by
  have hall : ∀ name ∈ decodedNames, Clean name := by decide
  apply hall
  cases attr with
  | unknown name info => cases h
  | _ => simp [Attribute.name, decodedNames]

theorem Attribute.shows_rowsInCode (options : Options) {attr : Attribute}
    (h : attr.References pool) :
    Shows (attr.rowsInCode pool options) (attr.planInCode pool options) := by
  cases attr with
  | lineNumbers rows =>
      have hrows : Follows (rows.map LineNumber.row) ⟨rows.length, []⟩ := by
        rw [← List.length_map LineNumber.row]
        exact follows_clean (List.forall_mem_map.2 fun n _ => n.clean_row)
      exact shows_pure (follows_when (hrows.under (List.forall_mem_singleton.2 (by decide))))
  | localVariables rows =>
      rw [rowsInCode, planInCode]
      by_cases hdebug : options.debugInfo = true
      · rw [if_pos hdebug, if_pos hdebug]
        exact (shows_mapM fun v hv => v.says_row (h v hv)).under
          ["    LocalVariableTable:", "      Start  Length  Slot  Name   Signature"] (by decide)
      · rw [if_neg hdebug, if_neg hdebug]
        exact shows_empty
  | unknown name info =>
      refine shows_pure (follows_when (follows_row ?_))
      rw [List.forall_mem_singleton, clean_append, clean_append]
      exact ⟨fun h => h.1.2, fun h => ⟨⟨by decide, h⟩, clean_sizeText info⟩⟩
  | code | constantValue | exceptions | sourceFile | signature | innerClasses | deprecated | synthetic =>
      refine shows_pure (follows_when (follows_row ?_))
      simpa using clean_append.2 ⟨by decide, clean_name rfl⟩

theorem CodeBody.clean_heading (body : CodeBody) : Clean body.heading := by
  unfold heading
  simp only [clean_append, clean_natural, and_true]
  decide

theorem CodeBody.shows_rows (valid : pool.Valid) (options : Options) {body : CodeBody}
    {attributes : List Attribute}
    (h : Attribute.References pool (.code body attributes))
    (hinside : ∀ attr ∈ attributes, attr.References pool) :
    Shows (body.rows pool options attributes) (body.plan pool options attributes) := by
  obtain ⟨-, -, hrefs, hcatch⟩ := h
  obtain ⟨parts, hparts, hfollows⟩ :=
    exists_parts fun i hi => Instruction.shows_rows valid (hrefs i hi)
  obtain ⟨handlers, hhandlers, hfollows'⟩ := Handler.shows_rows valid hcatch
  obtain ⟨inside, hrows, hfollows''⟩ :=
    exists_parts fun attr hattr => Attribute.shows_rowsInCode options (hinside attr hattr)
  have hheading : Follows [body.heading] (.row []) :=
    follows_row (by simpa using body.clean_heading)
  refine ⟨[body.heading] ++ parts.flatten ++ handlers ++ inside.flatten, ?_, ?_⟩
  · rw [rows, hparts, hhandlers, hrows]
    rfl
  · exact ((hheading.append (follows_flatten hfollows)).append hfollows').append
      (follows_flatten hfollows'')

end Code

end ClassListing
