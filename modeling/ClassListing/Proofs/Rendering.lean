import ClassListing.Engine
import ClassListing.Proofs.Listing.Class
import ClassListing.Proofs.Reading

namespace ClassListing

namespace Clean

theorem toList_lines_cons (row : String) (rows : List String) :
    (String.join ((row :: rows).map (· ++ "\n"))).toList =
      row.toList ++ '\n' :: (String.join (rows.map (· ++ "\n"))).toList := by
  simp

theorem length_le_count_lines (rows : List String) :
    rows.length ≤ (String.join (rows.map (· ++ "\n"))).toList.count '\n' := by
  induction rows with
  | nil => simp
  | cons row rows ih =>
      rw [toList_lines_cons, List.count_append, List.count_cons_self, List.length_cons]
      omega

theorem clean_iff_newline_free {text : String} :
    Clean text ↔ (∀ c ∈ text.toList, isControl c = true → c = '\n') ∧ text.toList.count '\n' = 0 := by
  rw [List.count_eq_zero]
  constructor
  · intro h
    refine ⟨fun c hc hcontrol => ?_, fun hmem => ?_⟩
    · rw [h c hc] at hcontrol
      cases hcontrol
    · have hcontrol := h '\n' hmem
      revert hcontrol
      decide
  · rintro ⟨hother, hnewline⟩ c hc
    cases hcontrol : isControl c with
    | false => rfl
    | true => exact absurd (hother c hc hcontrol ▸ hc) hnewline

/-- Rows that are ended by line feeds: no other control character, and no more line feeds than
rows, exactly if the rows are clean. -/
theorem clean_rows_iff {rows : List String} :
    ((∀ c ∈ (String.join (rows.map (· ++ "\n"))).toList, isControl c = true → c = '\n') ∧
      (String.join (rows.map (· ++ "\n"))).toList.count '\n' = rows.length) ↔
      ∀ row ∈ rows, Clean row := by
  induction rows with
  | nil => simp
  | cons row rows ih =>
      have hle := length_le_count_lines rows
      rw [toList_lines_cons, List.forall_mem_append, List.forall_mem_cons, List.count_append,
        List.count_cons_self, List.length_cons, List.forall_mem_cons, ← ih, clean_iff_newline_free]
      constructor
      · rintro ⟨⟨hrow, -, hrows⟩, hcount⟩
        exact ⟨⟨hrow, by omega⟩, hrows, by omega⟩
      · rintro ⟨⟨hrow, hzero⟩, hrows, hcount⟩
        exact ⟨⟨hrow, fun _ => rfl, hrows⟩, by omega⟩

end Clean

namespace ClassFile

/-- Every name that the class gives can be told, and a description that follows the handles of the
pool comes to an end. -/
structure Resolves (c : ClassFile) : Prop where
  className : Succeeds c.className
  superClassName : Succeeds c.superClassName?
  interfaceNames : Succeeds c.interfaceNames
  sourceFile : Succeeds c.sourceFile?
  members : ∀ x ∈ c.fields ++ c.methods,
    Succeeds (c.pool.utf8 x.name) ∧ Succeeds (c.pool.utf8 x.descriptor)
  descriptions : ∀ index constant, c.pool.get? index = some constant →
    ∃ text, c.pool.describe index = .ok text ∧ c.pool.Describes index (.ok text)

variable {bytes : Bytes} {c : ClassFile}

theorem resolves_of_wellFormed (h : c.WellFormed) : c.Resolves where
  className := h.pool.valid.succeeds_className.2 h.thisClass
  superClassName := ⟨_, superClassName?_eq h.pool.valid h.toReferences⟩
  interfaceNames := ⟨_, mapM_className h.pool.valid h.interfaces⟩
  sourceFile := ⟨_, sourceFile?_eq h.toReferences⟩
  members x hx := ⟨Pool.succeeds_utf8.2 (h.members x hx).1, Pool.succeeds_utf8.2 (h.members x hx).2⟩
  descriptions index constant hget := by
    obtain ⟨text, htext, -⟩ := Pool.says_describe h.pool.valid hget
    exact ⟨text, htext, h.pool.valid.describes_iff.2 htext.symm⟩

theorem listing_of_wellFormed (h : c.WellFormed) (options : Options) :
    ∃ rows, c.listing options = .ok (String.join (rows.map (· ++ "\n"))) ∧
      Follows rows (c.plan options) := by
  obtain ⟨rows, hrows, hfollows⟩ :=
    shows_rows h.pool.valid (Nat.le_of_lt h.pool.size_lt) options h.toReferences
  refine ⟨rows, ?_, hfollows⟩
  rw [listing, hrows]
  rfl

end ClassFile

theorem render_of_read {bytes : Bytes} {c : ClassFile} (h : ClassFile.read bytes = .ok c)
    (options : Options) : render options bytes = c.listing options := by
  rw [render, h]
  rfl

theorem render_eq_error {options : Options} {bytes : Bytes} {fault : Fault} :
    render options bytes = .error fault ↔ ClassFile.read bytes = .error fault := by
  rw [render, Checks.bind_eq_error, or_iff_left]
  rintro ⟨c, hread, hfault⟩
  obtain ⟨rows, hrows, -⟩ := ClassFile.listing_of_wellFormed (ClassFile.read_eq_ok_iff.1 hread).1 options
  rw [hrows] at hfault
  cases hfault

theorem namedListing_eq_render (options : Options) (bytes : Bytes) :
    Engine.namedListing options bytes = render options bytes := by
  rw [Engine.namedListing, render]
  cases hread : ClassFile.read bytes with
  | error fault => rfl
  | ok c =>
      obtain ⟨name, hname⟩ :=
        (ClassFile.resolves_of_wellFormed (ClassFile.read_eq_ok_iff.1 hread).1).className
      change (c.className >>= fun _ => c.listing options) = c.listing options
      rw [hname]
      rfl

/-- Whether a class is listed, and the fault if it is not, is decided by reading alone. -/
theorem render_total (bytes : Bytes) :
    (∀ c, ClassFile.read bytes = .ok c → c.Resolves ∧
      ∀ options, ∃ text, c.listing options = .ok text ∧ render options bytes = .ok text) ∧
    (∀ fault, ClassFile.read bytes = .error fault → ∀ options, render options bytes = .error fault) ∧
    ∀ options, (Engine.classFile options).run bytes =
      match render options bytes with
      | .ok text => .text text
      | .error fault => .fault fault := by
  refine ⟨fun c hread => ?_, fun fault hread options => ?_, fun options => ?_⟩
  · have hc := (ClassFile.read_eq_ok_iff.1 hread).1
    refine ⟨ClassFile.resolves_of_wellFormed hc, fun options => ?_⟩
    obtain ⟨rows, hrows, -⟩ := ClassFile.listing_of_wellFormed hc options
    exact ⟨_, hrows, by rw [render_of_read hread, hrows]⟩
  · rw [render, hread]
    rfl
  · rw [← namedListing_eq_render]
    rfl

theorem render_total_sample :
    ClassFile.read ClassFile.sample.encode = .ok ClassFile.sample ∧ ClassFile.sample.Resolves ∧
      (∃ text, render ⟨false, true, false⟩ ClassFile.sample.encode = .ok text) ∧
      ClassFile.read [0xCA, 0xFE] = .error (.unexpectedEnd 0 2) ∧
      render ⟨false, true, false⟩ [0xCA, 0xFE] = .error (.unexpectedEnd 0 2) := by
  have hread := ClassFile.read_encode ClassFile.wellFormed_sample
  have hshort : ClassFile.read [0xCA, 0xFE] = .error (.unexpectedEnd 0 2) := rfl
  obtain ⟨hresolves, hlisting⟩ := (render_total ClassFile.sample.encode).1 _ hread
  obtain ⟨text, -, htext⟩ := hlisting ⟨false, true, false⟩
  exact ⟨hread, hresolves, ⟨text, htext⟩, hshort, (render_total _).2.1 _ hshort _⟩

namespace ClassFile

/-- The listing has no control character but the line feeds that end its rows exactly if there is
none in the texts that are listed as they are. -/
theorem listing_lines_iff {bytes : Bytes} {c : ClassFile} (h : read bytes = .ok c)
    (options : Options) :
    ∃ text, c.listing options = .ok text ∧
      (((∀ ch ∈ text.toList, isControl ch = true → ch = '\n') ∧
          text.toList.count '\n' = (c.plan options).rows) ↔
        ∀ t ∈ (c.plan options).raw, Clean t) := by
  obtain ⟨rows, hrows, hlength, hclean⟩ := listing_of_wellFormed (read_eq_ok_iff.1 h).1 options
  refine ⟨_, hrows, ?_⟩
  rw [← hlength, Clean.clean_rows_iff, hclean]

/-- A line feed in the name of a class is listed as it is. -/
theorem listing_lines_iff_sample :
    read sample.encode = .ok sample ∧ ∃ text, sample.listing ⟨true, true, true⟩ = .ok text ∧
      ¬((∀ ch ∈ text.toList, isControl ch = true → ch = '\n') ∧
        text.toList.count '\n' = (sample.plan ⟨true, true, true⟩).rows) := by
  have hread := read_encode wellFormed_sample
  obtain ⟨text, htext, hiff⟩ := listing_lines_iff hread ⟨true, true, true⟩
  refine ⟨hread, text, htext, fun hlines => ?_⟩
  have hraw : "A\nB" ∈ (sample.plan ⟨true, true, true⟩).raw := by decide +kernel
  exact absurd (hiff.1 hlines _ hraw) (by decide)

end ClassFile

end ClassListing
