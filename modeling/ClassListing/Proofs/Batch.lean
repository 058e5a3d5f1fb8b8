import ClassListing.Batch
import ClassListing.Proofs.NameMap
import ClassListing.Proofs.Rendering

namespace ClassListing

theorem Engine.render_eq_ok {engine : Engine} {bytes : Bytes} {text : String} :
    engine.render bytes = .ok text ↔ engine.run bytes = .text text := by
  rw [render]
  cases engine.run bytes with
  | text other => simp [conclude]
  | fault | error | crash => simp [conclude]

theorem isBlankText_of_left {text : String} (h : isBlankText text = false) (rest : String) :
    isBlankText (text ++ rest) = false := by
  rw [isBlankText, String.toList_append, List.all_append, Bool.and_eq_false_iff]
  exact .inl h

theorem isBlankText_of_right (before : String) {text : String} (h : isBlankText text = false) :
    isBlankText (before ++ text) = false := by
  rw [isBlankText, String.toList_append, List.all_append, Bool.and_eq_false_iff]
  exact .inr h

theorem Fault.isBlankText_message (fault : Fault) : isBlankText fault.message = false := by
  cases fault with
  | trailingBytes count => exact isBlankText_of_right _ (by decide)
  | _ =>
      -- all others begin with a word
      unfold message
      repeat' first | decide | apply isBlankText_of_left

theorem Engine.render_classFile (options : Options) (bytes : Bytes) :
    (classFile options).render bytes =
      (ClassListing.render options bytes).mapError fun fault => ⟨fault.message⟩ := by
  rw [render]
  simp only [classFile, namedListing_eq_render]
  cases ClassListing.render options bytes with
  | ok text => rfl
  | error fault =>
      change Except.error (Failure.ofMessage fault.message namelessError) = .error ⟨fault.message⟩
      rw [Failure.ofMessage, fault.isBlankText_message]
      rfl

theorem Engine.render_classFile_eq_error {options : Options} {bytes : Bytes} {failure : Failure} :
    (classFile options).render bytes = .error failure ↔
      ∃ fault, ClassFile.read bytes = .error fault ∧ failure = ⟨fault.message⟩ := by
  simp only [render_classFile, ← @render_eq_error options]
  cases ClassListing.render options bytes with
  | ok text => simp [Except.mapError]
  | error fault => simp [Except.mapError, eq_comm]

theorem Engine.succeeds_render_classFile {options : Options} {bytes : Bytes} :
    Succeeds ((classFile options).render bytes) ↔ Succeeds (ClassFile.read bytes) := by
  cases hread : ClassFile.read bytes with
  | error fault =>
      rw [render_classFile_eq_error.2 ⟨fault, hread, rfl⟩]
      simp [Succeeds]
  | ok c =>
      cases hrender : (classFile options).render bytes with
      | ok text => simp [Succeeds]
      | error failure =>
          obtain ⟨fault, hfault, -⟩ := render_classFile_eq_error.1 hrender
          rw [hread] at hfault
          cases hfault

/-- Names are in the order of their UTF-8 bytes. The bytes of a class are used for nothing but to
run the engine on them, so a name inside of them does not count. -/
theorem disassemble_all_or_nothing (engine : Engine) (sources : Sources) :
    (∀ results, disassemble engine sources = .ok results ↔
        results.names = sources.names ∧ ∀ name text, results.get? name = some text ↔
          ∃ bytes, sources.get? name = some bytes ∧ engine.run bytes = .text text) ∧
      (Succeeds (disassemble engine sources) ↔
        ∀ name bytes, sources.get? name = some bytes → ∃ text, engine.run bytes = .text text) ∧
      (∀ failure, disassemble engine sources = .error failure ↔
        ∃ name bytes, sources.get? name = some bytes ∧ engine.render bytes = .error failure ∧
          ∀ other bytes', sources.get? other = some bytes' → utf8Bytes other < utf8Bytes name →
            ∃ text, engine.run bytes' = .text text) ∧
      sources.names.Pairwise fun a b => utf8Bytes a < utf8Bytes b := by
  simp only [Utf8.utf8Bytes_lt_iff, ← Engine.render_eq_ok]
  exact ⟨fun _ => NameMap.mapM_eq_ok, NameMap.succeeds_mapM, fun _ => NameMap.mapM_eq_error,
    sources.pairwise_names⟩

/-- Some character of the text is no white space. -/
def Visible (text : String) : Prop := ∃ c ∈ text.toList, isBlank c = false

theorem visible_iff {text : String} : Visible text ↔ isBlankText text = false := by
  rw [isBlankText, List.all_eq_false]
  simp only [Visible, Bool.not_eq_true]

theorem not_visible_iff {text : String} : ¬Visible text ↔ isBlankText text = true := by
  rw [visible_iff, Bool.not_eq_false]

namespace Engine

/-- The message that a batch has for the class that made it fail, by how the run on it ended. -/
inductive Reports (engine : Engine) : Outcome → String → Prop
  | fault (fault : Fault) : Reports engine (.fault fault) fault.message
  | error {text : String} (h : Visible text) : Reports engine (.error text) text
  | blankError {text : String} (h : ¬Visible text) :
      Reports engine (.error text) "classtrace_core::services::disassembly::EngineError"
  | crash {text : String} (h : Visible text) : Reports engine (.crash (some text)) text
  | blankCrash {text : String} (h : ¬Visible text) :
      Reports engine (.crash (some text)) ("engine '" ++ engine.name ++ "' panicked")
  | mutedCrash : Reports engine (.crash none) ("engine '" ++ engine.name ++ "' panicked")

variable {engine : Engine} {outcome : Outcome} {failure : Failure}

theorem visible_crashText (engine : Engine) : Visible engine.crashText := by
  refine visible_iff.2 (isBlankText_of_left (isBlankText_of_left ?_ _) _)
  decide

theorem reports_of_conclude (h : engine.conclude outcome = .error failure) :
    engine.Reports outcome failure.message := by
  cases outcome with
  | text text => cases h
  | fault fault =>
      obtain rfl := Except.error.inj h
      rw [Failure.ofMessage, fault.isBlankText_message]
      exact .fault fault
  | error text =>
      obtain rfl := Except.error.inj h
      rw [Failure.ofMessage]
      by_cases hblank : isBlankText text = true
      · rw [if_pos hblank]
        exact .blankError (not_visible_iff.2 hblank)
      · rw [if_neg hblank]
        exact .error (visible_iff.2 (Bool.eq_false_iff.2 hblank))
  | crash payload =>
      obtain rfl := Except.error.inj h
      rw [Failure.ofMessage]
      cases payload with
      | none => exact .mutedCrash
      | some text =>
          rw [Option.getD_some]
          by_cases hblank : isBlankText text = true
          · rw [if_pos hblank]
            exact .blankCrash (not_visible_iff.2 hblank)
          · rw [if_neg hblank]
            exact .crash (visible_iff.2 (Bool.eq_false_iff.2 hblank))

theorem conclude_of_reports {message : String} (h : engine.Reports outcome message) :
    engine.conclude outcome = .error ⟨message⟩ := by
  cases h with
  | fault fault => rw [conclude, Failure.ofMessage, fault.isBlankText_message]; rfl
  | error h => rw [conclude, Failure.ofMessage, visible_iff.1 h]; rfl
  | blankError h => rw [conclude, Failure.ofMessage, not_visible_iff.1 h]; rfl
  | crash h => rw [conclude, Failure.ofMessage, Option.getD_some, visible_iff.1 h]; rfl
  | blankCrash h => rw [conclude, Failure.ofMessage, Option.getD_some, not_visible_iff.1 h]; rfl
  | mutedCrash => rfl

theorem render_eq_error {bytes : Bytes} :
    engine.render bytes = .error failure ↔ engine.Reports (engine.run bytes) failure.message :=
  ⟨reports_of_conclude, conclude_of_reports⟩

theorem Reports.visible {message : String} (h : engine.Reports outcome message) : Visible message := by
  cases h with
  | fault fault => exact visible_iff.2 fault.isBlankText_message
  | error h => exact h
  | blankError => exact visible_iff.2 (by decide)
  | crash h => exact h
  | blankCrash => exact engine.visible_crashText
  | mutedCrash => exact engine.visible_crashText

end Engine

theorem disassemble_eq_error {engine : Engine} {sources : Sources} {failure : Failure} :
    disassemble engine sources = .error failure ↔
      ∃ name bytes, sources.get? name = some bytes ∧
        engine.Reports (engine.run bytes) failure.message ∧
        ∀ other bytes', sources.get? other = some bytes' → utf8Bytes other < utf8Bytes name →
          ∃ text, engine.run bytes' = .text text := by
  simp only [Utf8.utf8Bytes_lt_iff, ← Engine.render_eq_ok, ← Engine.render_eq_error]
  exact NameMap.mapM_eq_error

theorem disassemble_classFile_eq_error {options : Options} {sources : Sources} {failure : Failure} :
    disassemble (.classFile options) sources = .error failure ↔
      ∃ name bytes fault, sources.get? name = some bytes ∧ ClassFile.read bytes = .error fault ∧
        failure = ⟨fault.message⟩ ∧
        ∀ other bytes', sources.get? other = some bytes' → utf8Bytes other < utf8Bytes name →
          Succeeds (ClassFile.read bytes') := by
  simp only [Utf8.utf8Bytes_lt_iff, ← @Engine.succeeds_render_classFile options]
  refine NameMap.mapM_eq_error.trans ?_
  simp only [Engine.render_classFile_eq_error]
  constructor
  · rintro ⟨name, bytes, hget, ⟨fault, hread, hfailure⟩, hbefore⟩
    exact ⟨name, bytes, fault, hget, hread, hfailure, hbefore⟩
  · rintro ⟨name, bytes, fault, hget, hread, hfailure, hbefore⟩
    exact ⟨name, bytes, hget, ⟨fault, hread, hfailure⟩, hbefore⟩

/-- A class without a text is reported by its cause, and by something else only if its cause cannot
be seen. A class file that does not read is always reported by its fault. -/
theorem disassemble_reports_cause (engine : Engine) (sources : Sources) :
    (∀ failure, disassemble engine sources = .error failure ↔
      ∃ name bytes, sources.get? name = some bytes ∧
        engine.Reports (engine.run bytes) failure.message ∧
        ∀ other bytes', sources.get? other = some bytes' → utf8Bytes other < utf8Bytes name →
          ∃ text, engine.run bytes' = .text text) ∧
      (∀ failure, disassemble engine sources = .error failure → Visible failure.message) ∧
      (∀ fault : Fault, Visible fault.message) ∧
      ∀ options, (∃ name bytes, sources.get? name = some bytes ∧ ¬Succeeds (ClassFile.read bytes)) →
        ∃ name bytes fault, sources.get? name = some bytes ∧ ClassFile.read bytes = .error fault ∧
          disassemble (.classFile options) sources = .error ⟨fault.message⟩ ∧
          ∀ other bytes', sources.get? other = some bytes' → utf8Bytes other < utf8Bytes name →
            Succeeds (ClassFile.read bytes') := by
  refine ⟨fun _ => disassemble_eq_error, fun failure h => ?_,
    fun fault => visible_iff.2 fault.isBlankText_message, fun options h => ?_⟩
  · obtain ⟨name, bytes, -, hreports, -⟩ := disassemble_eq_error.1 h
    exact hreports.visible
  · obtain ⟨name, bytes, hget, hread⟩ := h
    cases hresult : disassemble (.classFile options) sources with
    | ok results =>
        have hall := NameMap.succeeds_mapM.1 ⟨results, hresult⟩ name bytes hget
        exact absurd (Engine.succeeds_render_classFile.1 hall) hread
    | error failure =>
        obtain ⟨name, bytes, fault, hget, hread, rfl, hbefore⟩ :=
          disassemble_classFile_eq_error.1 hresult
        exact ⟨name, bytes, fault, hget, hread, rfl, hbefore⟩

def Engine.brittle : Engine where
  name := "brittle"
  run _ := .crash (some "\u3000\n")

def cutBatch : Sources := .ofList [("A", [0xCA, 0xFE])]

theorem disassemble_reports_cause_sample :
    disassemble .brittle cutBatch = .error ⟨"engine 'brittle' panicked"⟩ ∧
      Visible "engine 'brittle' panicked" ∧
      ∃ name bytes fault, cutBatch.get? name = some bytes ∧ ClassFile.read bytes = .error fault ∧
        disassemble (.classFile ⟨true, true, true⟩) cutBatch = .error ⟨fault.message⟩ := by
  have hget : cutBatch.get? "A" = some [0xCA, 0xFE] := by decide
  have hread : ¬Succeeds (ClassFile.read [0xCA, 0xFE]) := by
    rintro ⟨c, hc⟩
    cases hc
  have hfailure : disassemble .brittle cutBatch = .error ⟨"engine 'brittle' panicked"⟩ := rfl
  obtain ⟨-, hvisible, -, hfault⟩ := disassemble_reports_cause .brittle cutBatch
  obtain ⟨name, bytes, fault, hname, hbytes, hresult, -⟩ :=
    hfault ⟨true, true, true⟩ ⟨"A", _, hget, hread⟩
  exact ⟨hfailure, hvisible _ hfailure, name, bytes, fault, hname, hbytes, hresult⟩

end ClassListing
