import ClassListing.Proofs.Layout.Pool
import ClassListing.Proofs.Listing.Code

namespace ClassListing

open Clean

theorem escapeChar_of_not_control {c : Char} (h : isControl c = false) : escapeChar c = [c] := by
  -- the characters that are written by a letter are control characters too
  have hne {d : Char} (hd : isControl d = true) : c ≠ d := by
    rintro rfl
    rw [h] at hd
    cases hd
  rw [escapeChar, if_neg (hne (by decide)), if_neg (hne (by decide)), if_neg (hne (by decide)), h]
  rfl

theorem flatMap_escapeChar {cs : List Char} (h : Plain cs) : cs.flatMap escapeChar = cs := by
  induction cs with
  | nil => rfl
  | cons c cs ih =>
      obtain ⟨hc, hcs⟩ := plain_cons.1 h
      rw [List.flatMap_cons, escapeChar_of_not_control hc, ih hcs, List.singleton_append]

theorem escape_of_clean {text : String} (h : Clean text) : escape text = text := by
  rw [escape, flatMap_escapeChar h, String.ofList_toList]

theorem escape_eq_self_iff {text : String} : escape text = text ↔ Clean text := by
  constructor
  · intro h
    rw [← h]
    exact clean_escape text
  · exact escape_of_clean

theorem escape_append (s t : String) : escape (s ++ t) = escape s ++ escape t := by
  rw [escape, String.toList_append, List.flatMap_append, String.ofList_append]
  rfl

namespace Pool

variable {pool : Pool} {index : UInt16} {constant : Constant}

def plainKinds : List ConstantKind := [.utf8, .string, .integer, .float, .long, .double]

theorem describedTexts_of_plainKind (hget : pool.get? index = some constant)
    (hkind : constant.kind ∈ plainKinds) : pool.describedTexts index = [] := by
  rw [describedTexts, hget]
  cases constant with
  | utf8 | string | integer | float | long | double => rfl
  | _ => exact absurd hkind (by simp [plainKinds, Constant.kind])

theorem Valid.clean_describe (valid : pool.Valid) (hget : pool.get? index = some constant)
    (hkind : constant.kind ∈ plainKinds) : ∃ text, pool.describe index = .ok text ∧ Clean text := by
  obtain ⟨text, htext, hclean⟩ := says_describe valid hget
  refine ⟨text, htext, hclean.2 ?_⟩
  rw [describedTexts_of_plainKind hget hkind]
  exact List.forall_mem_nil _

end Pool

/-- Escaped text holds no control character; only text with one is changed, and only once; parts are
escaped apart from each other. So no entry of a pool that was read has one among its operands, and
no number, text or string of it has one in its description. -/
theorem escape_complete_and_stable :
    (∀ text, Clean (escape text) ∧ (escape text = text ↔ Clean text) ∧
      escape (escape text) = escape text) ∧
    (∀ s t, escape (s ++ t) = escape s ++ escape t) ∧
    ∀ (c d : Cursor) (pool : Pool), Pool.read c = .ok (pool, d) →
      ∀ index constant, pool.get? index = some constant →
        Clean constant.operandText ∧
        (constant.kind ∈ Pool.plainKinds → ∃ text, pool.describe index = .ok text ∧ Clean text) := by
  refine ⟨fun text => ?_, escape_append, fun c d pool hread index constant hget => ?_⟩
  · have hclean := clean_escape text
    exact ⟨hclean, escape_eq_self_iff, escape_of_clean hclean⟩
  · have valid := Pool.valid_of_read hread
    exact ⟨clean_operandText constant, valid.clean_describe hget⟩

theorem escape_complete_and_stable_sample :
    Pool.read (.start [0, 3, 8, 0, 2, 1, 0, 2, 0x7F, 0x0A]) =
        .ok (⟨#[none, some (.string 2), some (.utf8 "\x7F\n")]⟩, ⟨10, []⟩) ∧
      ∃ text, Pool.describe ⟨#[none, some (.string 2), some (.utf8 "\x7F\n")]⟩ 1 = .ok text ∧
        Clean text := by
  have hread : Pool.read (.start [0, 3, 8, 0, 2, 1, 0, 2, 0x7F, 0x0A]) =
      .ok (⟨#[none, some (.string 2), some (.utf8 "\x7F\n")]⟩, ⟨10, []⟩) := by decide +kernel
  have hentries := escape_complete_and_stable.2.2 _ _ _ hread
  exact ⟨hread, (hentries 1 (.string 2) rfl).2 (by decide)⟩

end ClassListing
