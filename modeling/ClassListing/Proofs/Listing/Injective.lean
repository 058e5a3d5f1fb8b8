import ClassListing.Proofs.Instruction.Decoding
import ClassListing.Proofs.Layout.Pool
import ClassListing.Proofs.Listing.Options
import ClassListing.Proofs.Text.Token

namespace ClassListing

open Numeral ClassFile

open Pool (valid_of_read)

theorem toList_lines (row : String) (rows : List String) :
    (lines (row :: rows)).toList = row.toList ++ '\n' :: (lines rows).toList :=
  Clean.toList_lines_cons row rows

theorem isBlank_of_isDigit {c : Char} (h : c.isDigit = true) : isBlank c = false := by
  apply isBlank_of_isWord
  simp only [Char.isDigit, Bool.and_eq_true, decide_eq_true_eq] at h
  simp only [isWord, Bool.and_eq_true, decide_eq_true_eq]
  exact ⟨h.1, UInt32.le_trans h.2 (by decide)⟩

theorem isBlank_of_isSigned {c : Char} (h : isSigned c = true) : isBlank c = false := by
  rcases Bool.or_eq_true_iff.1 h with h | h
  · exact isBlank_of_isDigit h
  · rw [beq_iff_eq.1 h]
    decide

def Inked (cs : List Char) : Prop := ∃ c ∈ cs.getLast?, isBlank c = false

theorem inked_of_forall {cs : List Char} (hne : cs ≠ []) (h : ∀ c ∈ cs, isBlank c = false) : Inked cs :=
  ⟨cs.getLast hne, List.getLast?_eq_some_getLast hne, h _ (List.getLast_mem hne)⟩

theorem Token.inked {α : Type} {p : Char → Bool} {write : α → String} (hw : Token p write)
    (hp : ∀ c, p c = true → isBlank c = false) (a : α) : Inked (write a).toList :=
  inked_of_forall (hw.nonempty a) fun c hc => hp c (hw.chars a c hc)

theorem Inked.append {cs : List Char} (h : Inked cs) (before : List Char) : Inked (before ++ cs) := by
  obtain ⟨c, hc, hblank⟩ := h
  obtain ⟨others, rfl⟩ := List.getLast?_eq_some_iff.1 hc
  refine ⟨c, ?_, hblank⟩
  rw [← List.append_assoc]
  exact List.getLast?_concat

theorem toList_trimRight {text : String} {cs : List Char} {n : Nat} (h : Inked cs)
    (htext : text.toList = cs ++ List.replicate n ' ') : (trimRight text).toList = cs := by
  obtain ⟨c, hc, hblank⟩ := h
  obtain ⟨others, rfl⟩ := List.getLast?_eq_some_iff.1 hc
  have hblanks : ∀ d ∈ List.replicate n ' ', isBlank d = true := by
    intro d hd
    rw [List.eq_of_mem_replicate hd]
    decide
  have hneg : ¬isBlank c = true := by
    rw [hblank]
    decide
  rw [trimRight, String.toList_ofList, htext, List.reverse_append, List.reverse_replicate,
    List.dropWhile_append_of_pos hblanks, List.reverse_append, List.reverse_singleton,
    List.singleton_append, List.dropWhile_cons_of_neg hneg, List.reverse_cons, List.reverse_reverse]

def Gap (cs : List Char) : Prop := ∃ c rest, cs = c :: rest ∧ (c = ' ' ∨ c = '\n')

theorem gap_blank (cs : List Char) : Gap (' ' :: cs) := ⟨' ', cs, rfl, .inl rfl⟩

theorem gap_newline (cs : List Char) : Gap ('\n' :: cs) := ⟨'\n', cs, rfl, .inr rfl⟩

theorem Gap.append {cs : List Char} (h : Gap cs) (more : List Char) : Gap (cs ++ more) := by
  obtain ⟨c, rest, rfl, hc⟩ := h
  exact ⟨c, rest ++ more, rfl, hc⟩

theorem Gap.ends {cs : List Char} (h : Gap cs) {p : Char → Bool} (hblank : p ' ' = false)
    (hnewline : p '\n' = false) : Ends p cs := by
  obtain ⟨c, rest, rfl, rfl | rfl⟩ := h
  · exact ends_cons.2 hblank
  · exact ends_cons.2 hnewline

theorem Token.gap_inj {α : Type} {p : Char → Bool} {write : α → String} (hw : Token p write)
    (hblank : p ' ' = false) (hnewline : p '\n' = false) {a b : α} {s t : List Char} (hs : Gap s)
    (ht : Gap t) (h : (write a).toList ++ s = (write b).toList ++ t) : a = b :=
  (hw.append_inj (hs.ends hblank hnewline) (ht.ends hblank hnewline) h).1

/-- Operands of the same form are read from the wide and from the narrow shape. -/
def OperandShape.form : OperandShape → OperandShape
  | .signedByte => .signedShort
  | .shortIndex => .index
  | .wideBranch => .branch
  | shape => shape

namespace Operands

def form : Operands → OperandShape
  | none => .none
  | immediate _ => .signedShort
  | constant _ => .index
  | slot _ => .slot
  | increment _ _ => .increment
  | branch _ => .branch
  | tableSwitch _ _ _ _ => .tableSwitch
  | lookupSwitch _ _ => .lookupSwitch
  | invokeInterface _ _ => .invokeInterface
  | invokeDynamic _ => .invokeDynamic
  | newArray _ => .newArray
  | multiNewArray _ _ => .multiNewArray

theorem form_of_mem_shapes {o : Operands} {shape : OperandShape} (h : shape ∈ o.shapes) :
    o.form = shape.form := by
  cases o with
  | immediate | constant | branch =>
      rcases List.mem_pair.1 h with rfl | rfl
      · rfl
      · rfl
  | _ =>
      obtain rfl := List.mem_singleton.1 h
      rfl

def isSwitch (o : Operands) : Bool := o.form == .tableSwitch || o.form == .lookupSwitch

theorem eq_none_of_form {o : Operands} (h : o.form = .none) : o = none := by
  cases o with
  | none => rfl
  | _ => cases h

theorem eq_tableSwitch_of_form {o : Operands} (h : o.form = .tableSwitch) :
    ∃ default low high targets, o = tableSwitch default low high targets := by
  cases o with
  | tableSwitch default low high targets => exact ⟨default, low, high, targets, rfl⟩
  | _ => cases h

theorem eq_lookupSwitch_of_form {o : Operands} (h : o.form = .lookupSwitch) :
    ∃ default cases, o = lookupSwitch default cases := by
  cases o with
  | lookupSwitch default cases => exact ⟨default, cases, rfl⟩
  | _ => cases h

def text : Operands → String
  | immediate value => decimal value.toInt
  | slot index => natural index.toNat
  | branch target => natural target
  | increment index delta => natural index.toNat ++ ", " ++ decimal delta.toInt
  | newArray element => element.name
  | constant index => indexText index
  | invokeInterface index count => indexText index ++ ",  " ++ natural count.toNat
  | invokeDynamic index => indexText index ++ ",  0"
  | multiNewArray index dimensions => indexText index ++ ",  " ++ natural dimensions.toNat
  | none | tableSwitch _ _ _ _ | lookupSwitch _ _ => ""

theorem index_natural_inj {m n : UInt16} {k l : UInt8} {s t : List Char} (hs : Gap s) (ht : Gap t)
    (h : (indexText m ++ ",  " ++ natural k.toNat).toList ++ s =
      (indexText n ++ ",  " ++ natural l.toNat).toList ++ t) : m = n ∧ k = l := by
  simp only [String.toList_append, String.reduceToList, List.append_assoc, List.cons_append,
    List.nil_append] at h
  obtain ⟨hmn, h⟩ := token_index.append_cons_inj rfl h
  simp only [List.cons.injEq, true_and] at h
  exact ⟨hmn, UInt8.toNat_inj.1 (token_natural.gap_inj rfl rfl hs ht h)⟩

theorem text_inj {o o' : Operands} (hform : o'.form = o.form) (hswitch : o.isSwitch = false)
    {s t : List Char} (hs : Gap s) (ht : Gap t) (h : o.text.toList ++ s = o'.text.toList ++ t) :
    o = o' := by
  cases o with
  | none => exact (eq_none_of_form hform).symm
  | immediate value =>
      cases o' with
      | immediate value' =>
          rw [Int16.toInt_inj.1 (token_decimal.gap_inj rfl rfl hs ht h)]
      | _ => cases hform
  | slot index =>
      cases o' with
      | slot index' =>
          rw [UInt16.toNat_inj.1 (token_natural.gap_inj rfl rfl hs ht h)]
      | _ => cases hform
  | branch target =>
      cases o' with
      | branch target' =>
          rw [token_natural.gap_inj rfl rfl hs ht h]
      | _ => cases hform
  | increment index delta =>
      cases o' with
      | increment index' delta' =>
          simp only [text, String.toList_append, String.reduceToList, List.append_assoc,
            List.cons_append, List.nil_append] at h
          obtain ⟨hindex, h⟩ := token_natural.append_cons_inj rfl h
          have hdelta := token_decimal.gap_inj rfl rfl hs ht (List.cons.inj h).2
          rw [UInt16.toNat_inj.1 hindex, Int16.toInt_inj.1 hdelta]
      | _ => cases hform
  | newArray element =>
      cases o' with
      | newArray element' =>
          rw [ArrayType.token_name.gap_inj rfl rfl hs ht h]
      | _ => cases hform
  | constant index =>
      cases o' with
      | constant index' =>
          rw [token_index.gap_inj rfl rfl hs ht h]
      | _ => cases hform
  | invokeInterface index count =>
      cases o' with
      | invokeInterface index' count' =>
          obtain ⟨rfl, rfl⟩ := index_natural_inj hs ht h
          rfl
      | _ => cases hform
  | invokeDynamic index =>
      cases o' with
      | invokeDynamic index' =>
          simp only [text, String.toList_append, String.reduceToList, List.append_assoc,
            List.cons_append] at h
          rw [(token_index.append_cons_inj rfl h).1]
      | _ => cases hform
  | multiNewArray index dimensions =>
      cases o' with
      | multiNewArray index' dimensions' =>
          obtain ⟨rfl, rfl⟩ := index_natural_inj hs ht h
          rfl
      | _ => cases hform
  | tableSwitch | lookupSwitch => cases hswitch

theorem inked_text {o : Operands} (hswitch : o.isSwitch = false)
    (hindex : o.poolIndex? = Option.none) (hnone : o ≠ .none) : Inked o.text.toList := by
  have hnatural (n : Nat) : Inked (natural n).toList :=
    token_natural.inked (fun _ => isBlank_of_isDigit) n
  have hdecimal (n : Int) : Inked (decimal n).toList :=
    token_decimal.inked (fun _ => isBlank_of_isSigned) n
  cases o with
  | none => exact absurd rfl hnone
  | immediate value => exact hdecimal _
  | slot index => exact hnatural _
  | branch target => exact hnatural _
  | increment index delta =>
      rw [text, String.toList_append]
      exact (hdecimal _).append _
  | newArray element => exact ArrayType.token_name.inked (fun _ => isBlank_of_isWord) element
  | constant | invokeInterface | invokeDynamic | multiNewArray => cases hindex
  | tableSwitch | lookupSwitch => cases hswitch

end Operands

namespace Instruction

variable {pool : Pool} {i j : Instruction} {s t : List Char}

/-- What the first row starts with, without the blanks after the mnemonic. -/
def front (i : Instruction) : List Char :=
  (Column.right 10 (natural i.offset)).toList ++ ':' :: ' ' :: i.mnemonicText.toList

theorem toList_label (i : Instruction) :
    i.label.toList = i.front ++ ' ' :: List.replicate (13 - i.mnemonicText.toList.length) ' ' := by
  simp only [label, front, String.toList_append, Column.toList_left, String.reduceToList, List.append_assoc,
    List.cons_append, List.nil_append]
  rw [← List.replicate_succ', List.replicate_succ]

theorem inked_front (i : Instruction) : Inked i.front := by
  have hmnemonic : Inked i.opcode.mnemonic.toList :=
    Opcode.token_mnemonic.inked (fun _ => isBlank_of_isWord) i.opcode
  have htext : Inked i.mnemonicText.toList := by
    rw [mnemonicText]
    split
    · rw [String.toList_append]
      exact hmnemonic.append _
    · exact hmnemonic
  have hfront := htext.append ((Column.right 10 (natural i.offset)).toList ++ [':', ' '])
  rw [List.append_assoc] at hfront
  exact hfront

theorem toList_plainRow_empty (i : Instruction) : (i.plainRow "").toList = i.front := by
  rw [plainRow, String.append_empty]
  apply toList_trimRight i.inked_front
  rw [toList_label, List.replicate_succ]

theorem toList_plainRow (i : Instruction) {operand : String} (h : Inked operand.toList) :
    (i.plainRow operand).toList = i.label.toList ++ operand.toList := by
  apply toList_trimRight (h.append _) (n := 0)
  rw [String.toList_append, List.replicate_zero, List.append_nil]

theorem toList_commentedRow (i : Instruction) (operand comment : String) :
    ∃ after, Gap after ∧
      (i.commentedRow operand comment).toList = i.label.toList ++ (operand.toList ++ after) := by
  refine ⟨List.replicate (32 - (Column.left 13 i.mnemonicText ++ " " ++ operand).toList.length) ' ' ++
    (" // ".toList ++ comment.toList), ?_, ?_⟩
  · cases 32 - (Column.left 13 i.mnemonicText ++ " " ++ operand).toList.length with
    | zero => exact gap_blank _
    | succ n => exact gap_blank _
  · simp only [commentedRow, label, Column.toList_left, String.toList_append, List.append_assoc]

def casesText : List (Int × Nat) → Nat → List Char
  | [], default => (caseRow "default" default).toList ++ ['\n']
  | (key, target) :: cases, default =>
    (caseRow (decimal key) target).toList ++ '\n' :: casesText cases default

theorem toList_lines_cases (cases : List (Int × Nat)) (default : Nat) (closing : String) :
    (lines (cases.map (fun (key, target) => caseRow (decimal key) target) ++
      [caseRow "default" default, closing])).toList =
        casesText cases default ++ (closing.toList ++ ['\n']) := by
  induction cases with
  | nil =>
      rw [List.map_nil, List.nil_append, toList_lines, toList_lines, casesText, List.append_assoc]
      rfl
  | cons case cases ih =>
      rw [List.map_cons, List.cons_append, toList_lines, ih, casesText, List.append_assoc]
      rfl

theorem toList_switchRows (i : Instruction) (summary : String) (cases : List (Int × Nat)) (default : Nat) :
    (lines (i.switchRows summary cases default)).toList = i.label.toList ++
      ("\x7b // ".toList ++ (summary.toList ++ '\n' :: (casesText cases default ++
        ((Column.right 13 "\x7d").toList ++ ['\n'])))) := by
  rw [switchRows, List.cons_append, toList_lines, toList_lines_cases]
  simp only [String.toList_append, List.append_assoc]

theorem rows_of_plain {o : Operands} (h : i.operands = o) (hswitch : o.isSwitch = false)
    (hindex : o.poolIndex? = none) : i.rows pool = .ok [i.plainRow o.text] := by
  rw [rows, h]
  cases o with
  | constant | invokeInterface | invokeDynamic | multiNewArray => cases hindex
  | tableSwitch | lookupSwitch => cases hswitch
  | _ => rfl

theorem rows_of_poolIndex {index : UInt16} (hindex : i.operands.poolIndex? = some index) :
    i.rows pool = do return [i.commentedRow i.operands.text (← pool.operandComment index)] := by
  rw [rows]
  cases hop : i.operands with
  | constant | invokeInterface | invokeDynamic | multiNewArray =>
      rw [hop] at hindex
      cases hindex
      rfl
  | _ =>
      rw [hop] at hindex
      cases hindex

theorem rows_of_switch (pool : Pool) (hswitch : i.operands.isSwitch = true) :
    ∃ summary cases default, i.rows pool = .ok (i.switchRows summary cases default) := by
  rw [rows]
  cases hop : i.operands with
  | tableSwitch | lookupSwitch => exact ⟨_, _, _, rfl⟩
  | _ =>
      rw [hop] at hswitch
      cases hswitch

theorem exists_after_operands {rows : List String} (hswitch : i.operands.isSwitch = false)
    (hnone : i.operands ≠ .none) (h : i.rows pool = .ok rows) :
    ∃ after, Gap after ∧
      (lines rows).toList = i.label.toList ++ (i.operands.text.toList ++ after) := by
  cases hindex : i.operands.poolIndex? with
  | none =>
      rw [rows_of_plain rfl hswitch hindex] at h
      obtain rfl := Except.ok.inj h
      refine ⟨['\n'], gap_newline _, ?_⟩
      rw [toList_lines, toList_plainRow i (Operands.inked_text hswitch hindex hnone), List.append_assoc]
      rfl
  | some index =>
      rw [rows_of_poolIndex hindex] at h
      obtain ⟨comment, -, h⟩ := Checks.bind_eq_ok.1 h
      obtain rfl := Checks.pure_eq_ok.1 h
      obtain ⟨after, hgap, hrow⟩ := i.toList_commentedRow i.operands.text comment
      refine ⟨after ++ ['\n'], hgap.append _, ?_⟩
      rw [toList_lines, hrow, List.append_assoc, List.append_assoc]
      rfl

theorem exists_after_front {rows : List String} (h : i.rows pool = .ok rows) :
    ∃ after, Gap after ∧ (lines rows).toList = i.front ++ after := by
  by_cases hnone : i.operands = .none
  · rw [rows_of_plain hnone rfl rfl] at h
    obtain rfl := Except.ok.inj h
    refine ⟨['\n'], gap_newline _, ?_⟩
    rw [toList_lines, Operands.text, toList_plainRow_empty]
    rfl
  · have hlabel (more : List Char) : ∃ after, Gap after ∧ i.label.toList ++ more = i.front ++ after := by
      rw [toList_label, List.append_assoc]
      exact ⟨_, gap_blank _, rfl⟩
    cases hswitch : i.operands.isSwitch with
    | false =>
        obtain ⟨after, -, hlines⟩ := exists_after_operands hswitch hnone h
        rw [hlines]
        exact hlabel _
    | true =>
        obtain ⟨summary, cases, default, hrows⟩ := rows_of_switch pool hswitch
        rw [hrows] at h
        obtain rfl := Except.ok.inj h
        rw [toList_switchRows]
        exact hlabel _

theorem wide_append_ne {op op' : Opcode} (hop : op'.mnemonic ≠ "wide") (ht : Ends isWord t) :
    ("wide " ++ op.mnemonic).toList ++ s ≠ op'.mnemonic.toList ++ t := by
  intro h
  have hsplit : "wide ".toList = "wide".toList ++ [' '] := by decide
  rw [String.toList_append, hsplit, List.append_assoc, List.append_assoc] at h
  have hchars : "wide".toList.all isWord = true := by decide
  obtain ⟨hname, -⟩ := append_inj_of_ends (List.all_eq_true.1 hchars) (Clean.isWord_mnemonic op')
    (ends_cons.2 rfl) ht h
  exact hop (String.toList_inj.1 hname.symm)

theorem mnemonicText_append_inj (hi : i.opcode.mnemonic ≠ "wide") (hj : j.opcode.mnemonic ≠ "wide")
    (hs : Ends isWord s) (ht : Ends isWord t)
    (h : i.mnemonicText.toList ++ s = j.mnemonicText.toList ++ t) :
    i.opcode = j.opcode ∧ i.wide = j.wide := by
  rw [mnemonicText, mnemonicText] at h
  cases hwide : i.wide with
  | false =>
      cases hwide' : j.wide with
      | false =>
          rw [hwide, hwide'] at h
          exact ⟨(Opcode.token_mnemonic.append_inj hs ht h).1, rfl⟩
      | true =>
          rw [hwide, hwide'] at h
          exact absurd h.symm (wide_append_ne hi hs)
  | true =>
      cases hwide' : j.wide with
      | false =>
          rw [hwide, hwide'] at h
          exact absurd h (wide_append_ne hj ht)
      | true =>
          rw [hwide, hwide', if_pos rfl, if_pos rfl, String.toList_append, String.toList_append,
            List.append_assoc, List.append_assoc] at h
          exact ⟨(Opcode.token_mnemonic.append_inj hs ht (List.append_cancel_left h)).1, rfl⟩

theorem front_append_inj (hi : i.opcode.mnemonic ≠ "wide") (hj : j.opcode.mnemonic ≠ "wide")
    (hs : Ends isWord s) (ht : Ends isWord t) (h : i.front ++ s = j.front ++ t) :
    i.offset = j.offset ∧ i.opcode = j.opcode ∧ i.wide = j.wide := by
  rw [front, front, List.append_assoc, List.append_assoc, List.cons_append, List.cons_append,
    List.cons_append, List.cons_append] at h
  obtain ⟨hoffset, h⟩ := token_natural.right_append_cons_inj rfl rfl h
  exact ⟨hoffset, mnemonicText_append_inj hi hj hs ht (List.cons.inj h).2⟩

def keyText : Option Int → String
  | none => "default"
  | some key => decimal key

def isKey (c : Char) : Bool := c != ':' && c != ' '

theorem isKey_of_isSigned {c : Char} (h : isSigned c = true) : isKey c = true := by
  rw [isKey, Bool.and_eq_true, bne_iff_ne, bne_iff_ne]
  constructor
  · intro hc
    rw [hc] at h
    cases h
  · intro hc
    rw [hc] at h
    cases h

theorem token_key : Token isKey keyText := by
  refine ⟨?_, ?_, ?_⟩
  · intro key
    cases key with
    | none => exact List.all_eq_true.1 (by decide)
    | some key => exact fun c hc => isKey_of_isSigned (token_decimal.chars key c hc)
  · intro key
    cases key with
    | none => decide
    | some key => exact token_decimal.nonempty key
  · have hdefault (key : Int) : "default" ≠ decimal key := by
      intro h
      have hd : 'd' ∈ (decimal key).toList := by
        rw [← h]
        decide
      exact absurd (token_decimal.chars key 'd' hd) (by decide)
    intro a b h
    cases a with
    | none =>
        cases b with
        | none => rfl
        | some key => exact absurd h (hdefault key)
    | some key =>
        cases b with
        | none => exact absurd h.symm (hdefault key)
        | some key' => exact congrArg some (token_decimal.injective h)

theorem caseRow_append_inj {a b : Option Int} {m n : Nat}
    (h : (caseRow (keyText a) m).toList ++ '\n' :: s = (caseRow (keyText b) n).toList ++ '\n' :: t) :
    a = b ∧ m = n ∧ s = t := by
  simp only [caseRow, String.toList_append, String.reduceToList, List.append_assoc, List.cons_append,
    List.nil_append] at h
  obtain ⟨hkey, h⟩ := token_key.right_append_cons_inj rfl rfl h
  obtain ⟨htarget, h⟩ := token_natural.append_cons_inj rfl (List.cons.inj h).2
  exact ⟨hkey, htarget, h⟩

theorem casesText_append_inj {cases cases' : List (Int × Nat)} {default default' : Nat}
    (h : casesText cases default ++ s = casesText cases' default' ++ t) :
    cases = cases' ∧ default = default' ∧ s = t := by
  induction cases generalizing cases' with
  | nil =>
      cases cases' with
      | nil =>
          rw [casesText, casesText, List.append_assoc, List.append_assoc] at h
          exact ⟨rfl, (caseRow_append_inj (a := none) (b := none) h).2⟩
      | cons case cases' =>
          rw [casesText, casesText, List.append_assoc, List.append_assoc] at h
          cases (caseRow_append_inj (a := none) (b := some case.1) h).1
  | cons case cases ih =>
      cases cases' with
      | nil =>
          rw [casesText, casesText, List.append_assoc, List.append_assoc] at h
          cases (caseRow_append_inj (a := some case.1) (b := none) h).1
      | cons case' cases' =>
          rw [casesText, casesText, List.append_assoc, List.append_assoc] at h
          obtain ⟨hkey, htarget, h⟩ := caseRow_append_inj (a := some case.1) (b := some case'.1) h
          obtain ⟨rfl, hrest⟩ := ih h
          rw [Prod.ext (Option.some.inj hkey) htarget]
          exact ⟨rfl, hrest⟩

theorem switchRows_append_inj (hlabel : i.label = j.label) {summary summary' : String}
    {cases cases' : List (Int × Nat)} {default default' : Nat}
    (h : (lines (i.switchRows summary cases default)).toList ++ s =
      (lines (j.switchRows summary' cases' default')).toList ++ t) :
    ∃ u v, summary.toList ++ '\n' :: (casesText cases default ++ u) =
      summary'.toList ++ '\n' :: (casesText cases' default' ++ v) := by
  rw [toList_switchRows, toList_switchRows, hlabel] at h
  simp only [List.append_assoc, List.cons_append, List.append_cancel_left_eq] at h
  exact ⟨_, _, h⟩

theorem map_snd_tableCases (low : Int) (targets : List Nat) :
    (tableCases low targets).map (·.2) = targets := by
  rw [tableCases, List.map_map]
  exact List.zipIdx_map_fst 0 targets

theorem tableSwitch_inj (hlabel : i.label = j.label) {default default' : Nat}
    {low high low' high' : Int32} {targets targets' : List Nat}
    (h : (lines (i.switchRows (decimal low.toInt ++ " to " ++ decimal high.toInt)
        (tableCases low.toInt targets) default)).toList ++ s =
      (lines (j.switchRows (decimal low'.toInt ++ " to " ++ decimal high'.toInt)
        (tableCases low'.toInt targets') default')).toList ++ t) :
    Operands.tableSwitch default low high targets = .tableSwitch default' low' high' targets' := by
  obtain ⟨u, v, h⟩ := switchRows_append_inj hlabel h
  simp only [String.toList_append, String.reduceToList, List.append_assoc, List.cons_append,
    List.nil_append] at h
  obtain ⟨hlow, h⟩ := token_decimal.append_cons_inj rfl h
  simp only [List.cons.injEq, true_and] at h
  obtain ⟨hhigh, h⟩ := token_decimal.append_cons_inj rfl h
  obtain ⟨hcases, hdefault, -⟩ := casesText_append_inj h
  have htargets : targets = targets' := by
    rw [← map_snd_tableCases low.toInt targets, hcases, map_snd_tableCases]
  rw [Int32.toInt_inj.1 hlow, Int32.toInt_inj.1 hhigh, hdefault, htargets]

theorem lookupSwitch_inj (hlabel : i.label = j.label) {default default' : Nat}
    {cases cases' : List (Int32 × Nat)}
    (h : (lines (i.switchRows (natural cases.length)
        (cases.map fun (key, target) => (key.toInt, target)) default)).toList ++ s =
      (lines (j.switchRows (natural cases'.length)
        (cases'.map fun (key, target) => (key.toInt, target)) default')).toList ++ t) :
    Operands.lookupSwitch default cases = .lookupSwitch default' cases' := by
  obtain ⟨u, v, h⟩ := switchRows_append_inj hlabel h
  obtain ⟨-, h⟩ := token_natural.append_cons_inj rfl h
  obtain ⟨hcases, hdefault, -⟩ := casesText_append_inj h
  have hinj : Function.Injective fun case : Int32 × Nat => (case.1.toInt, case.2) := by
    intro a b hab
    rw [Prod.mk.injEq] at hab
    exact Prod.ext (Int32.toInt_inj.1 hab.1) hab.2
  rw [hinj.list_map hcases, hdefault]

theorem row_operands_inj (hlabel : i.label = j.label) (hform : j.operands.form = i.operands.form)
    (hswitch : i.operands.isSwitch = false) (hnone : i.operands ≠ .none) {rows rows' : List String}
    (hrows : i.rows pool = .ok rows) (hrows' : j.rows pool = .ok rows')
    (h : (lines rows).toList ++ s = (lines rows').toList ++ t) : i.operands = j.operands := by
  have hswitch' : j.operands.isSwitch = false := by
    rw [Operands.isSwitch, hform]
    exact hswitch
  have hnone' : j.operands ≠ .none := by
    intro hj
    rw [hj] at hform
    exact hnone (Operands.eq_none_of_form hform.symm)
  obtain ⟨u, hu, htext⟩ := exists_after_operands hswitch hnone hrows
  obtain ⟨v, hv, htext'⟩ := exists_after_operands hswitch' hnone' hrows'
  rw [htext, htext', hlabel] at h
  simp only [List.append_assoc, List.append_cancel_left_eq] at h
  exact Operands.text_inj hform hswitch (hu.append s) (hv.append t) h

/-- The comment of a row is not looked at: it is given by the index in front of it. -/
theorem operands_inj (hlabel : i.label = j.label) (hform : j.operands.form = i.operands.form)
    {rows rows' : List String} (hrows : i.rows pool = .ok rows) (hrows' : j.rows pool = .ok rows')
    (h : (lines rows).toList ++ s = (lines rows').toList ++ t) : i.operands = j.operands := by
  cases hop : i.operands with
  | none =>
      rw [hop] at hform
      rw [Operands.eq_none_of_form hform]
  | tableSwitch default low high targets =>
      rw [hop] at hform
      obtain ⟨default', low', high', targets', hop'⟩ := Operands.eq_tableSwitch_of_form hform
      rw [Instruction.rows, hop] at hrows
      rw [Instruction.rows, hop'] at hrows'
      obtain rfl := Except.ok.inj hrows
      obtain rfl := Except.ok.inj hrows'
      rw [hop']
      exact tableSwitch_inj hlabel h
  | lookupSwitch default cases =>
      rw [hop] at hform
      obtain ⟨default', cases', hop'⟩ := Operands.eq_lookupSwitch_of_form hform
      rw [Instruction.rows, hop] at hrows
      rw [Instruction.rows, hop'] at hrows'
      obtain rfl := Except.ok.inj hrows
      obtain rfl := Except.ok.inj hrows'
      rw [hop']
      exact lookupSwitch_inj hlabel h
  | _ =>
      have hswitch : i.operands.isSwitch = false := by
        rw [hop]
        rfl
      have hnone : i.operands ≠ .none := by
        rw [hop]
        intro heq
        cases heq
      rw [← hop]
      exact row_operands_inj hlabel hform hswitch hnone hrows hrows' h

theorem mnemonic_ne_wide (h : i.WellShaped) : i.opcode.mnemonic ≠ "wide" := by
  intro hname
  have hshape : i.opcode.shape = .wide := by
    rw [Opcode.shape_eq_ofMnemonic, hname]
    rfl
  rw [WellShaped, hshape] at h
  cases hop : i.operands with
  | _ => simp [hop, Operands.shapes] at h

/-- The texts of instructions are a prefix code. -/
theorem text_append_inj (hi : i.WellShaped) (hj : j.WellShaped) {rows rows' : List String}
    (hrows : i.rows pool = .ok rows) (hrows' : j.rows pool = .ok rows')
    (h : (lines rows).toList ++ s = (lines rows').toList ++ t) : i = j ∧ s = t := by
  obtain ⟨u, hu, htext⟩ := exists_after_front hrows
  obtain ⟨v, hv, htext'⟩ := exists_after_front hrows'
  have hfront := h
  rw [htext, htext', List.append_assoc, List.append_assoc] at hfront
  obtain ⟨hoffset, hop, hwide⟩ := front_append_inj (mnemonic_ne_wide hi) (mnemonic_ne_wide hj)
    ((hu.append s).ends rfl rfl) ((hv.append t).ends rfl rfl) hfront
  have hlabel : i.label = j.label := by
    simp only [label, mnemonicText, hoffset, hop, hwide]
  have hform : j.operands.form = i.operands.form := by
    rw [Operands.form_of_mem_shapes hi, Operands.form_of_mem_shapes hj, hop]
  have hoperands := operands_inj hlabel hform hrows hrows' h
  -- equal instructions have equal texts, which are then taken away from both sides
  obtain rfl : i = j := by
    cases i
    cases j
    simp only [Instruction.mk.injEq]
    exact ⟨hoffset, hop, hwide, hoperands⟩
  obtain rfl := Except.ok.inj (hrows.symm.trans hrows')
  exact ⟨rfl, List.append_cancel_left h⟩

theorem lines_ne_nil {rows : List String} (h : i.rows pool = .ok rows) : (lines rows).toList ≠ [] := by
  obtain ⟨after, -, htext⟩ := exists_after_front h
  rw [htext, front]
  intro hnil
  simp at hnil

theorem lines_flatten_inj {is js : List Instruction} (hi : ∀ i ∈ is, i.WellShaped)
    (hj : ∀ j ∈ js, j.WellShaped) {parts parts' : List (List String)}
    (hparts : List.Forall₂ (fun i rows => i.rows pool = .ok rows) is parts)
    (hparts' : List.Forall₂ (fun j rows => j.rows pool = .ok rows) js parts')
    (h : (lines parts.flatten).toList = (lines parts'.flatten).toList) : is = js := by
  induction hparts generalizing js parts' with
  | nil =>
      cases hparts' with
      | nil => rfl
      | cons hrows' _ =>
          rw [List.flatten_cons, lines_append, String.toList_append, List.flatten_nil] at h
          exact absurd (List.append_eq_nil_iff.1 h.symm).1 (lines_ne_nil hrows')
  | cons hrows _ ih =>
      rw [List.forall_mem_cons] at hi
      cases hparts' with
      | nil =>
          rw [List.flatten_cons, lines_append, String.toList_append, List.flatten_nil] at h
          exact absurd (List.append_eq_nil_iff.1 h).1 (lines_ne_nil hrows)
      | cons hrows' hparts' =>
          rw [List.forall_mem_cons] at hj
          rw [List.flatten_cons, List.flatten_cons, lines_append, lines_append, String.toList_append,
            String.toList_append] at h
          obtain ⟨rfl, hrest⟩ := text_append_inj hi.1 hj.1 hrows hrows' h
          rw [ih hi.2 hj.2 hparts' hrest]

def listing (pool : Pool) (is : List Instruction) : Except Fault String := do
  return lines (← is.mapM (Instruction.rows pool)).flatten

theorem exists_listing (valid : pool.Valid) {is : List Instruction} (hshaped : ∀ i ∈ is, i.WellShaped)
    (huse : is.forM (Attribute.checkUse pool) = .ok ()) :
    ∃ parts, List.Forall₂ (fun i rows => i.rows pool = .ok rows) is parts ∧
      listing pool is = .ok (lines parts.flatten) := by
  have hrefs : ∀ i ∈ is, i.References pool := by
    intro i hi
    exact (checkUse_eq_ok (hshaped i hi)).1 (Checks.forM_eq_ok.1 huse i hi)
  obtain ⟨parts, hparts, -⟩ := exists_parts fun i hi => shows_rows valid (hrefs i hi)
  refine ⟨parts, Checks.mapM_eq_ok.1 hparts, ?_⟩
  rw [listing, hparts]
  rfl

def keys (low high : Int32) : List Int :=
  (List.range (high.toInt - low.toInt + 1).toNat).map fun (place : Nat) => low.toInt + place

theorem length_keys {low high : Int32} {n : Nat} (h : (n : Int) = high.toInt - low.toInt + 1) :
    (keys low high).length = n := by
  rw [keys, List.length_map, List.length_range, ← h, Int.toNat_natCast]

theorem tableCases_eq_zip {low high : Int32} {targets : List Nat}
    (h : (targets.length : Int) = high.toInt - low.toInt + 1) :
    tableCases low.toInt targets = (keys low high).zip targets := by
  apply List.ext_getElem
  · rw [List.length_zip, length_keys h, Nat.min_self, tableCases, List.length_map, List.length_zipIdx]
  · intro n hn hn'
    simp only [tableCases, keys, List.getElem_map, List.getElem_zipIdx, List.getElem_zip,
      List.getElem_range, Nat.zero_add]

theorem exists_spelled_of_mem {length offset : Nat} {is : List Instruction} {bytes : Bytes}
    (h : Tiles length offset is bytes) : ∀ i ∈ is, ∃ spelled, i.Spelled length spelled := by
  induction h with
  | nil => exact List.forall_mem_nil _
  | cons hspelled _ ih => exact List.forall_mem_cons.2 ⟨⟨_, hspelled⟩, ih⟩

theorem length_targets_of_spelled {length offset default : Nat} {shape : OperandShape} {low high : Int32}
    {targets : List Nat} {bytes : Bytes}
    (h : Operands.Spelled length offset shape (.tableSwitch default low high targets) bytes) :
    (targets.length : Int) = high.toInt - low.toInt + 1 := by
  cases h with
  | tableSwitch _ _ _ hcount _ => exact hcount

/-- A table that was decoded has a target for each of its keys, so none of them is left out. -/
theorem tableCases_of_decode {code : Bytes} {is : List Instruction} (h : decode code = .ok is)
    (hi : i ∈ is) {default : Nat} {low high : Int32} {targets : List Nat}
    (hop : i.operands = .tableSwitch default low high targets) :
    (keys low high).length = targets.length ∧
      tableCases low.toInt targets = (keys low high).zip targets := by
  obtain ⟨spelled, hspelled⟩ := exists_spelled_of_mem (tiles_of_decodeFrom h) i hi
  have hcount : (targets.length : Int) = high.toInt - low.toInt + 1 := by
    cases hspelled with
    | plain hspelled =>
        subst hop
        exact length_targets_of_spelled hspelled
    | wideSlot | wideIncrement => cases hop
  exact ⟨length_keys hcount, tableCases_eq_zip hcount⟩

/-- Against a pool that was read, two code arrays are listed with the same text only if they have
the same instructions. -/
theorem listing_injective {c c' : Cursor} (hpool : Pool.read c = .ok (pool, c')) {code code' : Bytes}
    {is is' : List Instruction} (hcode : decode code = .ok is) (hcode' : decode code' = .ok is')
    (huse : is.forM (Attribute.checkUse pool) = .ok ())
    (huse' : is'.forM (Attribute.checkUse pool) = .ok ()) :
    ∃ text text', listing pool is = .ok text ∧ listing pool is' = .ok text' ∧
      (text = text' → is = is') ∧
      ∀ i ∈ is, ∀ default low high targets, i.operands = .tableSwitch default low high targets →
        (keys low high).length = targets.length ∧
          tableCases low.toInt targets = (keys low high).zip targets := by
  have valid := valid_of_read hpool
  have hshaped := wellShaped_of_decode hcode
  have hshaped' := wellShaped_of_decode hcode'
  obtain ⟨parts, hparts, hlisting⟩ := exists_listing valid hshaped huse
  obtain ⟨parts', hparts', hlisting'⟩ := exists_listing valid hshaped' huse'
  refine ⟨_, _, hlisting, hlisting', ?_, ?_⟩
  · intro htext
    exact lines_flatten_inj hshaped hshaped' hparts hparts' (congrArg String.toList htext)
  · intro i hi default low high targets hop
    exact tableCases_of_decode hcode hi hop

/-- A class and an array of it are named by the same entry. -/
theorem listing_injective_sample :
    ∃ text text',
      listing ⟨#[none, some (.utf8 "A"), some (.classRef 1)]⟩
        [⟨0, ⟨0xBB, by decide⟩, false, .constant 2⟩] = .ok text ∧
      listing ⟨#[none, some (.utf8 "A"), some (.classRef 1)]⟩
        [⟨0, ⟨0xBD, by decide⟩, false, .constant 2⟩] = .ok text' ∧ text ≠ text' := by
  have hpool : Pool.read (.start [0, 3, 1, 0, 1, 65, 7, 0, 1]) =
      .ok (⟨#[none, some (.utf8 "A"), some (.classRef 1)]⟩, ⟨9, []⟩) := by decide +kernel
  have hnew : decode [0xBB, 0, 2] = .ok [⟨0, ⟨0xBB, by decide⟩, false, .constant 2⟩] := by
    decide +kernel
  have harray : decode [0xBD, 0, 2] = .ok [⟨0, ⟨0xBD, by decide⟩, false, .constant 2⟩] := by
    decide +kernel
  obtain ⟨text, text', htext, htext', hinj, -⟩ :=
    listing_injective hpool hnew harray (by decide +kernel) (by decide +kernel)
  exact ⟨text, text', htext, htext', mt hinj (by decide)⟩

end Instruction

end ClassListing
