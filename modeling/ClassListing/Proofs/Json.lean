import ClassListing.Proofs.NameMap
import ClassListing.Proofs.Text.ModifiedUtf8
import ClassListing.Report

namespace ClassListing

namespace Json

/-- What a piece stands for. Characters below the blank may be written by their number. -/
inductive Spells : Piece → Char → Prop
  | char (c : Char) : Spells (.char c) c
  | unit {c : Char} (h : c.toNat < 32) : Spells (.unit c.toNat.toUInt16) c

theorem hexDigits_of_lt : ∀ n < 32,
    Numeral.hexDigits 4 n = ['0', '0', Nat.digitChar (n / 16), Nat.digitChar (n % 16)] := by
  decide

theorem unit?_of_lt : ∀ n < 32,
    unit? '0' '0' (Nat.digitChar (n / 16)) (Nat.digitChar (n % 16)) = some n.toUInt16 := by
  decide

theorem spell?_of_spells {piece : Piece} {c : Char} (h : Spells piece c) (others : List Piece) :
    spell? (piece :: others) = (spell? others).map (c :: ·) := by
  cases h with
  | char c => rw [spell?]
  | unit h =>
      have hnat : c.toNat.toUInt16.toNat = c.toNat := by
        rw [Nat.toUInt16_eq, UInt16.toNat_ofNat_of_lt']
        exact Nat.lt_trans h (by decide)
      have hsurrogate : Utf16.isSurrogate c.toNat.toUInt16 = false := by
        rw [Bool.eq_false_iff, ne_eq, ModifiedUtf8.isSurrogate_iff, hnat]
        omega
      have hhigh : Utf16.isHighSurrogate c.toNat.toUInt16 = false :=
        (Bool.or_eq_false_iff.1 hsurrogate).1
      have hchar : Utf16.charOfUnit c.toNat.toUInt16 = c := by
        rw [Utf16.charOfUnit, hnat, Char.ofNat_toNat]
      cases others with
      | nil => simp [spell?, hsurrogate, hchar]
      | cons piece others =>
          cases piece with
          | char d => simp [spell?, hsurrogate, hchar]
          | unit v => simp [spell?, hsurrogate, hhigh, hchar]

section Pieces

variable {c : Char} (rest : List Char)

theorem pieces_escaped {d : Char} (h : escaped? d = some c) (hu : d ≠ 'u') :
    pieces ('\\' :: d :: rest) = (pieces rest).map fun found => (.char c :: found.1, found.2) := by
  rw [pieces, h, Option.map_eq_bind]
  · rfl
  · exact fun _ _ _ _ _ hd => absurd hd hu

theorem pieces_unit {a b c d : Char} {u : UInt16} (h : unit? a b c d = some u) :
    pieces ('\\' :: 'u' :: a :: b :: c :: d :: rest) =
      (pieces rest).map fun found => (.unit u :: found.1, found.2) := by
  rw [pieces, h, Option.map_eq_bind]
  rfl

theorem pieces_plain (hlow : ¬c.val < 0x20) (hquote : c ≠ '"') (hslash : c ≠ '\\') :
    pieces (c :: rest) = (pieces rest).map fun found => (.char c :: found.1, found.2) := by
  rw [pieces, if_neg (not_or.2 ⟨hlow, hslash⟩), Option.map_eq_bind]
  · rfl
  · exact hquote
  · exact fun _ _ _ _ _ hc => absurd hc hslash
  · exact fun _ _ hc => absurd hc hslash

end Pieces

def letters : List (Char × Char) :=
  [('"', '"'), ('\\', '\\'), ('\x08', 'b'), ('\x0c', 'f'), ('\n', 'n'), ('\r', 'r'), ('\t', 't')]

theorem escapeChar_of_mem_letters : ∀ pair ∈ letters,
    escapeChar pair.1 = ['\\', pair.2] ∧ escaped? pair.2 = some pair.1 ∧ pair.2 ≠ 'u' ∧
      ' ' ≤ pair.2 := by
  decide

theorem escapeChar_cases (c : Char) :
    (∃ d, escapeChar c = ['\\', d] ∧ escaped? d = some c ∧ d ≠ 'u' ∧ ' ' ≤ d) ∨
      (escapeChar c = '\\' :: 'u' :: Numeral.hexDigits 4 c.toNat ∧ c.toNat < 32) ∨
      (escapeChar c = [c] ∧ ¬c.val < 0x20 ∧ c ≠ '"' ∧ c ≠ '\\') := by
  by_cases h : c ∈ letters.map Prod.fst
  · obtain ⟨⟨_, d⟩, hmem, rfl⟩ := List.mem_map.1 h
    exact .inl ⟨d, escapeChar_of_mem_letters _ hmem⟩
  · simp only [letters, List.map_cons, List.map_nil, List.mem_cons, List.not_mem_nil, or_false,
      not_or] at h
    obtain ⟨hquote, hslash, hb, hf, hn, hr, ht⟩ := h
    rw [escapeChar, if_neg hquote, if_neg hslash, if_neg hb, if_neg hf, if_neg hn, if_neg hr,
      if_neg ht]
    by_cases hlow : c.val < 0x20
    · rw [if_pos hlow]
      exact .inr (.inl ⟨rfl, hlow⟩)
    · rw [if_neg hlow]
      exact .inr (.inr ⟨rfl, hlow, hquote, hslash⟩)

theorem exists_piece (c : Char) :
    ∃ piece, Spells piece c ∧ ∀ rest, pieces (escapeChar c ++ rest) =
      (pieces rest).map fun found => (piece :: found.1, found.2) := by
  rcases escapeChar_cases c with ⟨d, h, hd, hu, -⟩ | ⟨h, hlow⟩ | ⟨h, hlow, hquote, hslash⟩
  · refine ⟨.char c, .char c, fun rest => ?_⟩
    rw [h]
    exact pieces_escaped rest hd hu
  · refine ⟨.unit c.toNat.toUInt16, .unit hlow, fun rest => ?_⟩
    rw [h, hexDigits_of_lt c.toNat hlow]
    exact pieces_unit rest (unit?_of_lt c.toNat hlow)
  · refine ⟨.char c, .char c, fun rest => ?_⟩
    rw [h]
    exact pieces_plain rest hlow hquote hslash

theorem exists_pieces (chars rest : List Char) :
    ∃ found, pieces (chars.flatMap escapeChar ++ '"' :: rest) = some (found, rest) ∧
      spell? found = some chars := by
  induction chars with
  | nil => exact ⟨[], by rw [List.flatMap_nil, List.nil_append, pieces], rfl⟩
  | cons c chars ih =>
      obtain ⟨found, hfound, hspell⟩ := ih
      obtain ⟨piece, hpiece, hpieces⟩ := exists_piece c
      refine ⟨piece :: found, ?_, ?_⟩
      · rw [List.flatMap_cons, List.append_assoc, hpieces, hfound]
        rfl
      · rw [spell?_of_spells hpiece, hspell]
        rfl

theorem text?_escaped (text : String) (rest : List Char) :
    text? (text.toList.flatMap escapeChar ++ '"' :: rest) = some (text, rest) := by
  obtain ⟨found, hfound, hspell⟩ := exists_pieces text.toList rest
  simp [text?, hfound, hspell]

theorem blank_le_of_mem_escapeChar {c d : Char} (h : d ∈ escapeChar c) : ' ' ≤ d := by
  rcases escapeChar_cases c with ⟨e, he, -, -, hle⟩ | ⟨he, hlow⟩ | ⟨he, hlow, -⟩
  · rw [he] at h
    rcases List.mem_cons.1 h with rfl | h
    · decide
    · rwa [List.mem_singleton.1 h]
  · have hfront : ∀ d ∈ ['\\', 'u', '0', '0'], ' ' ≤ d := by simp
    have hdigit : ∀ n < 16, ' ' ≤ Nat.digitChar n := by decide
    rw [he, hexDigits_of_lt c.toNat hlow] at h
    rcases List.mem_append.1 (show d ∈ ['\\', 'u', '0', '0'] ++ [_, _] from h) with h | h
    · exact hfront d h
    · rcases List.mem_pair.1 h with rfl | rfl
      · exact hdigit _ (by omega)
      · exact hdigit _ (Nat.mod_lt _ (by decide))
  · rw [he] at h
    rw [List.mem_singleton.1 h]
    exact UInt32.not_lt.1 hlow

theorem toList_quote (text : String) :
    (quote text).toList = '"' :: text.toList.flatMap escapeChar ++ ['"'] :=
  String.toList_ofList

theorem skipSpace_cons {c : Char} (hc : isSpace c = false) (rest : List Char) :
    skipSpace (c :: rest) = c :: rest := by
  rw [skipSpace, List.dropWhile_cons, hc]
  rfl

theorem skipSpace_append {gap : List Char} (hgap : ∀ c ∈ gap, isSpace c = true) {c : Char}
    (hc : isSpace c = false) (rest : List Char) : skipSpace (gap ++ c :: rest) = c :: rest := by
  rw [skipSpace, List.dropWhile_append_of_pos hgap]
  exact skipSpace_cons hc rest

/-- Where space stands in the written form of an object: at the end of a row, in front of a row,
behind a colon, and in front of the closing brace. -/
structure Spacing where
  row : List Char
  indent : List Char
  colon : List Char
  close : List Char

namespace Spacing

def compact : Spacing := ⟨[], [], [], []⟩

def pretty : Spacing := ⟨['\n'], [' ', ' '], [' '], ['\n']⟩

def IsBlank (spacing : Spacing) : Prop :=
  ∀ gap ∈ [spacing.row, spacing.indent, spacing.colon, spacing.close], ∀ c ∈ gap, isSpace c = true

theorem isBlank_compact : compact.IsBlank := by
  simp [IsBlank, compact]

theorem isBlank_pretty : pretty.IsBlank := by
  simp [IsBlank, pretty, isSpace]

variable (spacing : Spacing)

def member (member : String × String) : List Char :=
  (quote member.1).toList ++ ':' :: (spacing.colon ++ (quote member.2).toList)

def after : List (String × String) → List Char
  | [] => spacing.close ++ ['\x7d']
  | next :: others =>
    ',' :: (spacing.row ++ spacing.indent ++ (spacing.member next ++ after others))

def members : List (String × String) → List Char
  | [] => ['\x7d']
  | first :: others =>
    spacing.row ++ spacing.indent ++ (spacing.member first ++ spacing.after others)

theorem after_cons (next : String × String) (others : List (String × String)) :
    spacing.after (next :: others) = ',' :: spacing.members (next :: others) :=
  rfl

theorem members_append (first : String × String) (others : List (String × String))
    (rest : List Char) :
    spacing.members (first :: others) ++ rest = spacing.row ++ spacing.indent ++
      (spacing.member first ++ (spacing.after others ++ rest)) := by
  simp only [members, List.append_assoc]

theorem member_append (member : String × String) (rest : List Char) :
    spacing.member member ++ rest =
      '"' :: (member.1.toList.flatMap escapeChar ++ '"' :: ':' ::
        (spacing.colon ++ '"' :: (member.2.toList.flatMap escapeChar ++ '"' :: rest))) := by
  simp [Spacing.member, toList_quote]

theorem length_le_after (members : List (String × String)) :
    members.length ≤ (spacing.after members).length := by
  induction members with
  | nil => exact Nat.zero_le _
  | cons member others ih =>
      simp only [after, List.length_cons, List.length_append]
      omega

/-- Commas, with the row's end behind each, stand between the rows. -/
theorem members_eq_intercalate (first : String × String) (others : List (String × String)) :
    spacing.members (first :: others) =
      spacing.row ++ ((',' :: spacing.row).intercalate
        ((first :: others).map fun member => spacing.indent ++ spacing.member member) ++
          (spacing.close ++ ['\x7d'])) := by
  induction others generalizing first with
  | nil => simp [members, after]
  | cons next others ih =>
      rw [members, after_cons, ih, List.map_cons (l := next :: others), List.map_cons,
        List.intercalate_cons_cons]
      simp only [List.append_assoc, List.cons_append]

end Spacing

section Spaced

variable {spacing : Spacing} (hblank : spacing.IsBlank)

include hblank

theorem Spacing.IsBlank.front : ∀ c ∈ spacing.row ++ spacing.indent, isSpace c = true := by
  intro c hc
  rcases List.mem_append.1 hc with hc | hc
  · exact hblank spacing.row (by simp) c hc
  · exact hblank spacing.indent (by simp) c hc

theorem textMember?_spaced (member : String × String) (rest : List Char) :
    textMember? (spacing.row ++ spacing.indent ++ (spacing.member member ++ rest)) =
      some (member, rest) := by
  have hcolon : ∀ chars, skipSpace (':' :: chars) = ':' :: chars := skipSpace_cons (by decide)
  have hquote : ∀ chars, skipSpace (spacing.colon ++ '"' :: chars) = '"' :: chars :=
    skipSpace_append (hblank spacing.colon (by simp)) (by decide)
  rw [Spacing.member_append, textMember?, skipSpace_append hblank.front (by decide)]
  simp [text?_escaped, hcolon, hquote]

theorem textMembers?_spaced {fuel : Nat} (first : String × String)
    {others : List (String × String)} (hfuel : others.length < fuel) (rest : List Char) :
    textMembers? fuel (spacing.members (first :: others) ++ rest) =
      some (first :: others, rest) := by
  induction others generalizing fuel first with
  | nil =>
      obtain ⟨fuel, rfl⟩ : ∃ n, fuel = n + 1 := Nat.exists_eq_add_one.2 (Nat.zero_lt_of_lt hfuel)
      have hclose : skipSpace (spacing.close ++ '\x7d' :: rest) = '\x7d' :: rest :=
        skipSpace_append (hblank spacing.close (by simp)) (by decide) rest
      rw [Spacing.members_append, textMembers?, textMember?_spaced hblank, Spacing.after]
      simp [hclose]
  | cons next others ih =>
      obtain ⟨fuel, rfl⟩ : ∃ n, fuel = n + 1 := Nat.exists_eq_add_one.2 (Nat.zero_lt_of_lt hfuel)
      have hcomma : ∀ chars, skipSpace (',' :: chars) = ',' :: chars := skipSpace_cons (by decide)
      have hothers := ih next (Nat.lt_of_succ_lt_succ hfuel)
      rw [Spacing.members_append, textMembers?, textMember?_spaced hblank, Spacing.after_cons]
      simp [hcomma, hothers]

theorem textObject?_spaced (members : List (String × String)) (rest : List Char) :
    textObject? (spacing.members members ++ rest) = some (members, rest) := by
  cases members with
  | nil =>
      have hbrace : skipSpace ('\x7d' :: rest) = '\x7d' :: rest := skipSpace_cons (by decide) rest
      simp [textObject?, Spacing.members, hbrace]
  | cons first others =>
      have hfuel : others.length < fuelFor (spacing.members (first :: others) ++ rest) := by
        have hlength := spacing.length_le_after others
        rw [fuelFor, Spacing.members_append]
        simp only [List.length_append]
        omega
      have hquote : ∃ chars,
          skipSpace (spacing.members (first :: others) ++ rest) = '"' :: chars := by
        rw [Spacing.members_append, Spacing.member_append,
          skipSpace_append hblank.front (by decide)]
        exact ⟨_, rfl⟩
      obtain ⟨chars, hchars⟩ := hquote
      rw [textObject?, hchars]
      exact textMembers?_spaced hblank first hfuel rest

theorem texts?_spaced {written : String} {members : List (String × String)}
    (h : written.toList = '\x7b' :: spacing.members members) :
    texts? written = some members := by
  have hobject := textObject?_spaced hblank members []
  rw [List.append_nil] at hobject
  have hbrace : skipSpace ('\x7b' :: spacing.members members) = '\x7b' :: spacing.members members :=
    skipSpace_cons (by decide) _
  rw [texts?, h, hbrace]
  simp only [hobject, Option.bind_eq_bind, Option.bind_some]
  rfl

end Spaced

theorem toList_compactMembers (members : List (String × String)) :
    (compactMembers (members.map fun (name, value) => (name, text value))).map String.toList =
      members.map fun member => Spacing.compact.indent ++ Spacing.compact.member member := by
  induction members with
  | nil => rfl
  | cons member others ih =>
      rw [List.map_cons, compactMembers, List.map_cons, ih, List.map_cons, compact]
      simp [Spacing.compact, Spacing.member]

theorem toList_prettyMembers (members : List (String × String)) :
    ((prettyMembers 1 (members.map fun (name, value) => (name, text value))).map
        (indent 1 ++ ·)).map String.toList =
      members.map fun member => Spacing.pretty.indent ++ Spacing.pretty.member member := by
  induction members with
  | nil => rfl
  | cons member others ih =>
      rw [List.map_cons, prettyMembers, List.map_cons, List.map_cons, ih, List.map_cons, prettyAt]
      simp [Spacing.pretty, Spacing.member, indent]

theorem toList_compact_ofTexts (members : List (String × String)) :
    (ofTexts members).compact.toList = '\x7b' :: Spacing.compact.members members := by
  cases members with
  | nil => rfl
  | cons first others =>
      rw [Spacing.members_eq_intercalate, ← toList_compactMembers, ofTexts, compact,
        String.toList_append, String.toList_append, String.toList_intercalate]
      rfl

theorem toList_pretty_ofTexts (members : List (String × String)) :
    (ofTexts members).pretty.toList = '\x7b' :: Spacing.pretty.members members := by
  cases members with
  | nil => rfl
  | cons first others =>
      rw [Spacing.members_eq_intercalate, ← toList_prettyMembers, ofTexts, pretty, prettyAt, spread,
        if_neg (by simp [prettyMembers])]
      simp only [String.toList_append, String.toList_intercalate, List.append_assoc]
      rfl

theorem texts?_compact (members : List (String × String)) :
    texts? (ofTexts members).compact = some members :=
  texts?_spaced Spacing.isBlank_compact (toList_compact_ofTexts members)

theorem texts?_pretty (members : List (String × String)) :
    texts? (ofTexts members).pretty = some members :=
  texts?_spaced Spacing.isBlank_pretty (toList_pretty_ofTexts members)

theorem blank_le_of_mem_quote {text : String} {c : Char} (h : c ∈ (quote text).toList) :
    ' ' ≤ c := by
  rw [toList_quote, List.cons_append, List.mem_cons, List.mem_append, List.mem_singleton] at h
  rcases h with rfl | h | rfl
  · decide
  · obtain ⟨_, -, hc⟩ := List.mem_flatMap.1 h
    exact blank_le_of_mem_escapeChar hc
  · decide

theorem blank_le_of_mem_after {members : List (String × String)} {c : Char}
    (h : c ∈ Spacing.compact.after members) : ' ' ≤ c := by
  induction members with
  | nil =>
      rw [List.mem_singleton.1 h]
      decide
  | cons member others ih =>
      simp only [Spacing.after, Spacing.member, Spacing.compact, List.nil_append, List.mem_cons,
        List.mem_append] at h
      rcases h with rfl | (hname | rfl | hvalue) | hothers
      · decide
      · exact blank_le_of_mem_quote hname
      · decide
      · exact blank_le_of_mem_quote hvalue
      · exact ih hothers

theorem blank_le_of_mem_compact {members : List (String × String)} {c : Char}
    (h : c ∈ (ofTexts members).compact.toList) : ' ' ≤ c := by
  rw [toList_compact_ofTexts, List.mem_cons] at h
  rcases h with rfl | h
  · decide
  · suffices hmem : c ∈ Spacing.compact.after members from blank_le_of_mem_after hmem
    cases members with
    | nil => exact h
    | cons first others =>
        rw [Spacing.after_cons]
        exact List.mem_cons_of_mem _ h

end Json

namespace Results

theorem ofJson?_json (results : Results) :
    ∀ written ∈ [results.json.compact, results.json.pretty], ofJson? written = some results := by
  intro written h
  rw [List.mem_cons, List.mem_singleton] at h
  rcases h with rfl | rfl
  · rw [ofJson?, json, Json.texts?_compact, Option.map_some, NameMap.ofList_entries]
  · rw [ofJson?, json, Json.texts?_pretty, Option.map_some, NameMap.ofList_entries]

/-- Results come back from either form, which writes them in the order of the bytes of their names
and, where it is compact, without any control. One text is never that of two results. -/
theorem json_lossless (results : Results) :
    (Json.texts? results.json.compact = some results.entries ∧
        Json.texts? results.json.pretty = some results.entries) ∧
      (ofJson? results.json.compact = some results ∧ ofJson? results.json.pretty = some results) ∧
      results.names.Pairwise (utf8Bytes · < utf8Bytes ·) ∧
      (∀ c ∈ results.json.compact.toList, ' ' ≤ c) ∧
      ∀ other : Results, ∀ written ∈ [results.json.compact, results.json.pretty],
        written ∈ [other.json.compact, other.json.pretty] → results = other := by
  have hread := ofJson?_json results
  refine ⟨⟨Json.texts?_compact _, Json.texts?_pretty _⟩,
    ⟨hread _ (by simp), hread _ (by simp)⟩, ?_, ?_, ?_⟩
  · simp only [Utf8.utf8Bytes_lt_iff]
    exact results.pairwise_names
  · intro c hc
    exact Json.blank_le_of_mem_compact hc
  · intro other written h hother
    have hresults := hread written h
    rw [ofJson?_json other written hother] at hresults
    exact (Option.some.inj hresults).symm

end Results

end ClassListing
