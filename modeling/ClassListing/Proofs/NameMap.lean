import ClassListing.Bytes.Reader
import ClassListing.NameMap
import ClassListing.Proofs.Checks
import Mathlib.Data.Finset.Card
import Mathlib.Data.List.Sort
import Mathlib.Data.String.Basic

namespace ClassListing

def utf8Bytes (text : String) : Bytes := text.toUTF8.data.toList

namespace Utf8

open String (utf8EncodeChar)

theorem utf8Bytes_eq (text : String) : utf8Bytes text = text.toList.flatMap utf8EncodeChar := by
  have h : text.toByteArray = text.toList.utf8Encode := by
    rw [← String.toByteArray_ofList, String.ofList_toList]
  rw [utf8Bytes, String.toUTF8_eq_toByteArray, h, List.utf8Encode, List.data_toByteArray]

theorem ofNat_lt_ofNat {a b : Nat} (ha : a < 256) (hb : b < 256) :
    UInt8.ofNat a < UInt8.ofNat b ↔ a < b := by
  rw [UInt8.lt_iff_toNat_lt, UInt8.toNat_ofNat_of_lt' ha, UInt8.toNat_ofNat_of_lt' hb]

theorem ofNat_eq_ofNat {a b : Nat} (ha : a < 256) (hb : b < 256) :
    UInt8.ofNat a = UInt8.ofNat b ↔ a = b := by
  rw [← UInt8.toNat_inj, UInt8.toNat_ofNat_of_lt' ha, UInt8.toNat_ofNat_of_lt' hb]

/-- Two characters are told apart within the bytes of the lesser one. -/
theorem utf8EncodeChar_lt {c d : Char} (h : c < d) (s t : Bytes) :
    utf8EncodeChar c ++ s < utf8EncodeChar d ++ t := by
  have hlt : c.val.toNat < d.val.toNat := h
  have hmax : d.val.toNat < 0x110000 := by
    have hvalid : d.val.toNat.isValidChar := d.valid
    unfold Nat.isValidChar at hvalid
    omega
  have h4096 (n : Nat) : n / 4096 = n / 64 / 64 := by rw [Nat.div_div_eq_div_mul]
  have h262144 (n : Nat) : n / 262144 = n / 64 / 64 / 64 := by
    rw [Nat.div_div_eq_div_mul, Nat.div_div_eq_div_mul]
  simp only [utf8EncodeChar, h4096, h262144]
  generalize c.val.toNat = v at hlt
  generalize d.val.toNat = w at hlt hmax
  -- where the numbers of bytes differ the first bytes decide, and else the digits to base 64
  split_ifs
  all_goals
    simp only [List.cons_append, List.nil_append, List.cons_lt_cons_iff]
    simp (disch := omega) only [ofNat_lt_ofNat, ofNat_eq_ofNat]
    omega

theorem flatMap_utf8EncodeChar_lt {as bs : List Char} (h : as < bs) :
    as.flatMap utf8EncodeChar < bs.flatMap utf8EncodeChar := by
  induction h with
  | @nil c cs =>
      rw [List.flatMap_nil, List.flatMap_cons]
      obtain ⟨b, bytes, hbytes⟩ := List.exists_cons_of_ne_nil (String.utf8EncodeChar_ne_nil (c := c))
      rw [hbytes]
      exact List.nil_lt_cons _ _
  | rel h =>
      rw [List.flatMap_cons, List.flatMap_cons]
      exact utf8EncodeChar_lt h _ _
  | cons _ ih =>
      rw [List.flatMap_cons, List.flatMap_cons]
      exact List.append_left_lt ih

theorem utf8Bytes_lt_iff {a b : String} : utf8Bytes a < utf8Bytes b ↔ a < b := by
  have hmono {a b : String} (h : a < b) : utf8Bytes a < utf8Bytes b := by
    rw [utf8Bytes_eq, utf8Bytes_eq]
    exact flatMap_utf8EncodeChar_lt (String.lt_iff.1 h)
  constructor
  · intro h
    rcases lt_trichotomy a b with hab | rfl | hba
    · exact hab
    · exact absurd h (List.lt_irrefl _)
    · exact absurd h (List.lt_asymm (hmono hba))
  · exact hmono

end Utf8

namespace NameMap

open Checks

variable {α β ε : Type}

theorem lookup_cons_eq {κ : Type} [DecidableEq κ] (name first : κ) (a : α) (rest : List (κ × α)) :
    ((first, a) :: rest).lookup name = if name = first then some a else rest.lookup name := by
  rw [List.lookup_cons]
  by_cases h : name = first
  · rw [if_pos h, beq_iff_eq.2 h]
  · rw [if_neg h, beq_eq_false_iff_ne.2 h]

theorem lookup_of_nodup {κ : Type} [DecidableEq κ] {l : List (κ × α)} (h : (l.map (·.1)).Nodup)
    {name : κ} {a : α} : l.lookup name = some a ↔ (name, a) ∈ l := by
  induction l with
  | nil => simp
  | cons entry rest ih =>
      obtain ⟨first, b⟩ := entry
      obtain ⟨hfirst, hrest⟩ := List.nodup_cons.1 h
      rw [lookup_cons_eq, List.mem_cons]
      by_cases hname : name = first
      · subst hname
        have hnot : (name, a) ∉ rest := fun hmem => hfirst (List.mem_map.2 ⟨(name, a), hmem, rfl⟩)
        simp [hnot, eq_comm]
      · simp [hname, ih hrest]

variable {m : NameMap α}

theorem pairwise_names (m : NameMap α) : m.names.Pairwise (· < ·) :=
  List.pairwise_map.2 m.ascending

theorem nodup_names (m : NameMap α) : m.names.Nodup :=
  m.pairwise_names.imp fun h => String.ne_of_lt h

theorem mem_entries {name : String} {a : α} : (name, a) ∈ m.entries ↔ m.get? name = some a :=
  (lookup_of_nodup m.nodup_names).symm

theorem mem_names {name : String} : name ∈ m.names ↔ ∃ a, m.get? name = some a := by
  simp [names, ← mem_entries]

theorem eq_of_get? {n : NameMap α} (h : ∀ name a, m.get? name = some a ↔ n.get? name = some a) :
    m = n := by
  have : Std.Irrefl fun a b : String × α => a.1 < b.1 := ⟨fun a => String.lt_irrefl a.1⟩
  have : Std.Antisymm fun a b : String × α => a.1 < b.1 :=
    ⟨fun a b hab hba => absurd hba (String.lt_asymm hab)⟩
  apply NameMap.ext
  refine m.ascending.eq_of_mem_iff n.ascending fun entry => ?_
  rw [mem_entries, mem_entries, h]

theorem lookup_insertEntry (name other : String) (a : α) (l : List (String × α)) :
    (insertEntry name a l).lookup other = if other = name then some a else l.lookup other := by
  induction l with
  | nil => rw [insertEntry, lookup_cons_eq]
  | cons entry rest ih =>
      obtain ⟨first, b⟩ := entry
      rw [insertEntry]
      by_cases hlt : name < first
      · rw [if_pos hlt, lookup_cons_eq]
      · rw [if_neg hlt]
        by_cases hgt : first < name
        · rw [if_pos hgt, lookup_cons_eq, lookup_cons_eq, ih]
          by_cases h : other = first
          · have hne : other ≠ name := h ▸ String.ne_of_lt hgt
            rw [if_pos h, if_neg hne, if_pos h]
          · rw [if_neg h, if_neg h]
        · obtain rfl : first = name := String.le_antisymm hlt hgt
          rw [if_neg hgt, lookup_cons_eq, lookup_cons_eq]
          by_cases h : other = first
          · rw [if_pos h, if_pos h]
          · rw [if_neg h, if_neg h, if_neg h]

theorem get?_insert (m : NameMap α) (name other : String) (a : α) :
    (m.insert name a).get? other = if other = name then some a else m.get? other :=
  lookup_insertEntry name other a m.entries

def last? (bindings : List (String × α)) (name : String) : Option α :=
  bindings.reverse.lookup name

theorem last?_append (bindings : List (String × α)) (name other : String) (a : α) :
    last? (bindings ++ [(name, a)]) other = if other = name then some a else last? bindings other := by
  rw [last?, List.reverse_append]
  exact lookup_cons_eq other name a bindings.reverse

theorem ofList_append (bindings : List (String × α)) (name : String) (a : α) :
    ofList (bindings ++ [(name, a)]) = (ofList bindings).insert name a := by
  rw [ofList, List.foldl_append]
  rfl

theorem get?_ofList (bindings : List (String × α)) (name : String) :
    (ofList bindings).get? name = last? bindings name := by
  induction bindings using List.reverseRecOn with
  | nil => rfl
  | append_singleton bindings binding ih =>
      rw [ofList_append, get?_insert, last?_append, ih]

theorem last?_of_nodup {bindings : List (String × α)} (h : (bindings.map (·.1)).Nodup) {name : String}
    {a : α} : last? bindings name = some a ↔ (name, a) ∈ bindings := by
  rw [last?, lookup_of_nodup, List.mem_reverse]
  rw [List.map_reverse, List.nodup_reverse]
  exact h

theorem ofList_entries (m : NameMap α) : ofList m.entries = m := by
  apply eq_of_get?
  intro name a
  rw [get?_ofList, last?_of_nodup m.nodup_names, mem_entries]

theorem ofList_eq_of_last? {bindings others : List (String × α)}
    (h : ∀ name, last? bindings name = last? others name) : ofList bindings = ofList others := by
  apply eq_of_get?
  intro name a
  rw [get?_ofList, get?_ofList, h]

theorem ofList_eq_of_perm {bindings others : List (String × α)} (h : bindings.Perm others)
    (hnames : (bindings.map (·.1)).Nodup) : ofList bindings = ofList others := by
  have hothers := (h.map (·.1)).nodup_iff.1 hnames
  apply eq_of_get?
  intro name a
  rw [get?_ofList, get?_ofList, last?_of_nodup hnames, last?_of_nodup hothers, h.mem_iff]

theorem mem_names_ofList (bindings : List (String × α)) (name : String) :
    name ∈ (ofList bindings).names ↔ name ∈ bindings.map (·.1) := by
  induction bindings using List.reverseRecOn with
  | nil => simp [mem_names, get?_ofList, last?]
  | append_singleton bindings binding ih =>
      rw [mem_names] at ih ⊢
      rw [ofList_append, List.map_append, List.mem_append, ← ih]
      simp only [get?_insert]
      by_cases h : name = binding.1
      · simp [h]
      · simp [h]

theorem size_ofList (bindings : List (String × α)) :
    (ofList bindings).size = (bindings.map (·.1)).toFinset.card := by
  have hnames : (bindings.map (·.1)).toFinset = (ofList bindings).names.toFinset := by
    ext name
    rw [List.mem_toFinset, List.mem_toFinset, mem_names_ofList]
  rw [hnames, List.toFinset_card_of_nodup (nodup_names _), names, List.length_map, size]

theorem mapEntries_eq (f : α → Except ε β) (l : List (String × α)) :
    mapEntries f l = l.mapM fun entry => do return (entry.1, ← f entry.2) := by
  induction l with
  | nil => rfl
  | cons entry rest ih =>
      rw [mapEntries, ih, List.mapM_cons]
      cases f entry.2 with
      | error e => rfl
      | ok b => rfl

theorem lookup_of_mapEntries {f : α → Except ε β} {l : List (String × α)} {l' : List (String × β)}
    (h : mapEntries f l = .ok l') (name : String) (b : β) :
    l'.lookup name = some b ↔ ∃ a, l.lookup name = some a ∧ f a = .ok b := by
  induction l generalizing l' with
  | nil =>
      obtain rfl := Except.ok.inj h
      simp
  | cons entry rest ih =>
      obtain ⟨first, a⟩ := entry
      simp only [mapEntries, bind_eq_ok, pure_eq_ok] at h
      obtain ⟨b', hb', others, hothers, rfl⟩ := h
      rw [List.lookup_cons, List.lookup_cons]
      cases name == first with
      | true => simp [hb']
      | false => exact ih hothers

variable {f : α → Except ε β}

theorem mapM_eq_ok_iff_entries {r : NameMap β} :
    m.mapM f = .ok r ↔ mapEntries f m.entries = .ok r.entries := by
  rw [mapM]
  split
  next e h => simp [h]
  next entries h => simp [h, NameMap.ext_iff]

theorem mapM_eq_error_iff_entries {e : ε} :
    m.mapM f = .error e ↔ mapEntries f m.entries = .error e := by
  rw [mapM]
  split
  next e' h => simp [h]
  next entries h => simp [h]

theorem names_of_mapM {r : NameMap β} (h : m.mapM f = .ok r) : r.names = m.names :=
  names_mapEntries (mapM_eq_ok_iff_entries.1 h)

theorem get?_of_mapM {r : NameMap β} (h : m.mapM f = .ok r) (name : String) (b : β) :
    r.get? name = some b ↔ ∃ a, m.get? name = some a ∧ f a = .ok b :=
  lookup_of_mapEntries (mapM_eq_ok_iff_entries.1 h) name b

theorem mapM_eq_error {e : ε} :
    m.mapM f = .error e ↔ ∃ name a, m.get? name = some a ∧ f a = .error e ∧
      ∀ other b, m.get? other = some b → other < name → Succeeds (f b) := by
  have hasymm (a b : String × α) (h : a.1 < b.1) : ¬b.1 < a.1 := String.lt_asymm h
  rw [mapM_eq_error_iff_entries, mapEntries_eq, Checks.mapM_eq_error,
    firstFailure_iff_least hasymm m.ascending]
  simp only [Prod.exists, Prod.forall, mem_entries, map_eq_error, succeeds_map]

theorem succeeds_mapM :
    Succeeds (m.mapM f) ↔ ∀ name a, m.get? name = some a → Succeeds (f a) := by
  cases h : m.mapM f with
  | error e =>
      obtain ⟨name, a, hget, hfail, -⟩ := mapM_eq_error.1 h
      refine iff_of_false (by simp [Succeeds]) fun hall => ?_
      obtain ⟨b, hb⟩ := hall name a hget
      rw [hfail] at hb
      cases hb
  | ok r =>
      refine iff_of_true ⟨r, rfl⟩ fun name a hget => ?_
      have hname : name ∈ r.names := by
        rw [names_of_mapM h]
        exact mem_names.2 ⟨a, hget⟩
      obtain ⟨b, hb⟩ := mem_names.1 hname
      obtain ⟨a', hget', ha'⟩ := (get?_of_mapM h name b).1 hb
      obtain rfl := Option.some.inj (hget.symm.trans hget')
      exact ⟨b, ha'⟩

theorem mapM_eq_ok {r : NameMap β} :
    m.mapM f = .ok r ↔ r.names = m.names ∧
      ∀ name b, r.get? name = some b ↔ ∃ a, m.get? name = some a ∧ f a = .ok b := by
  constructor
  · intro h
    exact ⟨names_of_mapM h, get?_of_mapM h⟩
  · rintro ⟨hnames, hget⟩
    obtain ⟨r', hr'⟩ : Succeeds (m.mapM f) := by
      rw [succeeds_mapM]
      intro name a ha
      obtain ⟨b, hb⟩ := mem_names.1 (hnames ▸ mem_names.2 ⟨a, ha⟩)
      obtain ⟨a', ha', hb⟩ := (hget name b).1 hb
      obtain rfl := Option.some.inj (ha.symm.trans ha')
      exact ⟨b, hb⟩
    have heq : r' = r := eq_of_get? fun name b => by rw [get?_of_mapM hr', hget]
    rw [hr', heq]

end NameMap

end ClassListing
