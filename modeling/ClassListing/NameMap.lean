namespace ClassListing

/-- Each name stands before all greater ones, so there is one map for each set of bindings. -/
@[ext]
structure NameMap (α : Type) where
  entries : List (String × α)
  ascending : entries.Pairwise (·.1 < ·.1)

namespace NameMap

variable {α β ε : Type}

def empty : NameMap α := ⟨[], .nil⟩

def size (m : NameMap α) : Nat := m.entries.length

def isEmpty (m : NameMap α) : Bool := m.entries.isEmpty

def names (m : NameMap α) : List String := m.entries.map (·.1)

def get? (m : NameMap α) (name : String) : Option α :=
  m.entries.lookup name

def contains (m : NameMap α) (name : String) : Bool := (m.get? name).isSome

def insertEntry (name : String) (a : α) : List (String × α) → List (String × α)
  | [] => [(name, a)]
  | entry :: rest =>
    if name < entry.1 then (name, a) :: entry :: rest
    else if entry.1 < name then entry :: insertEntry name a rest
    else (name, a) :: rest

theorem mem_insertEntry {name : String} {a : α} {l : List (String × α)} {e : String × α}
    (h : e ∈ insertEntry name a l) : e = (name, a) ∨ e ∈ l := by
  induction l with
  | nil => simpa [insertEntry] using h
  | cons entry rest ih => grind [insertEntry]

theorem pairwise_insertEntry {name : String} {a : α} {l : List (String × α)}
    (h : l.Pairwise (·.1 < ·.1)) : (insertEntry name a l).Pairwise (·.1 < ·.1) := by
  induction l with
  | nil => simp [insertEntry]
  | cons entry rest ih =>
      obtain ⟨hlt, hrest⟩ := List.pairwise_cons.1 h
      simp only [insertEntry]
      split
      · rename_i hname
        refine List.pairwise_cons.2 ⟨fun e he => ?_, h⟩
        rcases List.mem_cons.1 he with rfl | he
        · exact hname
        · exact String.lt_trans hname (hlt e he)
      · split
        · rename_i hentry
          refine List.pairwise_cons.2 ⟨fun e he => ?_, ih hrest⟩
          rcases mem_insertEntry he with rfl | he
          · exact hentry
          · exact hlt e he
        · rename_i hge hle
          have : name = entry.1 := String.le_antisymm hle hge
          exact List.pairwise_cons.2 ⟨fun e he => this ▸ hlt e he, hrest⟩

def insert (m : NameMap α) (name : String) (a : α) : NameMap α :=
  ⟨insertEntry name a m.entries, pairwise_insertEntry m.ascending⟩

/-- Of several bindings of one name the last counts. -/
def ofList (bindings : List (String × α)) : NameMap α :=
  bindings.foldl (fun m binding => m.insert binding.1 binding.2) empty

/-- The values in place of which `f` gives others, in the order of the names, up to the first
failure. -/
def mapEntries (f : α → Except ε β) : List (String × α) → Except ε (List (String × β))
  | [] => .ok []
  | (name, a) :: rest => do
    let b ← f a
    let others ← mapEntries f rest
    return (name, b) :: others

theorem names_mapEntries {f : α → Except ε β} {l : List (String × α)} {l' : List (String × β)}
    (h : mapEntries f l = .ok l') : l'.map (·.1) = l.map (·.1) := by
  induction l generalizing l' with
  | nil => cases h; rfl
  | cons entry rest ih =>
      obtain ⟨name, a⟩ := entry
      simp only [mapEntries, bind, Except.bind] at h
      cases hb : f a with
      | error e => simp [hb] at h
      | ok b =>
          cases ho : mapEntries f rest with
          | error e => simp [hb, ho] at h
          | ok others =>
              obtain rfl : (name, b) :: others = l' := by simpa [hb, ho, pure, Except.pure] using h
              simp [ih ho]

theorem pairwise_of_names_eq {l : List (String × α)} {l' : List (String × β)}
    (h : l'.map (·.1) = l.map (·.1)) (hl : l.Pairwise (·.1 < ·.1)) :
    l'.Pairwise (·.1 < ·.1) :=
  List.pairwise_map.1 (h ▸ List.pairwise_map.2 hl)

def mapM (f : α → Except ε β) (m : NameMap α) : Except ε (NameMap β) :=
  match h : mapEntries f m.entries with
  | .error e => .error e
  | .ok entries => .ok ⟨entries, pairwise_of_names_eq (names_mapEntries h) m.ascending⟩

end NameMap

end ClassListing
