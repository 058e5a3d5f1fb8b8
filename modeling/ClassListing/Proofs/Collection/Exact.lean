import ClassListing.Proofs.Collection.Selection

namespace ClassListing.Collection

open Checks
open FileTree (WellFormed)

section Adding

variable {files : List Selected} {bound : List (String × Bytes)} {file : Selected} {name : String}
  {bytes : Bytes}

theorem contains_ofList :
    (NameMap.ofList bound).contains name = true ↔ name ∈ bound.map (·.1) := by
  rw [← NameMap.mem_names_ofList, NameMap.mem_names, NameMap.contains, Option.isSome_iff_exists]

theorem add_of_nameless {sources : Sources} {problem : Path.NameError}
    (h : file.name = .error problem) : add sources file = .error (.nameless problem) := by
  rw [add, h]

theorem add_of_bound (h : file.name = .ok name) (hbound : name ∈ bound.map (·.1)) :
    add (.ofList bound) file = .error (.duplicate name file.path) := by
  rw [add, h]
  exact if_pos (contains_ofList.2 hbound)

theorem add_of_unreadable {problem : AccessError} (h : file.name = .ok name)
    (hfree : name ∉ bound.map (·.1)) (hcontent : file.content = .error problem) :
    add (.ofList bound) file = .error (.unreadableClass file.path problem) := by
  rw [add, h, hcontent]
  exact if_neg (mt contains_ofList.1 hfree)

theorem add_of_free (h : file.name = .ok name) (hfree : name ∉ bound.map (·.1))
    (hcontent : file.content = .ok bytes) :
    add (.ofList bound) file = .ok (.ofList (bound ++ [(name, bytes)])) := by
  rw [add, h, hcontent, NameMap.ofList_append]
  exact if_neg (mt contains_ofList.1 hfree)

def Selected.Makes (file : Selected) (entry : String × Bytes) : Prop :=
  file.name = .ok entry.1 ∧ file.content = .ok entry.2

/-- How files are added to entries that are there already. -/
inductive Ends (bound : List (String × Bytes)) (files : List Selected) : Except Error Sources → Prop
  | added {made : List (String × Bytes)} (hmade : List.Forall₂ Selected.Makes files made)
      (hnodup : ((bound ++ made).map (·.1)).Nodup) :
      Ends bound files (.ok (.ofList (bound ++ made)))
  | nameless {file : Selected} {problem : Path.NameError} (hmem : file ∈ files)
      (h : file.name = .error problem) : Ends bound files (.error (.nameless problem))
  | duplicate {file : Selected} {name : String} (hmem : file ∈ files) (hname : file.name = .ok name)
      (h : [name, name].Sublist (bound.map (·.1) ++ namesOf files)) :
      Ends bound files (.error (.duplicate name file.path))
  | unreadable {file : Selected} {problem : AccessError} (hmem : file ∈ files)
      (h : file.content = .error problem) :
      Ends bound files (.error (.unreadableClass file.path problem))

theorem Ends.cons {result : Except Error Sources} (hmakes : file.Makes (name, bytes))
    (h : Ends (bound ++ [(name, bytes)]) files result) : Ends bound (file :: files) result := by
  cases h with
  | @added made hmade hnodup =>
      rw [List.append_assoc] at hnodup ⊢
      exact .added (.cons hmakes hmade) hnodup
  | nameless hmem h => exact .nameless (List.mem_cons_of_mem _ hmem) h
  | duplicate hmem hname h =>
      have hnames : bound.map (·.1) ++ namesOf (file :: files) =
          (bound ++ [(name, bytes)]).map (·.1) ++ namesOf files := by
        rw [namesOf_cons hmakes.1]
        simp
      exact .duplicate (List.mem_cons_of_mem _ hmem) hname (hnames ▸ h)
  | unreadable hmem h => exact .unreadable (List.mem_cons_of_mem _ hmem) h

theorem ends_foldlM_add (hbound : (bound.map (·.1)).Nodup) :
    Ends bound files (files.foldlM add (.ofList bound)) := by
  induction files generalizing bound with
  | nil =>
      have h : Ends bound [] (.ok (.ofList (bound ++ []))) := .added .nil (by rwa [List.append_nil])
      rwa [List.append_nil] at h
  | cons file rest ih =>
      rw [List.foldlM_cons]
      cases hname : file.name with
      | error problem =>
          rw [add_of_nameless hname]
          exact .nameless List.mem_cons_self hname
      | ok name =>
          by_cases hmem : name ∈ bound.map (·.1)
          · rw [add_of_bound hname hmem]
            refine .duplicate List.mem_cons_self hname ?_
            rw [namesOf_cons hname]
            have hleft := List.singleton_sublist.2 hmem
            exact hleft.append (List.singleton_sublist.2 List.mem_cons_self)
          · cases hcontent : file.content with
            | error problem =>
                rw [add_of_unreadable hname hmem hcontent]
                exact .unreadable List.mem_cons_self hcontent
            | ok bytes =>
                rw [add_of_free hname hmem hcontent]
                have hnext : ((bound ++ [(name, bytes)]).map (·.1)).Nodup := by
                  rw [List.map_append, List.map_singleton, ← List.concat_eq_append]
                  exact hbound.concat hmem
                exact (ih hnext).cons ⟨hname, hcontent⟩

end Adding

/-- Where a selected file stands: the number of the argument that selects it, and the names that
lead to it from there. -/
structure Place where
  argument : Nat
  names : List FileName
  deriving DecidableEq

namespace Place

def Holds (disk : Disk) (paths : List String) (place : Place)
    (content : Except AccessError Bytes) : Prop :=
  ∃ path, paths[place.argument]? = some path ∧ Picks disk path place.names content

def Named (paths : List String) (place : Place) (name : String) : Prop :=
  ∃ path, paths[place.argument]? = some path ∧ Names path place.names name

def Shown (paths : List String) (place : Place) (shown : String) : Prop :=
  ∃ path, paths[place.argument]? = some path ∧ shownPath path place.names = shown

theorem named_iff {paths : List String} {place : Place} {path name : String}
    (h : paths[place.argument]? = some path) :
    place.Named paths name ↔ Names path place.names name := by
  constructor
  · rintro ⟨path', hpath', hname⟩
    obtain rfl := Option.some.inj (h.symm.trans hpath')
    exact hname
  · intro hname
    exact ⟨path, h, hname⟩

theorem Named.unique {paths : List String} {place : Place} {name name' : String}
    (h : place.Named paths name) (h' : place.Named paths name') : name = name' := by
  obtain ⟨path, hpath, hname⟩ := h
  exact hname.unique ((named_iff hpath).1 h')

end Place

/-- Two of the selected files have this name. -/
def Shared (disk : Disk) (paths : List String) (name : String) : Prop :=
  ∃ place place' : Place, place ≠ place' ∧
    (∃ content, place.Holds disk paths content) ∧ (∃ content, place'.Holds disk paths content) ∧
    place.Named paths name ∧ place'.Named paths name

section Places

variable {disk : Disk} {paths : List String} {name : String}
  {content : Except AccessError Bytes}
  (hw : ∀ path tree, disk path = .ok tree → tree.WellFormed)

include hw

theorem exists_place {file : Selected} (h : file ∈ paths.flatMap (selection disk)) :
    ∃ place : Place, place.Holds disk paths file.content ∧ place.Shown paths file.path ∧
      ∀ name, file.name = .ok name ↔ place.Named paths name := by
  obtain ⟨path, hpath, hmem⟩ := List.mem_flatMap.1 h
  obtain ⟨i, hi⟩ := List.getElem?_of_mem hpath
  obtain ⟨names, hpicks, hshown, hnames⟩ := exists_pick (hw path) hmem
  refine ⟨⟨i, names⟩, ⟨path, hi, hpicks⟩, ⟨path, hi, hshown.symm⟩, ?_⟩
  intro name
  rw [hnames, Place.named_iff hi]

variable (hlisted : ∀ path ∈ paths, Succeeds (select disk path))

include hlisted

theorem Place.Holds.exists_file {place : Place} (h : place.Holds disk paths content) :
    ∃ file ∈ paths.flatMap (selection disk), file.content = content ∧
      ∀ name, file.name = .ok name ↔ place.Named paths name := by
  obtain ⟨path, hi, hpicks⟩ := h
  have hpath := List.mem_of_getElem? hi
  obtain ⟨file, hmem, hcontent, hnames⟩ :=
    Collection.exists_file (hw path) (hlisted path hpath) hpicks
  refine ⟨file, List.mem_flatMap.2 ⟨path, hpath, hmem⟩, hcontent, ?_⟩
  intro name
  rw [hnames, Place.named_iff hi]

theorem mem_namesOf_iff_exists_place {i : Nat} (hi : i < paths.length) :
    name ∈ namesOf (selection disk paths[i]) ↔
      ∃ names, (∃ content, Place.Holds disk paths ⟨i, names⟩ content) ∧
        Place.Named paths ⟨i, names⟩ name := by
  have hpath : paths[i]? = some paths[i] := List.getElem?_eq_getElem hi
  rw [mem_namesOf_selection (hw _) (hlisted _ (List.getElem_mem hi))]
  constructor
  · rintro ⟨names, content, hpicks, hname⟩
    exact ⟨names, ⟨content, _, hpath, hpicks⟩, _, hpath, hname⟩
  · rintro ⟨names, ⟨content, path, hpath', hpicks⟩, hname⟩
    obtain rfl := Option.some.inj (hpath.symm.trans hpath')
    exact ⟨names, content, hpicks, (Place.named_iff hpath').1 hname⟩

/-- Within one argument the names tell the files apart. -/
theorem Shared.exists_lt (h : Shared disk paths name) :
    ∃ i j, ∃ (hi : i < paths.length) (hj : j < paths.length), i < j ∧
      name ∈ namesOf (selection disk paths[i]) ∧ name ∈ namesOf (selection disk paths[j]) := by
  obtain ⟨⟨i, names⟩, ⟨j, names'⟩, hne, hholds, hholds', hname, hname'⟩ := h
  obtain ⟨content, path, hpath, hpicks⟩ := hholds
  obtain ⟨content', path', hpath', hpicks'⟩ := hholds'
  obtain ⟨hi, -⟩ := List.getElem?_eq_some_iff.1 hpath
  obtain ⟨hj, -⟩ := List.getElem?_eq_some_iff.1 hpath'
  have hleft := (mem_namesOf_iff_exists_place hw hlisted hi).2
    ⟨names, ⟨content, path, hpath, hpicks⟩, hname⟩
  have hright := (mem_namesOf_iff_exists_place hw hlisted hj).2
    ⟨names', ⟨content', path', hpath', hpicks'⟩, hname'⟩
  rcases Nat.lt_trichotomy i j with hij | rfl | hji
  · exact ⟨i, j, hi, hj, hij, hleft, hright⟩
  · obtain rfl := Option.some.inj (hpath.symm.trans hpath')
    have heq := Picks.eq_of_names (hw path) hpicks hpicks' ((Place.named_iff hpath).1 hname)
      ((Place.named_iff hpath').1 hname')
    dsimp only at heq
    exact absurd (by rw [heq]) hne
  · exact ⟨j, i, hj, hi, hji, hright, hleft⟩

theorem not_shared_iff :
    ¬Shared disk paths name ↔
      (paths.flatMap fun path => namesOf (selection disk path)).Pairwise
        fun a b => ¬(a = name ∧ b = name) := by
  rw [List.pairwise_flatMap, List.pairwise_iff_getElem]
  constructor
  · intro hshared
    refine ⟨fun path _ => ?_, fun i j hi hj hlt => ?_⟩
    · refine (nodup_namesOf_selection (hw path)).imp ?_
      rintro a b hne ⟨rfl, rfl⟩
      exact hne rfl
    · rintro _ hleft _ hright ⟨rfl, rfl⟩
      obtain ⟨names, hholds, hname⟩ := (mem_namesOf_iff_exists_place hw hlisted hi).1 hleft
      obtain ⟨names', hholds', hname'⟩ := (mem_namesOf_iff_exists_place hw hlisted hj).1 hright
      refine hshared ⟨⟨i, names⟩, ⟨j, names'⟩, ?_, hholds, hholds', hname, hname'⟩
      intro heq
      exact absurd (congrArg Place.argument heq) (Nat.ne_of_lt hlt)
  · rintro ⟨-, hapart⟩ hshared
    obtain ⟨i, j, hi, hj, hlt, hleft, hright⟩ := hshared.exists_lt hw hlisted
    exact hapart i j hi hj hlt name hleft name hright ⟨rfl, rfl⟩

theorem sublist_iff_shared :
    [name, name].Sublist (namesOf (paths.flatMap (selection disk))) ↔ Shared disk paths name := by
  have hnames : namesOf (paths.flatMap (selection disk)) =
      paths.flatMap fun path => namesOf (selection disk path) :=
    List.filterMap_flatMap ..
  rw [hnames, ← not_iff_not, not_shared_iff hw hlisted, List.pairwise_iff_forall_sublist]
  constructor
  · rintro h _ _ hsublist ⟨rfl, rfl⟩
    exact h hsublist
  · intro h hsublist
    exact h hsublist ⟨rfl, rfl⟩

end Places

section Listed

variable {disk : Disk} {paths : List String}

theorem foldlM_addPath (h : ∀ path ∈ paths, Succeeds (select disk path)) (sources : Sources) :
    paths.foldlM (addPath disk) sources = (paths.flatMap (selection disk)).foldlM add sources := by
  induction paths generalizing sources with
  | nil => rfl
  | cons path rest ih =>
      obtain ⟨⟨files, hfiles⟩, hrest⟩ := List.forall_mem_cons.1 h
      have hpath : addPath disk sources path = (selection disk path).foldlM add sources := by
        rw [addPath_of_ok hfiles, selection, hfiles]
      rw [List.foldlM_cons, List.flatMap_cons, List.foldlM_append, hpath]
      congr 1
      funext next
      exact ih hrest next

theorem listed_of_collect {sources : Sources} (h : collect disk paths = .ok sources) :
    ∀ path ∈ paths, Succeeds (select disk path) := by
  intro path hmem
  obtain ⟨before, after, rfl⟩ := List.append_of_mem hmem
  by_contra hnot
  cases hselect : select disk path with
  | ok files => exact hnot ⟨files, hselect⟩
  | error error =>
      cases hbefore : collect disk before with
      | ok earlier =>
          rw [collect_of_error hbefore (addPath_of_error hselect)] at h
          cases h
      | error error' =>
          rw [collect] at hbefore
          rw [collect, List.foldlM_append, hbefore] at h
          cases h

theorem ends_collect (h : ∀ path ∈ paths, Succeeds (select disk path)) :
    Ends [] (paths.flatMap (selection disk)) (collect disk paths) := by
  rw [collect, foldlM_addPath h]
  exact ends_foldlM_add List.nodup_nil

end Listed

section Makes

variable {files : List Selected} {made : List (String × Bytes)}
  (h : List.Forall₂ Selected.Makes files made)

include h

theorem map_fst_of_makes : made.map (·.1) = namesOf files := by
  induction h with
  | nil => rfl
  | cons hmakes _ ih => rw [namesOf_cons hmakes.1, List.map_cons, ih]

theorem exists_entry_of_makes {file : Selected} (hmem : file ∈ files) :
    ∃ entry ∈ made, file.Makes entry := by
  induction h with
  | nil => exact absurd hmem List.not_mem_nil
  | @cons first entry _ _ hmakes _ ih =>
      rcases List.mem_cons.1 hmem with rfl | hmem
      · exact ⟨entry, List.mem_cons_self, hmakes⟩
      · obtain ⟨entry, hentry, hmakes⟩ := ih hmem
        exact ⟨entry, List.mem_cons_of_mem _ hentry, hmakes⟩

theorem exists_file_of_makes {entry : String × Bytes} (hmem : entry ∈ made) :
    ∃ file ∈ files, file.Makes entry := by
  induction h with
  | nil => exact absurd hmem List.not_mem_nil
  | @cons first _ _ _ hmakes _ ih =>
      rcases List.mem_cons.1 hmem with rfl | hmem
      · exact ⟨first, List.mem_cons_self, hmakes⟩
      · obtain ⟨file, hfile, hmakes⟩ := ih hmem
        exact ⟨file, List.mem_cons_of_mem _ hfile, hmakes⟩

theorem mem_of_makes {entry : String × Bytes} :
    entry ∈ made ↔ ∃ file ∈ files, file.Makes entry := by
  refine ⟨exists_file_of_makes h, ?_⟩
  rintro ⟨file, hfile, hname, hcontent⟩
  obtain ⟨entry', hentry, hname', hcontent'⟩ := exists_entry_of_makes h hfile
  have heq : entry = entry' :=
    Prod.ext (Except.ok.inj (hname.symm.trans hname'))
      (Except.ok.inj (hcontent.symm.trans hcontent'))
  rwa [heq]

end Makes

/-- The entries of a batch and the selected files belong to each other one to one. -/
structure Corresponds (disk : Disk) (paths : List String) (sources : Sources) : Prop where
  entry : ∀ (place : Place) content, place.Holds disk paths content →
    ∃ bytes, content = .ok bytes ∧
      ∃! name, place.Named paths name ∧ sources.get? name = some bytes
  place : ∀ name bytes, sources.get? name = some bytes →
    ∃! place : Place, place.Holds disk paths (.ok bytes) ∧ place.Named paths name

/-- Something stands at a path, and it can be told what. -/
def Stands (disk : Disk) (path : String) : Prop :=
  ∃ tree, disk path = .ok tree ∧ ∀ problem, tree ≠ .hidden problem

/-- Something at or below a path cannot be listed. -/
def Unlistable (disk : Disk) (paths : List String) : Prop :=
  ∃ path ∈ paths, ∃ tree error, disk path = .ok tree ∧ Stops path tree error

/-- One of the selected files cannot be read. -/
def Unreadable (disk : Disk) (paths : List String) : Prop :=
  ∃ (place : Place) (problem : AccessError), place.Holds disk paths (.error problem)

/-- What an error tells of the selected files. -/
inductive Cause (disk : Disk) (paths : List String) : Error → Prop
  | shared {place : Place} {name path : String} (h : Shared disk paths name)
      (hname : place.Named paths name) (hshown : place.Shown paths path) :
      Cause disk paths (.duplicate name path)
  | unlistable {path : String} {tree : FileTree} {error : Error} (hpath : path ∈ paths)
      (hfound : disk path = .ok tree) (h : Stops path tree error) : Cause disk paths error
  | unreadable {place : Place} {path : String} {problem : AccessError}
      (h : place.Holds disk paths (.error problem)) (hshown : place.Shown paths path) :
      Cause disk paths (.unreadableClass path problem)

section Append

variable {disk : Disk} {paths : List String} {place : Place} (others : List String)

theorem getElem?_append_of_eq_some {i : Nat} {path : String} (h : paths[i]? = some path) :
    (paths ++ others)[i]? = some path := by
  rwa [List.getElem?_append_left (List.getElem?_eq_some_iff.1 h).1]

theorem Place.Holds.append {content : Except AccessError Bytes}
    (h : place.Holds disk paths content) : place.Holds disk (paths ++ others) content := by
  obtain ⟨path, hpath, hpicks⟩ := h
  exact ⟨path, getElem?_append_of_eq_some others hpath, hpicks⟩

theorem Place.Named.append {name : String} (h : place.Named paths name) :
    place.Named (paths ++ others) name := by
  obtain ⟨path, hpath, hname⟩ := h
  exact ⟨path, getElem?_append_of_eq_some others hpath, hname⟩

theorem Place.Shown.append {shown : String} (h : place.Shown paths shown) :
    place.Shown (paths ++ others) shown := by
  obtain ⟨path, hpath, hshown⟩ := h
  exact ⟨path, getElem?_append_of_eq_some others hpath, hshown⟩

theorem Shared.append {name : String} (h : Shared disk paths name) :
    Shared disk (paths ++ others) name := by
  obtain ⟨place, place', hne, ⟨content, hholds⟩, ⟨content', hholds'⟩, hname, hname'⟩ := h
  exact ⟨place, place', hne, ⟨content, hholds.append others⟩, ⟨content', hholds'.append others⟩,
    hname.append others, hname'.append others⟩

theorem Cause.append {error : Error} (h : Cause disk paths error) :
    Cause disk (paths ++ others) error := by
  cases h with
  | shared h hname hshown =>
      exact .shared (h.append others) (hname.append others) (hshown.append others)
  | unlistable hpath hfound h => exact .unlistable (List.mem_append_left _ hpath) hfound h
  | unreadable h hshown => exact .unreadable (h.append others) (hshown.append others)

end Append

section Outcome

variable {disk : Disk} {paths : List String}

theorem stops_of_select {path : String} {error : Error} (hstands : Stands disk path)
    (h : select disk path = .error error) :
    ∃ tree, disk path = .ok tree ∧ Stops path tree error := by
  obtain ⟨tree, hfound, hknown⟩ := hstands
  refine ⟨tree, hfound, ?_⟩
  rw [select, hfound] at h
  cases tree with
  | file => cases h
  | closed problem =>
      obtain rfl := Except.error.inj h
      exact .closed path problem
  | hidden problem => exact absurd rfl (hknown problem)
  | directory entries => exact stops_of_scan (map_eq_error.1 h)

theorem Stops.ne_duplicate {path : String} {tree : FileTree} {error : Error}
    (h : Stops path tree error) (name other : String) : error ≠ .duplicate name other := by
  induction h with
  | closed | hidden => exact nofun
  | under _ _ ih => exact ih

theorem select_ne_duplicate (path name other : String) :
    select disk path ≠ .error (.duplicate name other) := by
  intro h
  rw [select] at h
  cases hfound : disk path with
  | error problem => simp [hfound] at h
  | ok tree =>
      rw [hfound] at h
      cases tree with
      | file | closed | hidden => cases h
      | directory entries =>
          have hscan : scan path (.directory entries) = .error (.duplicate name other) :=
            map_eq_error.1 h
          exact (stops_of_scan hscan).ne_duplicate name other rfl

theorem Stops.not_succeeds_select {path : String} {tree : FileTree} {error : Error}
    (h : Stops path tree error) (hfound : disk path = .ok tree) :
    ¬Succeeds (select disk path) := by
  intro hselect
  cases h with
  | closed | hidden =>
      rw [select, hfound] at hselect
      obtain ⟨files, hfiles⟩ := hselect
      cases hfiles
  | under hmem hbelow =>
      obtain ⟨files, hscan, -⟩ := selection_of_directory hfound hselect
      exact (Stops.under hmem hbelow).not_succeeds ⟨files, hscan⟩

theorem not_unlistable_of_listed (h : ∀ path ∈ paths, Succeeds (select disk path)) :
    ¬Unlistable disk paths := by
  rintro ⟨path, hpath, tree, error, hfound, hstops⟩
  exact hstops.not_succeeds_select hfound (h path hpath)

theorem Unlistable.not_succeeds (h : Unlistable disk paths) : ¬Succeeds (collect disk paths) := by
  rintro ⟨sources, hcollect⟩
  exact not_unlistable_of_listed (listed_of_collect hcollect) h

variable (hw : ∀ path tree, disk path = .ok tree → tree.WellFormed)

include hw

theorem corresponds_of_collect {sources : Sources} (h : collect disk paths = .ok sources) :
    Corresponds disk paths sources := by
  have hlisted := listed_of_collect h
  have hends := ends_collect hlisted
  rw [h] at hends
  cases hends with
  | @added made hmade hnodup =>
      rw [List.nil_append] at hnodup ⊢
      have hget (name : String) (bytes : Bytes) :
          (NameMap.ofList made).get? name = some bytes ↔
            ∃ place : Place, place.Holds disk paths (.ok bytes) ∧ place.Named paths name := by
        rw [NameMap.get?_ofList, NameMap.last?_of_nodup hnodup, mem_of_makes hmade]
        constructor
        · rintro ⟨file, hfile, hname, hcontent⟩
          obtain ⟨place, hholds, -, hnames⟩ := exists_place hw hfile
          exact ⟨place, hcontent ▸ hholds, (hnames name).1 hname⟩
        · rintro ⟨place, hholds, hname⟩
          obtain ⟨file, hfile, hcontent, hnames⟩ := hholds.exists_file hw hlisted
          exact ⟨file, hfile, (hnames name).2 hname, hcontent⟩
      constructor
      · intro place content hholds
        obtain ⟨file, hfile, rfl, hnames⟩ := hholds.exists_file hw hlisted
        obtain ⟨⟨name, bytes⟩, -, hname, hcontent⟩ := exists_entry_of_makes hmade hfile
        have hnamed := (hnames name).1 hname
        rw [hcontent] at hholds
        refine ⟨bytes, hcontent, name, ⟨hnamed, (hget name bytes).2 ⟨place, hholds, hnamed⟩⟩, ?_⟩
        rintro name' ⟨hname', -⟩
        exact hname'.unique hnamed
      · intro name bytes hentry
        obtain ⟨place, hholds, hname⟩ := (hget name bytes).1 hentry
        refine ⟨place, ⟨hholds, hname⟩, ?_⟩
        rintro place' ⟨hholds', hname'⟩
        by_contra hne
        have hshared : Shared disk paths name :=
          ⟨place', place, hne, ⟨_, hholds'⟩, ⟨_, hholds⟩, hname', hname⟩
        rw [map_fst_of_makes hmade] at hnodup
        exact List.nodup_iff_sublist.1 hnodup name ((sublist_iff_shared hw hlisted).2 hshared)

theorem Shared.not_succeeds {name : String} (h : Shared disk paths name) :
    ¬Succeeds (collect disk paths) := by
  rintro ⟨sources, hcollect⟩
  have hlisted := listed_of_collect hcollect
  have hends := ends_collect hlisted
  rw [hcollect] at hends
  cases hends with
  | added hmade hnodup =>
      rw [List.nil_append, map_fst_of_makes hmade] at hnodup
      exact List.nodup_iff_sublist.1 hnodup name ((sublist_iff_shared hw hlisted).2 h)

theorem Unreadable.not_succeeds (h : Unreadable disk paths) : ¬Succeeds (collect disk paths) := by
  rintro ⟨sources, hcollect⟩
  obtain ⟨place, problem, hholds⟩ := h
  obtain ⟨bytes, hbytes, -⟩ := (corresponds_of_collect hw hcollect).entry place _ hholds
  cases hbytes

theorem cause_of_listed (hlisted : ∀ path ∈ paths, Succeeds (select disk path))
    (hnamed : ∀ (place : Place) content, place.Holds disk paths content →
      ∃ name, place.Named paths name)
    {error : Error} (h : collect disk paths = .error error) : Cause disk paths error := by
  have hends := ends_collect hlisted
  rw [h] at hends
  cases hends with
  | nameless hmem hname =>
      obtain ⟨place, hholds, -, hnames⟩ := exists_place hw hmem
      obtain ⟨name, hplace⟩ := hnamed place _ hholds
      cases hname.symm.trans ((hnames name).2 hplace)
  | @duplicate file name hmem hname hsublist =>
      obtain ⟨place, -, hshown, hnames⟩ := exists_place hw hmem
      have hshared := (sublist_iff_shared hw hlisted).1 hsublist
      exact .shared hshared ((hnames name).1 hname) hshown
  | unreadable hmem hcontent =>
      obtain ⟨place, hholds, hshown, -⟩ := exists_place hw hmem
      exact .unreadable (hcontent ▸ hholds) hshown

/-- The paths before the one that cannot be added, and it too unless it cannot be listed, are a
batch of their own with the same error. -/
theorem cause_of_collect (hstands : ∀ path ∈ paths, Stands disk path)
    (hnamed : ∀ (place : Place) content, place.Holds disk paths content →
      ∃ name, place.Named paths name)
    {error : Error} (h : collect disk paths = .error error) : Cause disk paths error := by
  obtain ⟨before, path, after, sources, rfl, hbefore, hpath⟩ := exists_of_collect_eq_error h
  cases hselect : select disk path with
  | error error' =>
      obtain rfl := Except.error.inj ((addPath_of_error hselect).symm.trans hpath)
      obtain ⟨tree, hfound, hstops⟩ := stops_of_select (hstands path (by simp)) hselect
      exact .unlistable (by simp) hfound hstops
  | ok files =>
      have hsplit : before ++ path :: after = (before ++ [path]) ++ after := by simp
      have hlisted : ∀ other ∈ before ++ [path], Succeeds (select disk other) := by
        intro other hmem
        rcases List.mem_append.1 hmem with hmem | hmem
        · exact listed_of_collect hbefore other hmem
        · rw [List.mem_singleton.1 hmem]
          exact ⟨files, hselect⟩
      rw [hsplit] at hnamed ⊢
      apply Cause.append
      apply cause_of_listed hw hlisted
      · intro place content hholds
        obtain ⟨name, hname⟩ := hnamed place content (hholds.append after)
        obtain ⟨other, hother, -⟩ := hholds
        have hsame := getElem?_append_of_eq_some after hother
        exact ⟨name, other, hother, (Place.named_iff hsame).1 hname⟩
      · exact collect_of_error hbefore hpath

theorem collect_singleton_ne_duplicate (path name other : String) :
    collect disk [path] ≠ .error (.duplicate name other) := by
  intro h
  cases hselect : select disk path with
  | error error =>
      rw [collect, List.foldlM_cons, addPath_of_error hselect] at h
      obtain rfl := Except.error.inj h
      exact select_ne_duplicate path name other hselect
  | ok files =>
      have hends : Ends [] ([path].flatMap (selection disk)) (collect disk [path]) :=
        ends_collect (by simp [Succeeds, hselect])
      rw [h] at hends
      cases hends with
      | duplicate _ _ hsublist =>
          rw [List.map_nil, List.nil_append, List.flatMap_singleton] at hsublist
          exact List.nodup_iff_sublist.1 (nodup_namesOf_selection (hw path)) name hsublist

end Outcome

/-- A batch has one entry for each selected file. If the arguments exist and the classes have names,
only a name that two files share, a directory that cannot be listed or a file that cannot be read
keeps them from being collected. -/
theorem collect_exact {disk : Disk} (hw : ∀ path tree, disk path = .ok tree → tree.WellFormed)
    (paths : List String) :
    (∀ sources, collect disk paths = .ok sources → Corresponds disk paths sources) ∧
      ((∀ path ∈ paths, Stands disk path) →
        (∀ (place : Place) content, place.Holds disk paths content →
          ∃ name, place.Named paths name) →
          ((∃ error, collect disk paths = .error error) ↔
            (∃ name, Shared disk paths name) ∨ Unlistable disk paths ∨ Unreadable disk paths) ∧
          ∀ error, collect disk paths = .error error → Cause disk paths error ∧
            (¬Unlistable disk paths → ¬Unreadable disk paths → ∃ name path,
              Shared disk paths name ∧
              error.message = "Duplicate class name '" ++ name ++ "' (from " ++ path ++ ")")) ∧
      ∀ path name other, collect disk [path] ≠ .error (.duplicate name other) := by
  refine ⟨fun sources => corresponds_of_collect hw, fun hstands hnamed => ⟨⟨?_, ?_⟩, ?_⟩,
    collect_singleton_ne_duplicate hw⟩
  · rintro ⟨error, h⟩
    cases cause_of_collect hw hstands hnamed h with
    | shared hshared => exact .inl ⟨_, hshared⟩
    | unlistable hpath hfound hstops => exact .inr (.inl ⟨_, hpath, _, _, hfound, hstops⟩)
    | unreadable hholds => exact .inr (.inr ⟨_, _, hholds⟩)
  · intro hcause
    have hfails : ¬Succeeds (collect disk paths) := by
      rcases hcause with ⟨name, hshared⟩ | hunlistable | hunreadable
      · exact hshared.not_succeeds hw
      · exact hunlistable.not_succeeds
      · exact hunreadable.not_succeeds hw
    cases hcollect : collect disk paths with
    | ok sources => exact absurd ⟨sources, hcollect⟩ hfails
    | error error => exact ⟨error, rfl⟩
  · intro error h
    have hcause := cause_of_collect hw hstands hnamed h
    refine ⟨hcause, fun hlistable hreadable => ?_⟩
    cases hcause with
    | @shared _ name path hshared => exact ⟨name, path, hshared, rfl⟩
    | unlistable hpath hfound hstops => exact absurd ⟨_, hpath, _, _, hfound, hstops⟩ hlistable
    | unreadable hholds => exact absurd ⟨_, _, hholds⟩ hreadable

def nestedDirectory : FileTree :=
  .directory [(.text "Main.class", .file (.ok [1])), (.text "notes.md", .file (.ok [2]))]

def nestedTree : FileTree :=
  .directory [(.text "X.class", nestedDirectory), (.text "Main.class", .file (.ok [3]))]

theorem wellFormed_nestedTree : nestedTree.WellFormed := by
  have hdirectory : nestedDirectory.WellFormed := by
    refine .directory (by decide) (by decide) ?_
    simp only [List.forall_mem_cons]
    exact ⟨.file _, .file _, nofun⟩
  refine .directory (by decide) (by decide) ?_
  simp only [List.forall_mem_cons]
  exact ⟨hdirectory, .file _, nofun⟩

theorem select_nestedTree :
    select nestedTree.disk "X.class" = .ok [⟨.ok "Main", "X.class/Main.class", .ok [1]⟩] := by
  have hscan : scan "X.class" nestedDirectory =
      .ok [⟨[.text "Main.class"], .ok [1]⟩, ⟨[.text "notes.md"], .ok [2]⟩] := rfl
  have hclasses : classFiles [⟨[.text "Main.class"], .ok [1]⟩, ⟨[.text "notes.md"], .ok [2]⟩] =
      [⟨[.text "Main.class"], .ok [1]⟩] := by
    have hfilter : [⟨[.text "Main.class"], .ok [1]⟩, ⟨[.text "notes.md"], .ok [2]⟩].filter
        Found.isClassFile = [⟨[.text "Main.class"], .ok [1]⟩] := rfl
    rw [classFiles, hfilter, List.mergeSort_singleton]
  rw [select_of_scan rfl hscan, hclasses]
  rfl

theorem collect_exact_sample :
    nestedTree.WellFormed ∧
      collect nestedTree.disk ["X.class", "Main.class"] = .error (.duplicate "Main" "Main.class") ∧
      (∃ name, Shared nestedTree.disk ["X.class", "Main.class"] name) ∧
      collect nestedTree.disk ["X.class"] = .ok (.ofList [("Main", [1])]) ∧
      Corresponds nestedTree.disk ["X.class"] (.ofList [("Main", [1])]) := by
  have hw (path : String) (tree : FileTree) (h : nestedTree.disk path = .ok tree) :
      tree.WellFormed :=
    wellFormed_nestedTree.of_disk h
  have hdirectory := select_nestedTree
  have hfile : select nestedTree.disk "Main.class" =
      .ok [⟨.ok "Main", "Main.class", .ok [3]⟩] := rfl
  have hlisted : ∀ path ∈ ["X.class", "Main.class"], Succeeds (select nestedTree.disk path) := by
    simp [Succeeds, hdirectory, hfile]
  have hselected : ["X.class", "Main.class"].flatMap (selection nestedTree.disk) =
      [⟨.ok "Main", "X.class/Main.class", .ok [1]⟩, ⟨.ok "Main", "Main.class", .ok [3]⟩] := by
    simp [selection, hdirectory, hfile]
  have hstands : ∀ path ∈ ["X.class", "Main.class"], Stands nestedTree.disk path := by
    simp only [List.forall_mem_cons]
    refine ⟨⟨nestedDirectory, rfl, ?_⟩, ⟨.file (.ok [3]), rfl, ?_⟩, List.forall_mem_nil _⟩
    · simp [nestedDirectory]
    · simp
  have hholds {place : Place} {content : Except AccessError Bytes}
      (h : place.Holds nestedTree.disk ["X.class", "Main.class"] content) :
      place.Named ["X.class", "Main.class"] "Main" ∧ ∃ bytes, content = .ok bytes := by
    obtain ⟨file, hmem, rfl, hnames⟩ := h.exists_file hw hlisted
    rw [hselected] at hmem
    simp only [List.mem_cons, List.not_mem_nil, or_false] at hmem
    rcases hmem with rfl | rfl
    · exact ⟨(hnames "Main").1 rfl, _, rfl⟩
    · exact ⟨(hnames "Main").1 rfl, _, rfl⟩
  have hreadable : ¬Unreadable nestedTree.disk ["X.class", "Main.class"] := by
    rintro ⟨place, problem, h⟩
    obtain ⟨-, bytes, hbytes⟩ := hholds h
    cases hbytes
  have herror : collect nestedTree.disk ["X.class", "Main.class"] =
      .error (.duplicate "Main" "Main.class") := by
    rw [collect, foldlM_addPath hlisted, hselected]
    rfl
  have hone : collect nestedTree.disk ["X.class"] = .ok (.ofList [("Main", [1])]) := by
    rw [collect, List.foldlM_cons, addPath_of_ok hdirectory]
    rfl
  obtain ⟨-, hfails, -⟩ := collect_exact hw ["X.class", "Main.class"]
  have hcauses := (hfails hstands fun place content h => ⟨"Main", (hholds h).1⟩).1.1 ⟨_, herror⟩
  have hshared := hcauses.resolve_right (not_or.2 ⟨not_unlistable_of_listed hlisted, hreadable⟩)
  exact ⟨wellFormed_nestedTree, herror, hshared, hone, (collect_exact hw ["X.class"]).1 _ hone⟩

section OneClass

variable {disk : Disk} {path : String} {content : Except AccessError Bytes}
  (h : disk path = .ok (.directory [(.text "B.class", .file content)]))

include h

theorem select_oneClass :
    select disk path = .ok [⟨.ok "B", Path.below path "B.class", content⟩] := by
  have hscan : scan path (.directory [(.text "B.class", .file content)]) =
      .ok [⟨[.text "B.class"], content⟩] := rfl
  have hclasses : classFiles [⟨[.text "B.class"], content⟩] = [⟨[.text "B.class"], content⟩] := by
    have hfilter : [⟨[.text "B.class"], content⟩].filter Found.isClassFile =
        [⟨[.text "B.class"], content⟩] := rfl
    rw [classFiles, hfilter, List.mergeSort_singleton]
  rw [select_of_scan h hscan, hclasses]
  rfl

theorem selection_oneClass :
    [path].flatMap (selection disk) = [⟨.ok "B", Path.below path "B.class", content⟩] := by
  rw [List.flatMap_singleton, selection, select_oneClass h]

theorem listed_oneClass : ∀ other ∈ [path], Succeeds (select disk other) := by
  intro other hmem
  rw [List.mem_singleton.1 hmem]
  exact ⟨_, select_oneClass h⟩

theorem stands_oneClass : ∀ other ∈ [path], Stands disk other := by
  intro other hmem
  rw [List.mem_singleton.1 hmem]
  exact ⟨_, h, nofun⟩

end OneClass

def farTree : FileTree :=
  .directory [(.text "a", .directory [(.text "B.class", .file (.ok [0xCA, 0xFE]))])]

/-- The directory can be reached by this path, but the path to the class in it is too long. -/
def farPath : String := Path.dotted 2045 "a"

theorem disk_farPath :
    farTree.disk farPath =
      .ok (.directory [(.text "B.class", .file (.error .nameTooLong))]) := by
  rw [farTree, farPath, FileTree.disk_dotted _ (by decide) 2045 (by decide)]
  rfl

theorem wellFormed_farTree : farTree.WellFormed := by
  refine .directory (by decide) (by decide) ?_
  simp only [List.forall_mem_cons]
  refine ⟨.directory (by decide) (by decide) ?_, nofun⟩
  simp only [List.forall_mem_cons]
  exact ⟨.file _, nofun⟩

/-- The argument exists, the class in it has a name and there is no other. -/
theorem collect_farPath :
    farTree.WellFormed ∧ (∀ path ∈ [farPath], Stands farTree.disk path) ∧
      (∀ (place : Place) content, place.Holds farTree.disk [farPath] content →
        ∃ name, place.Named [farPath] name) ∧
      (¬∃ name, Shared farTree.disk [farPath] name) ∧
      collect farTree.disk [farPath] =
        .error (.unreadableClass (Path.below farPath "B.class") .nameTooLong) := by
  have hw (path : String) (tree : FileTree) (h : farTree.disk path = .ok tree) : tree.WellFormed :=
    wellFormed_farTree.of_disk h
  have hdisk := disk_farPath
  generalize farPath = path at hdisk ⊢
  have hlisted := listed_oneClass hdisk
  have hselection := selection_oneClass hdisk
  refine ⟨wellFormed_farTree, stands_oneClass hdisk, ?_, ?_, ?_⟩
  · intro place content h
    obtain ⟨file, hmem, -, hnames⟩ := h.exists_file hw hlisted
    rw [hselection] at hmem
    obtain rfl := List.mem_singleton.1 hmem
    exact ⟨"B", (hnames "B").1 rfl⟩
  · rintro ⟨name, hshared⟩
    have hsublist := (sublist_iff_shared hw hlisted).2 hshared
    rw [hselection, namesOf_cons rfl] at hsublist
    exact absurd hsublist.length_le (by simp [namesOf])
  · rw [collect, foldlM_addPath hlisted, hselection]
    rfl

end ClassListing.Collection
