import ClassListing.Proofs.Collection.Scan

namespace ClassListing.Collection

open Checks
open FileTree (Leads WellFormed)

section Names

variable {files : List Selected} {file : Selected} {name : String}

def namesOf (files : List Selected) : List String := files.filterMap fun file => file.name.toOption

theorem toOption_name_eq_some : file.name.toOption = some name ↔ file.name = .ok name := by
  cases file.name with
  | error problem => simp [Except.toOption]
  | ok name => simp [Except.toOption]

theorem namesOf_cons (h : file.name = .ok name) : namesOf (file :: files) = name :: namesOf files :=
  List.filterMap_cons_some (toOption_name_eq_some.2 h)

theorem mem_namesOf : name ∈ namesOf files ↔ ∃ file ∈ files, file.name = .ok name := by
  simp only [namesOf, List.mem_filterMap, toOption_name_eq_some]

end Names

/-- A name with a stem and the extension of class files. -/
inductive IsClassName : FileName → Prop
  | text {stem : String} (h : stem ≠ "") : IsClassName (.text (stem ++ ".class"))
  | raw {stem : Bytes} {h : String.fromUTF8? ⟨(stem ++ utf8Bytes ".class").toArray⟩ = none}
      (hne : stem ≠ []) : IsClassName (.raw (stem ++ utf8Bytes ".class") h)

/-- A file that an argument selects, by the names that lead to it from there. Where the argument is
itself a file there are none. -/
inductive Picks (disk : Disk) (path : String) : List FileName → Except AccessError Bytes → Prop
  | file {content : Except AccessError Bytes} (h : disk path = .ok (.file content)) :
      Picks disk path [] content
  | under {entries : List (FileName × FileTree)} {front : List FileName} {last : FileName}
      {content : Except AccessError Bytes} (h : disk path = .ok (.directory entries))
      (hleads : Leads (.directory entries) (front ++ [last]) content) (hclass : IsClassName last) :
      Picks disk path (front ++ [last]) content

/-- The name of the class in a selected file: the stem of the argument, or the way from the argument
to the file without the extension. A stem that would be a step of its own is no part of a name, and
neither is a name that is no text. -/
inductive Names (path : String) : List FileName → String → Prop
  | file {name : String} (h : Path.stem? path = some name) : Names path [] name
  | under {front : List String} {stem : String} (hdot : stem ≠ ".") (hdots : stem ≠ "..") :
      Names path ((front ++ [stem ++ ".class"]).map .text) (Path.join (front ++ [stem]))

def shownPath (path : String) (names : List FileName) : String :=
  if names = [] then path else Path.below path (Path.join (names.map FileName.shown))

def selection (disk : Disk) (path : String) : List Selected :=
  match select disk path with
  | .ok files => files
  | .error _ => []

section Selection

variable {disk : Disk} {path : String} {names : List FileName}
  {content : Except AccessError Bytes}

theorem isClassFile_iff {name : FileName} (h : name.IsProper) :
    name.isClassFile = true ↔ IsClassName name := by
  cases name with
  | text name =>
      have hproper : ∀ other ∈ [name], Path.IsName other ∧ '/' ∉ other.toList := by
        intro other hmem
        rw [List.mem_singleton.1 hmem]
        exact h
      have hfile : Path.fileName? name = some name := by
        have := Path.fileName?_join (List.cons_ne_nil name []) hproper
        rwa [Path.join, String.intercalate_singleton] at this
      rw [FileName.isClassFile, Path.isClassFile_iff, hfile]
      constructor
      · rintro ⟨stem, hne, heq⟩
        rw [Option.some.inj heq]
        exact .text hne
      · intro hclass
        cases hclass with
        | @text stem hne => exact ⟨stem, hne, rfl⟩
  | raw bytes hraw =>
      have hlength : (utf8Bytes ".class").length = ".class".toUTF8.data.toList.length := rfl
      simp only [FileName.isClassFile, Bool.and_eq_true, List.isSuffixOf_iff_suffix,
        decide_eq_true_iff, ← hlength]
      constructor
      · rintro ⟨⟨stem, rfl⟩, hlt⟩
        refine IsClassName.raw ?_
        rintro rfl
        exact absurd hlt (Nat.lt_irrefl _)
      · intro hclass
        cases hclass with
        | @raw stem _ hne =>
            refine ⟨⟨stem, rfl⟩, ?_⟩
            have hpos := List.length_pos_iff.2 hne
            rw [List.length_append]
            omega

theorem mapM_text?_eq_some {texts : List String} :
    names.mapM FileName.text? = some texts ↔ names = texts.map .text := by
  induction names generalizing texts with
  | nil => cases texts <;> simp
  | cons name names ih =>
      rw [List.mapM_cons]
      cases texts with
      | nil => cases name <;> simp [FileName.text?, Option.bind_eq_some_iff]
      | cons first rest =>
          cases name <;> simp [FileName.text?, Option.bind_eq_some_iff, ih, and_comm]

theorem Names.exists_stem {name : String} (h : Names path names name) (hne : names ≠ []) :
    ∃ front stem, names = (front ++ [stem ++ ".class"]).map .text ∧ stem ≠ "." ∧ stem ≠ ".." ∧
      name = Path.join (front ++ [stem]) := by
  cases h with
  | file => exact absurd rfl hne
  | @under front stem hdot hdots => exact ⟨front, stem, rfl, hdot, hdots, rfl⟩

theorem fileClassName_eq_ok {name : String} :
    Path.fileClassName path = .ok name ↔ Names path [] name := by
  rw [Path.fileClassName]
  constructor
  · intro h
    cases hstem : Path.stem? path with
    | none => rw [hstem] at h; cases h
    | some stem =>
        rw [hstem] at h
        obtain rfl := Except.ok.inj h
        exact .file hstem
  · intro h
    generalize hnames : ([] : List FileName) = names at h
    cases h with
    | file h => rw [h]
    | under => simp at hnames

theorem map_text_injective : Function.Injective (List.map FileName.text) :=
  List.map_injective_iff.2 fun _ _ h => FileName.text.inj h

theorem Names.unique {name name' : String} (h : Names path names name)
    (h' : Names path names name') : name = name' := by
  by_cases hne : names = []
  · subst hne
    exact Except.ok.inj ((fileClassName_eq_ok.2 h).symm.trans (fileClassName_eq_ok.2 h'))
  · obtain ⟨front, stem, rfl, -, -, rfl⟩ := h.exists_stem hne
    obtain ⟨front', stem', heq, -, -, rfl⟩ := h'.exists_stem hne
    obtain ⟨rfl, hstem⟩ := List.append_inj' (map_text_injective heq) rfl
    rw [(String.append_left_inj ".class").1 (List.singleton_inj.1 hstem)]

theorem isClassFile_join {texts : List String} {last : FileName} {front : List FileName}
    (hne : texts ≠ []) (hproper : ∀ text ∈ texts, Path.IsName text ∧ '/' ∉ text.toList)
    (h : front ++ [last] = texts.map .text) (hclass : IsClassName last) :
    Path.isClassFile (Path.join texts) = true := by
  have hlast : texts.getLast?.map FileName.text = some last := by
    rw [← List.getLast?_map, ← h, List.getLast?_concat]
  obtain ⟨text, htext, rfl⟩ := Option.map_eq_some_iff.1 hlast
  cases hclass with
  | @text stem hstem =>
      exact Path.isClassFile_iff.2 ⟨stem, hstem, (Path.fileName?_join hne hproper).trans htext⟩

theorem className_eq_ok {front : List FileName} {last : FileName} {name : String}
    (hproper : ∀ name ∈ front ++ [last], name.IsProper) (hclass : IsClassName last) :
    FileName.className (front ++ [last]) = .ok name ↔ Names path (front ++ [last]) name := by
  rw [FileName.className]
  cases htexts : (front ++ [last]).mapM FileName.text? with
  | none =>
      refine iff_of_false (by simp) ?_
      intro h
      obtain ⟨front', stem, heq, -⟩ := h.exists_stem (by simp)
      rw [mapM_text?_eq_some.2 heq] at htexts
      cases htexts
  | some texts =>
      have heq := mapM_text?_eq_some.1 htexts
      have hne : texts ≠ [] := by
        rintro rfl
        simp at heq
      have hnames : ∀ text ∈ texts, Path.IsName text ∧ '/' ∉ text.toList := by
        intro text hmem
        exact hproper (.text text) (heq ▸ List.mem_map_of_mem hmem)
      rw [Path.className_join hne hnames (isClassFile_join hne hnames heq hclass), heq]
      constructor
      · rintro ⟨front, stem, rfl, hdot, hdots, rfl⟩
        exact .under hdot hdots
      · intro h
        obtain ⟨front, stem, hmap, hstem⟩ := h.exists_stem (by simpa using hne)
        exact ⟨front, stem, map_text_injective hmap, hstem⟩

theorem mem_classFiles_scan {tree : FileTree} {files : List Found} (hw : tree.WellFormed)
    (hscan : scan path tree = .ok files) :
    ⟨names, content⟩ ∈ classFiles files ↔
      ∃ front last, names = front ++ [last] ∧ tree.Leads names content ∧ IsClassName last := by
  rw [mem_classFiles, mem_scan hscan]
  constructor
  · rintro ⟨hleads, hclass⟩
    obtain ⟨last, hlast, hname⟩ := (Option.any_eq_true _ _).1 hclass
    obtain ⟨front, rfl⟩ := List.getLast?_eq_some_iff.1 hlast
    have hproper := hw.isProper_of_leads hleads last (by simp)
    exact ⟨front, last, rfl, hleads, (isClassFile_iff hproper).1 hname⟩
  · rintro ⟨front, last, rfl, hleads, hclass⟩
    have hproper := hw.isProper_of_leads hleads last (by simp)
    refine ⟨hleads, ?_⟩
    rw [Found.isClassFile, List.getLast?_concat]
    exact (isClassFile_iff hproper).2 hclass

theorem select_of_scan {entries : List (FileName × FileTree)} {files : List Found}
    (hfound : disk path = .ok (.directory entries))
    (hscan : scan path (.directory entries) = .ok files) :
    select disk path = .ok ((classFiles files).map (Found.selected path)) := by
  rw [scan] at hscan
  rw [select, hfound]
  simp only [selectTree, hscan]
  rfl

theorem selection_of_directory {entries : List (FileName × FileTree)}
    (hfound : disk path = .ok (.directory entries)) (h : Succeeds (select disk path)) :
    ∃ files, scan path (.directory entries) = .ok files ∧
      selection disk path = (classFiles files).map (Found.selected path) := by
  have hscan : Succeeds (scan path (.directory entries)) := by
    rw [select, hfound] at h
    exact succeeds_map.1 h
  obtain ⟨files, hscan⟩ := hscan
  refine ⟨files, hscan, ?_⟩
  rw [selection, select_of_scan hfound hscan]

theorem succeeds_of_mem {file : Selected} (h : file ∈ selection disk path) :
    Succeeds (select disk path) := by
  rw [selection] at h
  cases hselect : select disk path with
  | error error => simp [hselect] at h
  | ok files => exact ⟨files, rfl⟩

theorem shownPath_concat (path : String) (front : List FileName) (last : FileName) :
    shownPath path (front ++ [last]) =
      Path.below path (Path.join ((front ++ [last]).map FileName.shown)) :=
  if_neg (by simp)

variable (hw : ∀ tree, disk path = .ok tree → tree.WellFormed)

include hw

theorem exists_pick {file : Selected} (h : file ∈ selection disk path) :
    ∃ names, Picks disk path names file.content ∧ file.path = shownPath path names ∧
      ∀ name, file.name = .ok name ↔ Names path names name := by
  have hlisted := succeeds_of_mem h
  cases hfound : disk path with
  | error problem => simp [selection, select, hfound] at h
  | ok tree =>
      cases tree with
      | file content =>
          rw [selection, select, hfound] at h
          obtain rfl := List.mem_singleton.1 h
          exact ⟨[], .file hfound, rfl, fun name => fileClassName_eq_ok⟩
      | closed | hidden => simp [selection, select, selectTree, hfound] at h
      | directory entries =>
          have hw := hw _ hfound
          obtain ⟨files, hscan, hselection⟩ := selection_of_directory hfound hlisted
          rw [hselection] at h
          obtain ⟨⟨names, content⟩, hmem, rfl⟩ := List.mem_map.1 h
          obtain ⟨front, last, rfl, hleads, hclass⟩ := (mem_classFiles_scan hw hscan).1 hmem
          refine ⟨front ++ [last], .under hfound hleads hclass, (shownPath_concat ..).symm, ?_⟩
          intro name
          exact className_eq_ok (hw.isProper_of_leads hleads) hclass

theorem exists_file (hlisted : Succeeds (select disk path)) (h : Picks disk path names content) :
    ∃ file ∈ selection disk path, file.content = content ∧
      ∀ name, file.name = .ok name ↔ Names path names name := by
  cases h with
  | file hfound =>
      rw [selection, select, hfound]
      exact ⟨_, List.mem_singleton.2 rfl, rfl, fun name => fileClassName_eq_ok⟩
  | under hfound hleads hclass =>
      have hw := hw _ hfound
      obtain ⟨files, hscan, hselection⟩ := selection_of_directory hfound hlisted
      have hmem := (mem_classFiles_scan hw hscan).2 ⟨_, _, rfl, hleads, hclass⟩
      rw [hselection]
      refine ⟨_, List.mem_map_of_mem hmem, rfl, ?_⟩
      intro name
      exact className_eq_ok (hw.isProper_of_leads hleads) hclass

theorem Picks.isProper (h : Picks disk path names content) : ∀ name ∈ names, name.IsProper := by
  cases h with
  | file => exact fun name hmem => absurd hmem List.not_mem_nil
  | under hfound hleads => exact (hw _ hfound).isProper_of_leads hleads

theorem Picks.segments_eq {front : List String} {stem : String}
    (h : Picks disk path ((front ++ [stem ++ ".class"]).map .text) content) :
    Path.segments (Path.join (front ++ [stem])) = front ++ [stem] := by
  have hproper : ∀ name ∈ front ++ [stem ++ ".class"], Path.IsName name ∧ '/' ∉ name.toList := by
    intro name hname
    exact h.isProper hw (.text name) (List.mem_map_of_mem hname)
  exact (Path.segments_of_components (Path.components_join (by simp) hproper)).1

/-- The names of the files that one argument selects tell them apart. -/
theorem Picks.eq_of_names {names' : List FileName} {content' : Except AccessError Bytes}
    {name : String} (h : Picks disk path names content) (h' : Picks disk path names' content')
    (hname : Names path names name) (hname' : Names path names' name) : names = names' := by
  cases h with
  | file hfound =>
      cases h' with
      | file => rfl
      | under hfound' => cases hfound.symm.trans hfound'
  | under hfound hleads hclass =>
      cases h' with
      | file hfound' => cases hfound.symm.trans hfound'
      | under hfound' hleads' hclass' =>
          have hpicks := Picks.under hfound hleads hclass
          have hpicks' := Picks.under hfound' hleads' hclass'
          obtain ⟨front, stem, heq, -, -, rfl⟩ := hname.exists_stem (by simp)
          obtain ⟨front', stem', heq', -, -, hjoin⟩ := hname'.exists_stem (by simp)
          rw [heq] at hpicks ⊢
          rw [heq'] at hpicks' ⊢
          have hsame := congrArg Path.segments hjoin
          rw [hpicks.segments_eq hw, hpicks'.segments_eq hw] at hsame
          obtain ⟨rfl, hstem⟩ := List.append_inj' hsame rfl
          rw [List.singleton_inj.1 hstem]

theorem pairwise_selection :
    (selection disk path).Pairwise fun file file' =>
      ∀ name, file.name = .ok name → file'.name ≠ .ok name := by
  by_cases hlisted : Succeeds (select disk path)
  · cases hfound : disk path with
    | error problem => simp [selection, select, hfound]
    | ok tree =>
        cases tree with
        | file | closed | hidden => simp [selection, select, selectTree, hfound]
        | directory entries =>
            have hw' := hw _ hfound
            obtain ⟨files, hscan, hselection⟩ := selection_of_directory hfound hlisted
            rw [hselection, List.pairwise_map]
            refine (pairwise_classFiles (nodup_scan hw' hscan)).imp_of_mem ?_
            rintro ⟨names, content⟩ ⟨names', content'⟩ hmem hmem' hlt name hname hname'
            obtain ⟨front, last, rfl, hleads, hclass⟩ := (mem_classFiles_scan hw' hscan).1 hmem
            obtain ⟨front', last', rfl, hleads', hclass'⟩ :=
              (mem_classFiles_scan hw' hscan).1 hmem'
            have heq := Picks.eq_of_names hw (.under hfound hleads hclass)
              (.under hfound hleads' hclass')
              ((className_eq_ok (hw'.isProper_of_leads hleads) hclass).1 hname)
              ((className_eq_ok (hw'.isProper_of_leads hleads') hclass').1 hname')
            dsimp only at hlt
            rw [heq] at hlt
            exact List.lt_irrefl _ hlt
  · have hnone : selection disk path = [] := by
      apply List.eq_nil_iff_forall_not_mem.2
      intro file hmem
      exact hlisted (succeeds_of_mem hmem)
    rw [hnone]
    exact .nil

theorem nodup_namesOf_selection : (namesOf (selection disk path)).Nodup := by
  rw [namesOf, List.Nodup, List.pairwise_filterMap]
  refine (pairwise_selection hw).imp ?_
  intro file file' h name hname name' hname' heq
  exact h name (toOption_name_eq_some.1 hname) (heq ▸ toOption_name_eq_some.1 hname')

theorem mem_namesOf_selection (hlisted : Succeeds (select disk path)) {name : String} :
    name ∈ namesOf (selection disk path) ↔
      ∃ names content, Picks disk path names content ∧ Names path names name := by
  rw [mem_namesOf]
  constructor
  · rintro ⟨file, hmem, hname⟩
    obtain ⟨names, hpicks, -, hnames⟩ := exists_pick hw hmem
    exact ⟨names, file.content, hpicks, (hnames name).1 hname⟩
  · rintro ⟨names, content, hpicks, hname⟩
    obtain ⟨file, hmem, -, hnames⟩ := exists_file hw hlisted hpicks
    exact ⟨file, hmem, (hnames name).2 hname⟩

end Selection

end ClassListing.Collection
