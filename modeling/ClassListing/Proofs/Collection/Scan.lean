import ClassListing.Collection
import ClassListing.Proofs.FileTree

namespace ClassListing

theorem FileName.fromUTF8?_bytes (name : FileName) :
    String.fromUTF8? ⟨name.bytes.toArray⟩ = name.text? := by
  cases name with
  | text name =>
      rw [bytes, Array.toArray_toList, String.fromUTF8?]
      exact dif_pos name.isValidUTF8
  | raw bytes h => exact h

theorem FileName.bytes_injective : Function.Injective FileName.bytes := by
  intro a b h
  have htext : a.text? = b.text? := by rw [← fromUTF8?_bytes, ← fromUTF8?_bytes, h]
  cases a with
  | text a =>
      cases b with
      | text b => rw [Option.some.inj htext]
      | raw b => cases htext
  | raw a =>
      cases b with
      | text b => cases htext
      | raw b =>
          obtain rfl : a = b := h
          rfl

namespace Collection

open Checks
open FileTree (Leads WellFormed Reordered)

variable {path : String} {tree tree' : FileTree} {entries : List (FileName × FileTree)}
  {files : List Found} {error : Error}

def scanEntry (path : String) (entry : FileName × FileTree) : Except Error (List Found) := do
  return (← scan (Path.below path entry.1.shown) entry.2).map (Found.under entry.1)

theorem scanEntry_eq_ok {name : FileName} :
    scanEntry path (name, tree) = .ok files ↔
      ∃ below, scan (Path.below path name.shown) tree = .ok below ∧
        below.map (Found.under name) = files := by
  rw [scanEntry, bind_eq_ok]
  simp only [pure_eq_ok]

theorem scanEntry_eq_error {name : FileName} :
    scanEntry path (name, tree) = .error error ↔
      scan (Path.below path name.shown) tree = .error error :=
  map_eq_error

theorem scanEntries_cons (path : String) (entry : FileName × FileTree)
    (rest : List (FileName × FileTree)) :
    scanEntries path (entry :: rest) = do
      return (← scanEntry path entry) ++ (← scanEntries path rest) := by
  rw [scanEntries, scanEntry]
  simp

theorem scanEntries_cons_eq_ok {entry : FileName × FileTree} :
    scanEntries path (entry :: entries) = .ok files ↔
      ∃ first others, scanEntry path entry = .ok first ∧ scanEntries path entries = .ok others ∧
        files = first ++ others := by
  rw [scanEntries_cons]
  simp only [bind_eq_ok, pure_eq_ok]
  grind

theorem scanEntries_cons_eq_error {entry : FileName × FileTree} :
    scanEntries path (entry :: entries) = .error error ↔
      scanEntry path entry = .error error ∨
        Succeeds (scanEntry path entry) ∧ scanEntries path entries = .error error := by
  rw [scanEntries_cons]
  exact map₂_eq_error

theorem mem_scanEntries (h : scanEntries path entries = .ok files) {file : Found} :
    file ∈ files ↔ ∃ entry ∈ entries, ∃ found, scanEntry path entry = .ok found ∧ file ∈ found := by
  induction entries generalizing files with
  | nil =>
      obtain rfl := Except.ok.inj h
      simp
  | cons entry rest ih =>
      obtain ⟨first, others, hfirst, hothers, rfl⟩ := scanEntries_cons_eq_ok.1 h
      rw [List.mem_append, ih hothers, List.exists_mem_cons_iff]
      simp [hfirst]

theorem succeeds_scanEntry (h : scanEntries path entries = .ok files) {entry : FileName × FileTree}
    (hmem : entry ∈ entries) : Succeeds (scanEntry path entry) := by
  induction entries generalizing files with
  | nil => exact absurd hmem List.not_mem_nil
  | cons first rest ih =>
      obtain ⟨found, others, hfirst, hothers, -⟩ := scanEntries_cons_eq_ok.1 h
      rcases List.mem_cons.1 hmem with rfl | hmem
      · exact ⟨found, hfirst⟩
      · exact ih hothers hmem

theorem exists_of_scanEntries_eq_error (h : scanEntries path entries = .error error) :
    ∃ entry ∈ entries, scanEntry path entry = .error error := by
  induction entries with
  | nil => cases h
  | cons first rest ih =>
      rcases scanEntries_cons_eq_error.1 h with hfirst | ⟨-, hrest⟩
      · exact ⟨first, List.mem_cons_self, hfirst⟩
      · obtain ⟨entry, hmem, hentry⟩ := ih hrest
        exact ⟨entry, List.mem_cons_of_mem _ hmem, hentry⟩

/-- A scan finds every file to which names lead, and no other. -/
theorem mem_scan (h : scan path tree = .ok files) (names : List FileName)
    (content : Except AccessError Bytes) :
    ⟨names, content⟩ ∈ files ↔ tree.Leads names content := by
  induction tree generalizing path files names with
  | file content' =>
      obtain rfl := Except.ok.inj h
      constructor
      · intro hmem
        cases List.mem_singleton.1 hmem
        exact .here content
      · intro hleads
        cases hleads
        exact List.mem_singleton_self _
  | closed | hidden => cases h
  | directory entries ih =>
      rw [mem_scanEntries h]
      constructor
      · rintro ⟨⟨name, tree⟩, hmem, found, hscan, hfound⟩
        obtain ⟨below, hbelow, rfl⟩ := scanEntry_eq_ok.1 hscan
        obtain ⟨file, hfile, heq⟩ := List.mem_map.1 hfound
        cases heq
        exact .under hmem ((ih _ hmem hbelow _).1 hfile)
      · intro hleads
        cases hleads with
        | under hmem hleads =>
            obtain ⟨found, hscan⟩ := succeeds_scanEntry h hmem
            obtain ⟨below, hbelow, rfl⟩ := scanEntry_eq_ok.1 hscan
            have hfile := (ih _ hmem hbelow _).2 hleads
            exact ⟨_, hmem, _, hscan, List.mem_map_of_mem hfile⟩

theorem names_of_scanEntry {name : FileName} (h : scanEntry path (name, tree) = .ok files)
    {file : Found} (hmem : file ∈ files) : ∃ names, file.names = name :: names := by
  obtain ⟨below, -, rfl⟩ := scanEntry_eq_ok.1 h
  obtain ⟨file, -, rfl⟩ := List.mem_map.1 hmem
  exact ⟨file.names, rfl⟩

/-- If names tell apart what is found at each entry, they tell apart what is found at all. -/
theorem nodup_scanEntries (hnames : (entries.map (·.1)).Nodup)
    (hentry : ∀ entry ∈ entries, ∀ found, scanEntry path entry = .ok found →
      (found.map Found.names).Nodup)
    (h : scanEntries path entries = .ok files) : (files.map Found.names).Nodup := by
  induction entries generalizing files with
  | nil =>
      obtain rfl := Except.ok.inj h
      exact List.nodup_nil
  | cons entry rest ih =>
      obtain ⟨first, others, hfirst, hothers, rfl⟩ := scanEntries_cons_eq_ok.1 h
      obtain ⟨hname, hnames⟩ := List.nodup_cons.1 hnames
      obtain ⟨hentry, hrest⟩ := List.forall_mem_cons.1 hentry
      rw [List.map_append, List.nodup_append']
      refine ⟨hentry first hfirst, ih hnames hrest hothers, ?_⟩
      intro names hleft hright
      obtain ⟨file, hfile, rfl⟩ := List.mem_map.1 hleft
      obtain ⟨file', hfile', hsame⟩ := List.mem_map.1 hright
      obtain ⟨other, hmem, found, hfound, hfile'⟩ := (mem_scanEntries hothers).1 hfile'
      obtain ⟨_, hhead⟩ := names_of_scanEntry hfirst hfile
      obtain ⟨_, hhead'⟩ := names_of_scanEntry hfound hfile'
      rw [hhead, hhead'] at hsame
      exact hname (List.mem_map.2 ⟨other, hmem, (List.cons.inj hsame).1⟩)

theorem nodup_scan (hw : tree.WellFormed) (h : scan path tree = .ok files) :
    (files.map Found.names).Nodup := by
  induction tree generalizing path files with
  | file content =>
      obtain rfl := Except.ok.inj h
      exact List.nodup_singleton _
  | closed | hidden => cases h
  | directory entries ih =>
      refine nodup_scanEntries hw.nodup ?_ h
      intro entry hmem found hfound
      obtain ⟨below, hbelow, rfl⟩ := scanEntry_eq_ok.1 hfound
      rw [List.map_map]
      have hnodup := ih entry hmem (hw.of_mem hmem) hbelow
      have := hnodup.map (f := (entry.1 :: ·)) fun _ _ h => (List.cons.inj h).2
      rwa [List.map_map] at this

section ClassFiles

theorem mem_classFiles {file : Found} :
    file ∈ classFiles files ↔ file ∈ files ∧ file.isClassFile = true := by
  rw [classFiles, List.mem_mergeSort, List.mem_filter]

/-- No two files of a tree have the same names, so the order is strict. -/
theorem pairwise_classFiles (h : (files.map Found.names).Nodup) :
    (classFiles files).Pairwise fun a b =>
      a.names.map FileName.bytes < b.names.map FileName.bytes := by
  have hnodup : ((classFiles files).map Found.names).Nodup := by
    have hperm := (List.mergeSort_perm (files.filter Found.isClassFile) Found.notAfter).map
      Found.names
    exact hperm.nodup_iff.2 (h.sublist (List.filter_sublist.map Found.names))
  have hsorted : (classFiles files).Pairwise fun a b => a.notAfter b = true := by
    apply List.pairwise_mergeSort
    · intro a b c hab hbc
      simp only [Found.notAfter, Bool.not_eq_true', decide_eq_false_iff_not, List.not_lt]
        at hab hbc ⊢
      exact List.le_trans hab hbc
    · intro a b
      simp only [Found.notAfter, Bool.or_eq_true, Bool.not_eq_true', decide_eq_false_iff_not,
        List.not_lt]
      exact List.le_total _ _
  refine hsorted.imp₂ ?_ (List.pairwise_map.1 hnodup)
  intro a b hab hne
  simp only [Found.notAfter, Bool.not_eq_true', decide_eq_false_iff_not] at hab
  by_contra hlt
  exact hne (FileName.bytes_injective.list_map
    (List.le_antisymm (List.not_lt.1 hab) (List.not_lt.1 hlt)))

theorem classFiles_eq {others : List Found} (h : (files.map Found.names).Nodup)
    (h' : (others.map Found.names).Nodup) (hmem : ∀ file, file ∈ files ↔ file ∈ others) :
    classFiles files = classFiles others := by
  have : Std.Irrefl fun a b : Found =>
      a.names.map FileName.bytes < b.names.map FileName.bytes := ⟨fun a => List.lt_irrefl _⟩
  have : Std.Antisymm fun a b : Found =>
      a.names.map FileName.bytes < b.names.map FileName.bytes :=
    ⟨fun a b hab hba => absurd hba (List.lt_asymm hab)⟩
  refine (pairwise_classFiles h).eq_of_mem_iff (pairwise_classFiles h') ?_
  intro file
  rw [mem_classFiles, mem_classFiles, hmem]

end ClassFiles

/-- An error with which a scan can stop, if it comes to the place of it before all others. -/
inductive Stops : String → FileTree → Error → Prop
  | closed (path : String) (problem : AccessError) :
      Stops path (.closed problem) (.unlistable path problem)
  | hidden (path : String) (problem : AccessError) :
      Stops path (.hidden problem) (.unknownEntry problem)
  | under {path : String} {entries : List (FileName × FileTree)} {name : FileName} {tree : FileTree}
      {error : Error} (h : (name, tree) ∈ entries)
      (hbelow : Stops (Path.below path name.shown) tree error) :
      Stops path (.directory entries) error

section Stops

theorem stops_of_scan (h : scan path tree = .error error) : Stops path tree error := by
  induction tree generalizing path with
  | file => cases h
  | closed problem =>
      obtain rfl := Except.error.inj h
      exact .closed path problem
  | hidden problem =>
      obtain rfl := Except.error.inj h
      exact .hidden path problem
  | directory entries ih =>
      obtain ⟨entry, hmem, hentry⟩ := exists_of_scanEntries_eq_error h
      exact .under hmem (ih entry hmem (scanEntry_eq_error.1 hentry))

theorem Stops.not_succeeds (h : Stops path tree error) : ¬Succeeds (scan path tree) := by
  induction h with
  | closed | hidden => rintro ⟨files, ⟨⟩⟩
  | under hmem _ ih =>
      rintro ⟨files, hscan⟩
      obtain ⟨found, hfound⟩ := succeeds_scanEntry hscan hmem
      obtain ⟨below, hbelow, -⟩ := scanEntry_eq_ok.1 hfound
      exact ih ⟨below, hbelow⟩

/-- Every such error comes first in some order, also where paths become too long. -/
theorem Stops.exists_reordered {length : Nat} (h : Stops path (tree.limit length) error)
    (hw : tree.WellFormed) :
    ∃ tree', tree.Reordered tree' ∧ scan path (tree'.limit length) = .error error := by
  induction tree generalizing path length with
  | file => cases h
  | closed | hidden =>
      cases h
      exact ⟨_, .same _, rfl⟩
  | directory entries ih =>
      by_cases hlong : FileTree.maxPathLength < length
      · rw [FileTree.limit, if_pos hlong] at h
        cases h
        refine ⟨_, .same _, ?_⟩
        rw [FileTree.limit, if_pos hlong]
        rfl
      · rw [FileTree.limit, if_neg hlong] at h
        cases h with
        | under hentry hbelow =>
            obtain ⟨tree, hmem, rfl⟩ := FileTree.mem_limitEntries.1 hentry
            obtain ⟨tree', hreordered, hscan⟩ := ih (_, tree) hmem hbelow (hw.of_mem hmem)
            obtain ⟨before, after, rfl⟩ := List.append_of_mem hmem
            refine ⟨_, .cons hw hreordered, ?_⟩
            rw [FileTree.limit, if_neg hlong, FileTree.limitEntries]
            exact scanEntries_cons_eq_error.2 (.inl (scanEntry_eq_error.2 hscan))

theorem Stops.reordered (h : Stops path tree error) (hreordered : tree.Reordered tree') :
    Stops path tree' error := by
  induction h generalizing tree' with
  | closed path problem =>
      cases hreordered
      exact .closed path problem
  | hidden path problem =>
      cases hreordered
      exact .hidden path problem
  | under hmem _ ih =>
      obtain ⟨entries', rfl⟩ := hreordered.exists_entries
      obtain ⟨found, hmem', hfound⟩ := hreordered.exists_of_mem hmem
      exact .under hmem' (ih hfound)

end Stops

section Collect

variable {disk : Disk} {paths before after : List String} {sources : Sources}

theorem addPath_of_error (h : select disk path = .error error) :
    addPath disk sources path = .error error := by
  rw [addPath, h]
  rfl

theorem addPath_of_ok {files : List Selected} (h : select disk path = .ok files) :
    addPath disk sources path = files.foldlM add sources := by
  rw [addPath, h]
  rfl

theorem collect_concat (paths : List String) (path : String) :
    collect disk (paths ++ [path]) = collect disk paths >>= (addPath disk · path) := by
  rw [collect, List.foldlM_append]
  congr 1
  funext sources
  rw [List.foldlM_cons]
  simp

theorem collect_of_error (hbefore : collect disk before = .ok sources)
    (h : addPath disk sources path = .error error) :
    collect disk (before ++ path :: after) = .error error := by
  rw [collect] at hbefore
  rw [collect, List.foldlM_append, hbefore]
  refine bind_eq_error.2 (.inr ⟨sources, rfl, ?_⟩)
  rw [List.foldlM_cons, h]
  rfl

/-- A batch fails at the first path that cannot be added. -/
theorem exists_of_collect_eq_error (h : collect disk paths = .error error) :
    ∃ before path after sources, paths = before ++ path :: after ∧
      collect disk before = .ok sources ∧ addPath disk sources path = .error error := by
  induction paths using List.reverseRecOn with
  | nil => cases h
  | append_singleton paths last ih =>
      rw [collect_concat] at h
      rcases bind_eq_error.1 h with h | ⟨sources, hsources, h⟩
      · obtain ⟨before, path, after, sources, rfl, hbefore, hpath⟩ := ih h
        exact ⟨before, path, after ++ [last], sources, by simp, hbefore, hpath⟩
      · exact ⟨paths, last, [], sources, rfl, hsources, h⟩

end Collect

end Collection

end ClassListing
