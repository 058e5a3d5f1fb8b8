import ClassListing.Proofs.Collection.Exact

namespace ClassListing.Collection

open Checks
open FileTree (WellFormed Reordered SameEnd)

/-- The text of an error, and behind it that of its cause. -/
def Error.texts (error : Error) : List String := error.message :: error.cause?.toList

/-- What is seen of a batch: all of it, or the texts of the error. -/
def outcome (disk : Disk) (paths : List String) : Except (List String) Sources :=
  (collect disk paths).mapError Error.texts

/-- The first path that cannot be added has two errors to stop with, and their texts differ. -/
inductive Ambiguous (disk : Disk) (paths : List String) : Prop
  | intro {before after : List String} {path : String} {tree : FileTree} {error error' : Error}
      (hpaths : paths = before ++ path :: after) (hbefore : Succeeds (collect disk before))
      (hfound : disk path = .ok tree) (hstops : Stops path tree error)
      (hstops' : Stops path tree error') (hne : error.texts ≠ error'.texts)

section Reordered

variable {disk disk' : Disk} {path : String} {tree tree' : FileTree}

theorem selectTree_reordered (hw : tree.WellFormed) (h : tree.Reordered tree') (path : String) :
    selectTree path tree = selectTree path tree' ∨
      ∃ error error', Stops path tree error ∧ Stops path tree error' ∧
        selectTree path tree = .error error ∧ selectTree path tree' = .error error' := by
  cases tree with
  | file | closed | hidden =>
      cases h
      exact .inl rfl
  | directory entries =>
      obtain ⟨entries', rfl⟩ := h.exists_entries
      rw [selectTree, selectTree]
      cases hscan : scanEntries path entries with
      | error error =>
          have hstops : Stops path (.directory entries) error := stops_of_scan hscan
          cases hscan' : scanEntries path entries' with
          | ok files => exact absurd ⟨files, hscan'⟩ (hstops.reordered h).not_succeeds
          | error error' =>
              have hstops' : Stops path (.directory entries') error' := stops_of_scan hscan'
              exact .inr ⟨error, error', hstops, hstops'.reordered h.symm, rfl, rfl⟩
      | ok files =>
          cases hscan' : scanEntries path entries' with
          | error error =>
              have hstops : Stops path (.directory entries') error := stops_of_scan hscan'
              exact absurd ⟨files, hscan⟩ (hstops.reordered h.symm).not_succeeds
          | ok files' =>
              have hall : scan path (.directory entries) = .ok files := hscan
              have hall' : scan path (.directory entries') = .ok files' := hscan'
              have hmem (file : Found) : file ∈ files ↔ file ∈ files' := by
                rw [mem_scan hall, mem_scan hall', h.leads_iff]
              have hsame : classFiles files = classFiles files' :=
                classFiles_eq (nodup_scan hw hall) (nodup_scan (h.wellFormed hw) hall') hmem
              refine .inl ?_
              simp only [hsame, bind, Except.bind]

theorem addPath_of_sameEnd (h : SameEnd (disk path) (disk' path)) (sources : Sources) :
    addPath disk sources path = addPath disk' sources path ∨
      ∃ tree error error', disk path = .ok tree ∧ Stops path tree error ∧ Stops path tree error' ∧
        addPath disk sources path = .error error ∧ addPath disk' sources path = .error error' := by
  have hselect : select disk path = select disk' path ∨
      ∃ tree error error', disk path = .ok tree ∧ Stops path tree error ∧ Stops path tree error' ∧
        select disk path = .error error ∧ select disk' path = .error error' := by
    rw [select, select]
    generalize disk path = found at h
    generalize disk' path = found' at h
    cases h with
    | error problem => exact .inl rfl
    | @found tree tree' hw h =>
        rcases selectTree_reordered hw h path with heq | ⟨error, error', hstops, hstops', he, he'⟩
        · exact .inl heq
        · exact .inr ⟨tree, error, error', rfl, hstops, hstops', he, he'⟩
  rcases hselect with heq | ⟨tree, error, error', hfound, hstops, hstops', he, he'⟩
  · rw [addPath, addPath, heq]
    exact .inl rfl
  · exact .inr ⟨tree, error, error', hfound, hstops, hstops', addPath_of_error he,
      addPath_of_error he'⟩

theorem collect_of_sameEnd (h : ∀ path, SameEnd (disk path) (disk' path)) {paths : List String}
    {sources : Sources} (hcollect : collect disk paths = .ok sources) :
    collect disk' paths = .ok sources := by
  induction paths using List.reverseRecOn generalizing sources with
  | nil => exact hcollect
  | append_singleton paths last ih =>
      rw [collect_concat] at hcollect ⊢
      obtain ⟨earlier, hearlier, hlast⟩ := bind_eq_ok.1 hcollect
      refine bind_eq_ok.2 ⟨earlier, ih hearlier, ?_⟩
      rcases addPath_of_sameEnd (h last) earlier with heq | ⟨_, _, _, _, _, _, herror, _⟩
      · exact heq.symm.trans hlast
      · cases herror.symm.trans hlast

theorem exists_select_eq_error {entries : List (FileName × FileTree)} {error : Error}
    (hw : tree.WellFormed) (hfound : tree.disk path = .ok (.directory entries))
    (h : Stops path (.directory entries) error) :
    ∃ tree', tree.Reordered tree' ∧ select tree'.disk path = .error error := by
  obtain ⟨hempty, hlong, here, hwalk, hlimit⟩ := FileTree.disk_eq_ok.1 hfound
  rw [← hlimit] at h
  obtain ⟨here', hhere, hscan⟩ := h.exists_reordered (hw.of_walk hwalk)
  obtain ⟨tree', htree, hwalk'⟩ := FileTree.exists_walk_reordered hw hwalk hhere
  have hfound' := FileTree.disk_eq_ok.2 ⟨hempty, hlong, here', hwalk', rfl⟩
  have hsame := hhere.limit ((Path.below path "").utf8ByteSize - 1)
  rw [hlimit] at hsame
  obtain ⟨entries', hentries⟩ := hsame.exists_entries
  rw [hentries] at hfound' hscan
  refine ⟨tree', htree, ?_⟩
  rw [select, hfound']
  exact map_eq_error.2 hscan

/-- Each error that a scan of the first failing path can stop with is reported in some order. -/
theorem exists_collect_eq_error {before after : List String} {entries : List (FileName × FileTree)}
    {error : Error} (hw : tree.WellFormed) (hbefore : Succeeds (collect tree.disk before))
    (hfound : tree.disk path = .ok (.directory entries))
    (h : Stops path (.directory entries) error) :
    ∃ tree', tree.Reordered tree' ∧
      collect tree'.disk (before ++ path :: after) = .error error := by
  obtain ⟨sources, hsources⟩ := hbefore
  obtain ⟨tree', hreordered, hselect⟩ := exists_select_eq_error hw hfound h
  have hsources' := collect_of_sameEnd (FileTree.sameEnd_disk hw hreordered) hsources
  exact ⟨tree', hreordered, collect_of_error hsources' (addPath_of_error hselect)⟩

end Reordered

theorem exists_entries_of_stops {path : String} {tree : FileTree} {error error' : Error}
    (h : Stops path tree error) (h' : Stops path tree error') (hne : error ≠ error') :
    ∃ entries, tree = .directory entries := by
  cases h with
  | closed | hidden =>
      cases h'
      exact absurd rfl hne
  | under => exact ⟨_, rfl⟩

theorem outcome_of_sameEnd {disk disk' : Disk} {paths : List String}
    (hsame : ∀ path, SameEnd (disk path) (disk' path)) (h : ¬Ambiguous disk paths) :
    outcome disk' paths = outcome disk paths := by
  rw [outcome, outcome]
  cases hcollect : collect disk paths with
  | ok sources => rw [collect_of_sameEnd hsame hcollect]
  | error error =>
      obtain ⟨before, path, after, sources, rfl, hbefore, hpath⟩ :=
        exists_of_collect_eq_error hcollect
      have hbefore' := collect_of_sameEnd hsame hbefore
      rcases addPath_of_sameEnd (hsame path) sources with heq |
        ⟨tree, found, error', hfound, hstops, hstops', herror, herror'⟩
      · rw [collect_of_error hbefore' (heq.symm.trans hpath)]
      · obtain rfl := Except.error.inj (herror.symm.trans hpath)
        rw [collect_of_error hbefore' herror']
        refine congrArg Except.error ?_
        by_contra hne
        exact h ⟨rfl, ⟨sources, hbefore⟩, hfound, hstops', hstops, hne⟩

theorem not_ambiguous_of_reordered {tree : FileTree} (hw : tree.WellFormed) {paths : List String}
    (hsame : ∀ tree', tree.Reordered tree' → outcome tree'.disk paths = outcome tree.disk paths) :
    ¬Ambiguous tree.disk paths := by
  rintro ⟨rfl, hbefore, hfound, hstops, hstops', hne⟩
  obtain ⟨entries, rfl⟩ :=
    exists_entries_of_stops hstops hstops' fun heq => hne (congrArg Error.texts heq)
  obtain ⟨tree₁, hreordered₁, hcollect₁⟩ := exists_collect_eq_error hw hbefore hfound hstops
  obtain ⟨tree₂, hreordered₂, hcollect₂⟩ := exists_collect_eq_error hw hbefore hfound hstops'
  have htexts := (hsame tree₁ hreordered₁).trans (hsame tree₂ hreordered₂).symm
  rw [outcome, outcome, hcollect₁, hcollect₂] at htexts
  exact hne (Except.error.inj htexts)

/-- Directories may list their entries in any order, and in another one each time: as long as the
first path that cannot be added leaves no choice between texts, the outcome is the same. Otherwise
it differs between two orders of the tree. -/
theorem collect_reordered_iff (paths : List String) :
    (∀ disk disk' : Disk, (∀ path, SameEnd (disk path) (disk' path)) → ¬Ambiguous disk paths →
        outcome disk' paths = outcome disk paths) ∧
      ∀ tree : FileTree, tree.WellFormed →
        ((∀ tree', tree.Reordered tree' → outcome tree'.disk paths = outcome tree.disk paths) ↔
          ¬Ambiguous tree.disk paths) := by
  refine ⟨fun disk disk' => outcome_of_sameEnd, fun tree hw => ⟨not_ambiguous_of_reordered hw, ?_⟩⟩
  intro h tree' hreordered
  exact outcome_of_sameEnd (FileTree.sameEnd_disk hw hreordered) h

theorem Ambiguous.unlistable {disk : Disk} {paths : List String} (h : Ambiguous disk paths) :
    Unlistable disk paths := by
  obtain ⟨rfl, -, hfound, hstops, -, -⟩ := h
  exact ⟨_, by simp, _, _, hfound, hstops⟩

theorem reordered_swap {a b : FileName} (hne : a ≠ b) {s s' t t' : FileTree}
    (hs : s.Reordered s') (ht : t.Reordered t') :
    Reordered (.directory [(a, s), (b, t)]) (.directory [(b, t'), (a, s')]) := by
  refine .directory (.swap b a []) ?_
  intro name tree tree' hmem hmem'
  simp only [List.mem_cons, List.not_mem_nil, or_false, Prod.mk.injEq] at hmem hmem'
  rcases hmem with ⟨rfl, rfl⟩ | ⟨rfl, rfl⟩
  · obtain ⟨-, rfl⟩ := hmem'.resolve_left fun h => hne h.1
    exact hs
  · obtain ⟨-, rfl⟩ := hmem'.resolve_right fun h => hne h.1.symm
    exact ht

def reversedTree : FileTree :=
  .directory [(.text "Main.class", .file (.ok [3])),
    (.text "X.class",
      .directory [(.text "notes.md", .file (.ok [2])), (.text "Main.class", .file (.ok [1]))])]

theorem reordered_reversedTree : nestedTree.Reordered reversedTree :=
  reordered_swap (by decide) (reordered_swap (by decide) (.same _) (.same _)) (.same _)

/-- Two directories inside another one. By `farPath` that one can be listed, but neither of them. -/
def twoDirectories (first second : String) : FileTree :=
  .directory [(.text "a",
    .directory [(.text first, .directory []), (.text second, .directory [])])]

theorem wellFormed_twoDirectories : (twoDirectories "xxxxxx" "yyyyyy").WellFormed := by
  refine .directory (by decide) (by decide) ?_
  simp only [List.forall_mem_cons]
  refine ⟨.directory (by decide) (by decide) ?_, nofun⟩
  simp only [List.forall_mem_cons]
  exact ⟨.directory .nil nofun nofun, .directory .nil nofun nofun, nofun⟩

theorem reordered_twoDirectories {first second : String} (h : first ≠ second) :
    (twoDirectories first second).Reordered (twoDirectories second first) := by
  refine .directory (.refl _) ?_
  intro name tree tree' hmem hmem'
  cases List.mem_singleton.1 hmem
  cases List.mem_singleton.1 hmem'
  exact reordered_swap (fun heq => h (FileName.text.inj heq)) (.same _) (.same _)

theorem limit_of_long {name : String} (h : 3 < name.utf8ByteSize) :
    (FileTree.directory []).limit (4091 + 1 + (FileName.text name).bytes.length) =
      .closed .nameTooLong := by
  have hbytes : (FileName.text name).bytes.length = name.utf8ByteSize := by
    simp [FileName.bytes]
  rw [FileTree.limit]
  apply if_pos
  rw [hbytes, FileTree.maxPathLength]
  omega

theorem disk_twoDirectories {first second : String} (h : 3 < first.utf8ByteSize)
    (h' : 3 < second.utf8ByteSize) :
    (twoDirectories first second).disk farPath =
      .ok (.directory [(.text first, .closed .nameTooLong),
        (.text second, .closed .nameTooLong)]) := by
  have hlimit : FileTree.limitEntries 4091
      [(.text first, .directory []), (.text second, .directory [])] =
        [(.text first, .closed .nameTooLong), (.text second, .closed .nameTooLong)] := by
    simp only [FileTree.limitEntries, limit_of_long h, limit_of_long h']
  rw [twoDirectories, farPath, FileTree.disk_dotted _ (by decide) 2045 (by decide), ← hlimit]
  rfl

theorem collect_of_closed {disk : Disk} {path name : String} {problem : AccessError}
    {entries : List (FileName × FileTree)}
    (h : disk path = .ok (.directory ((.text name, .closed problem) :: entries))) :
    collect disk [path] = .error (.unlistable (Path.below path name) problem) := by
  have hselect : select disk path = .error (.unlistable (Path.below path name) problem) := by
    rw [select, h]
    rfl
  rw [collect, List.foldlM_cons, addPath_of_error hselect]
  rfl

theorem collect_of_long {first second : String} (h : 3 < first.utf8ByteSize)
    (h' : 3 < second.utf8ByteSize) :
    collect (twoDirectories first second).disk [farPath] =
      .error (.unlistable (Path.below farPath first) .nameTooLong) :=
  collect_of_closed (disk_twoDirectories h h')

theorem unlistable_message_ne {path name name' : String} {problem problem' : AccessError}
    (h : name ≠ name') :
    (Error.unlistable (Path.below path name) problem).message ≠
      (Error.unlistable (Path.below path name') problem').message := by
  intro heq
  have hpaths := (String.append_right_inj "Failed to read directory ").1 heq
  exact h (Path.below_right_inj.1 hpaths)

/-- Of two directories that cannot be listed the one that comes first is reported. -/
theorem collect_twoDirectories :
    (twoDirectories "xxxxxx" "yyyyyy").WellFormed ∧
      (twoDirectories "xxxxxx" "yyyyyy").Reordered (twoDirectories "yyyyyy" "xxxxxx") ∧
      ∃ error error', collect (twoDirectories "xxxxxx" "yyyyyy").disk [farPath] = .error error ∧
        collect (twoDirectories "yyyyyy" "xxxxxx").disk [farPath] = .error error' ∧
        error.message = "Failed to read directory " ++ Path.below farPath "xxxxxx" ∧
        error'.message = "Failed to read directory " ++ Path.below farPath "yyyyyy" ∧
        error.message ≠ error'.message := by
  exact ⟨wellFormed_twoDirectories, reordered_twoDirectories (by decide), _, _,
    collect_of_long (by decide) (by decide), collect_of_long (by decide) (by decide), rfl, rfl,
    unlistable_message_ne (by decide)⟩

theorem collect_reordered_iff_sample :
    nestedTree.WellFormed ∧ nestedTree.Reordered reversedTree ∧
      ¬Ambiguous nestedTree.disk ["X.class", "Main.class"] ∧
      outcome reversedTree.disk ["X.class", "Main.class"] =
        outcome nestedTree.disk ["X.class", "Main.class"] ∧
      (twoDirectories "xxxxxx" "yyyyyy").WellFormed ∧
      Ambiguous (twoDirectories "xxxxxx" "yyyyyy").disk [farPath] := by
  have hlisted : ∀ path ∈ ["X.class", "Main.class"], Succeeds (select nestedTree.disk path) := by
    have hfile : select nestedTree.disk "Main.class" =
        .ok [⟨.ok "Main", "Main.class", .ok [3]⟩] := rfl
    simp [Succeeds, select_nestedTree, hfile]
  have hclear : ¬Ambiguous nestedTree.disk ["X.class", "Main.class"] :=
    fun h => not_unlistable_of_listed hlisted h.unlistable
  have hsame := (collect_reordered_iff ["X.class", "Main.class"]).1 _ _
    (FileTree.sameEnd_disk wellFormed_nestedTree reordered_reversedTree) hclear
  refine ⟨wellFormed_nestedTree, reordered_reversedTree, hclear, hsame,
    wellFormed_twoDirectories, ?_⟩
  by_contra hambiguous
  have htexts := ((collect_reordered_iff [farPath]).2 _ wellFormed_twoDirectories).2 hambiguous _
    (reordered_twoDirectories (by decide))
  rw [outcome, outcome, collect_of_long (by decide) (by decide),
    collect_of_long (by decide) (by decide)] at htexts
  have hmessages := (List.cons.inj (Except.error.inj htexts)).1
  exact unlistable_message_ne (by decide) hmessages

end ClassListing.Collection
