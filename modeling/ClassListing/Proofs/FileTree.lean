import ClassListing.FileTree
import ClassListing.Proofs.NameMap
import ClassListing.Proofs.Path

namespace ClassListing

/-- A name by which a path can lead on. -/
def FileName.IsProper : FileName → Prop
  | text name => Path.IsName name ∧ '/' ∉ name.toList
  | raw bytes _ => 0x2F ∉ bytes

instance (name : FileName) : Decidable name.IsProper :=
  match name with
  | .text name => inferInstanceAs (Decidable (Path.IsName name ∧ '/' ∉ name.toList))
  | .raw bytes _ => inferInstanceAs (Decidable (0x2F ∉ bytes))

namespace FileTree

@[elab_as_elim, induction_eliminator]
theorem induction {motive : FileTree → Prop} (file : ∀ content, motive (.file content))
    (directory : ∀ entries, (∀ entry ∈ entries, motive entry.2) → motive (.directory entries))
    (closed : ∀ problem, motive (.closed problem)) (hidden : ∀ problem, motive (.hidden problem))
    (tree : FileTree) : motive tree :=
  @FileTree.rec motive (fun entries => ∀ entry ∈ entries, motive entry.2)
    (fun entry => motive entry.2) file directory closed hidden nofun
    (fun _ _ hfirst hrest => List.forall_mem_cons.2 ⟨hfirst, hrest⟩) (fun _ _ h => h) tree

/-- In a directory each name stands once, and a path can lead through it. -/
inductive WellFormed : FileTree → Prop
  | file (content : Except AccessError Bytes) : WellFormed (.file content)
  | closed (problem : AccessError) : WellFormed (.closed problem)
  | hidden (problem : AccessError) : WellFormed (.hidden problem)
  | directory {entries : List (FileName × FileTree)} (hnodup : (entries.map (·.1)).Nodup)
      (hnames : ∀ entry ∈ entries, entry.1.IsProper)
      (hbelow : ∀ entry ∈ entries, WellFormed entry.2) : WellFormed (.directory entries)

/-- The names lead from the top down to a file with this content. -/
inductive Leads : FileTree → List FileName → Except AccessError Bytes → Prop
  | here (content : Except AccessError Bytes) : Leads (.file content) [] content
  | under {entries : List (FileName × FileTree)} {name : FileName} {tree : FileTree}
      {names : List FileName} {content : Except AccessError Bytes} (h : (name, tree) ∈ entries)
      (hbelow : Leads tree names content) : Leads (.directory entries) (name :: names) content

/-- The same names in another order, and below each of them the same up to the order. -/
inductive Reordered : FileTree → FileTree → Prop
  | same (tree : FileTree) : Reordered tree tree
  | directory {entries entries' : List (FileName × FileTree)}
      (hnames : (entries.map (·.1)).Perm (entries'.map (·.1)))
      (hbelow : ∀ name tree tree', (name, tree) ∈ entries → (name, tree') ∈ entries' →
        Reordered tree tree') : Reordered (.directory entries) (.directory entries')

section WellFormed

variable {tree tree' : FileTree} {entries : List (FileName × FileTree)} {name : FileName}
  {names : List FileName} {content : Except AccessError Bytes}

theorem WellFormed.nodup (h : WellFormed (.directory entries)) : (entries.map (·.1)).Nodup := by
  cases h with
  | directory hnodup => exact hnodup

theorem WellFormed.of_mem (h : WellFormed (.directory entries)) (hmem : (name, tree) ∈ entries) :
    tree.WellFormed := by
  cases h with
  | directory _ _ hbelow => exact hbelow (name, tree) hmem

theorem WellFormed.isProper_of_mem (h : WellFormed (.directory entries))
    (hmem : (name, tree) ∈ entries) : name.IsProper := by
  cases h with
  | directory _ hnames => exact hnames (name, tree) hmem

theorem WellFormed.eq_of_mem (h : WellFormed (.directory entries)) (hmem : (name, tree) ∈ entries)
    (hmem' : (name, tree') ∈ entries) : tree = tree' := by
  have hlookup := (NameMap.lookup_of_nodup h.nodup).2 hmem
  rw [(NameMap.lookup_of_nodup h.nodup).2 hmem'] at hlookup
  exact (Option.some.inj hlookup).symm

theorem WellFormed.isProper_of_leads (hw : tree.WellFormed) (h : Leads tree names content) :
    ∀ name ∈ names, name.IsProper := by
  induction h with
  | here => exact fun name hname => absurd hname List.not_mem_nil
  | under hmem _ ih =>
      exact List.forall_mem_cons.2 ⟨hw.isProper_of_mem hmem, ih (hw.of_mem hmem)⟩

end WellFormed

section Reordered

variable {tree tree' : FileTree} {entries entries' : List (FileName × FileTree)} {name : FileName}
  {names : List FileName} {content : Except AccessError Bytes}

theorem Reordered.symm (h : tree.Reordered tree') : tree'.Reordered tree := by
  induction h with
  | same tree => exact .same tree
  | directory hnames _ ih =>
      refine .directory hnames.symm ?_
      intro name tree tree' hmem hmem'
      exact ih name tree' tree hmem' hmem

theorem Reordered.exists_of_mem (h : Reordered (.directory entries) (.directory entries'))
    (hmem : (name, tree) ∈ entries) : ∃ tree', (name, tree') ∈ entries' ∧ tree.Reordered tree' := by
  cases h with
  | same => exact ⟨tree, hmem, .same tree⟩
  | directory hnames hbelow =>
      obtain ⟨⟨_, tree'⟩, hmem', rfl⟩ :=
        List.mem_map.1 (hnames.mem_iff.1 (List.mem_map_of_mem hmem))
      exact ⟨tree', hmem', hbelow _ tree tree' hmem hmem'⟩

theorem Reordered.exists_entries (h : Reordered (.directory entries) tree') :
    ∃ entries', tree' = .directory entries' := by
  cases h with
  | same => exact ⟨entries, rfl⟩
  | directory => exact ⟨_, rfl⟩

theorem Reordered.leads (h : tree.Reordered tree') (hleads : Leads tree names content) :
    Leads tree' names content := by
  induction hleads generalizing tree' with
  | here content =>
      cases h with
      | same => exact .here content
  | under hmem _ ih =>
      obtain ⟨entries', rfl⟩ := h.exists_entries
      obtain ⟨found, hmem', hfound⟩ := h.exists_of_mem hmem
      exact .under hmem' (ih hfound)

theorem Reordered.leads_iff (h : tree.Reordered tree') :
    Leads tree names content ↔ Leads tree' names content :=
  ⟨h.leads, h.symm.leads⟩

theorem Reordered.wellFormed (h : tree.Reordered tree') (hw : tree.WellFormed) :
    tree'.WellFormed := by
  induction h with
  | same => exact hw
  | @directory entries entries' hnames hbelow ih =>
      have hback : Reordered (.directory entries') (.directory entries) :=
        Reordered.symm (.directory hnames hbelow)
      refine .directory (hnames.nodup_iff.1 hw.nodup) ?_ ?_
      · intro entry hmem'
        obtain ⟨tree, hmem, -⟩ := hback.exists_of_mem hmem'
        exact hw.isProper_of_mem hmem
      · intro entry hmem'
        obtain ⟨tree, hmem, -⟩ := hback.exists_of_mem hmem'
        exact ih entry.1 tree entry.2 hmem hmem' (hw.of_mem hmem)

theorem Reordered.lookup (h : Reordered (.directory entries) (.directory entries'))
    (hw : WellFormed (.directory entries)) (name : FileName) :
    entries.lookup name = none ∧ entries'.lookup name = none ∨
      ∃ tree tree', entries.lookup name = some tree ∧ entries'.lookup name = some tree' ∧
        tree.WellFormed ∧ tree.Reordered tree' := by
  have hnodup := hw.nodup
  have hnodup' := (h.wellFormed hw).nodup
  cases hfound : entries.lookup name with
  | none =>
      refine .inl ⟨rfl, Option.eq_none_iff_forall_ne_some.2 fun tree' hfound' => ?_⟩
      obtain ⟨tree, hmem, -⟩ := h.symm.exists_of_mem ((NameMap.lookup_of_nodup hnodup').1 hfound')
      rw [(NameMap.lookup_of_nodup hnodup).2 hmem] at hfound
      cases hfound
  | some tree =>
      have hmem := (NameMap.lookup_of_nodup hnodup).1 hfound
      obtain ⟨tree', hmem', hreordered⟩ := h.exists_of_mem hmem
      exact .inr ⟨tree, tree', rfl, (NameMap.lookup_of_nodup hnodup').2 hmem', hw.of_mem hmem,
        hreordered⟩

/-- An entry can be listed before all others, and what is below it in any order. -/
theorem Reordered.cons {before after : List (FileName × FileTree)}
    (hw : WellFormed (.directory (before ++ (name, tree) :: after))) (h : tree.Reordered tree') :
    Reordered (.directory (before ++ (name, tree) :: after))
      (.directory ((name, tree') :: (before ++ after))) := by
  have hnodup := hw.nodup
  rw [List.map_append, List.map_cons, List.nodup_middle, List.nodup_cons] at hnodup
  have hother {other : FileName} {found : FileTree} (hmem : (other, found) ∈ before ++ after) :
      (other, found) ∈ before ++ (name, tree) :: after ∧ other ≠ name := by
    refine ⟨?_, ?_⟩
    · rcases List.mem_append.1 hmem with hmem | hmem
      · exact List.mem_append_left _ hmem
      · exact List.mem_append_right _ (List.mem_cons_of_mem _ hmem)
    · intro heq
      apply hnodup.1
      rw [← List.map_append, ← heq]
      exact List.mem_map.2 ⟨_, hmem, rfl⟩
  refine .directory ?_ ?_
  · rw [List.map_append, List.map_cons, List.map_cons, List.map_append]
    exact List.perm_middle
  · intro other found found' hmem hmem'
    rcases List.mem_cons.1 hmem' with heq | hmem'
    · cases heq
      rwa [hw.eq_of_mem hmem (List.mem_append_right _ List.mem_cons_self)]
    · rw [hw.eq_of_mem hmem (hother hmem').1]
      exact .same found'

end Reordered

section Limit

variable {tree tree' : FileTree}

theorem limitEntries_eq_map (length : Nat) (entries : List (FileName × FileTree)) :
    limitEntries length entries =
      entries.map fun entry => (entry.1, entry.2.limit (length + 1 + entry.1.bytes.length)) := by
  induction entries with
  | nil => rfl
  | cons entry rest ih => rw [limitEntries, ih, List.map_cons]

theorem mem_limitEntries {length : Nat} {entries : List (FileName × FileTree)} {name : FileName} :
    (name, tree) ∈ limitEntries length entries ↔
      ∃ tree', (name, tree') ∈ entries ∧ tree = tree'.limit (length + 1 + name.bytes.length) := by
  simp [limitEntries_eq_map, eq_comm]

theorem map_fst_limitEntries (length : Nat) (entries : List (FileName × FileTree)) :
    (limitEntries length entries).map (·.1) = entries.map (·.1) := by
  simp [limitEntries_eq_map, Function.comp_def]

theorem WellFormed.limit (hw : tree.WellFormed) (length : Nat) :
    (tree.limit length).WellFormed := by
  induction hw generalizing length with
  | file => exact .file _
  | closed => exact .closed _
  | hidden => exact .hidden _
  | @directory entries hnodup hnames _ ih =>
      rw [FileTree.limit]
      split
      · exact .closed _
      · refine .directory ?_ ?_ ?_
        · rwa [map_fst_limitEntries]
        · intro entry hmem
          obtain ⟨tree, hmem, -⟩ := mem_limitEntries.1 hmem
          exact hnames (entry.1, tree) hmem
        · intro entry hmem
          obtain ⟨tree, hmem, heq⟩ := mem_limitEntries.1 hmem
          rw [heq]
          exact ih _ hmem _

theorem Reordered.limit (h : tree.Reordered tree') (length : Nat) :
    (tree.limit length).Reordered (tree'.limit length) := by
  induction h generalizing length with
  | same => exact .same _
  | directory hnames _ ih =>
      rw [FileTree.limit, FileTree.limit]
      split
      · exact .same _
      · refine .directory ?_ ?_
        · rwa [map_fst_limitEntries, map_fst_limitEntries]
        · intro name tree tree' hmem hmem'
          obtain ⟨below, hbelow, rfl⟩ := mem_limitEntries.1 hmem
          obtain ⟨below', hbelow', rfl⟩ := mem_limitEntries.1 hmem'
          exact ih name below below' hbelow hbelow' _

end Limit

/-- Two ways to follow a path that end alike: in the same error, or at trees that differ only in the
order of their entries. -/
inductive SameEnd : Except AccessError FileTree → Except AccessError FileTree → Prop
  | error (problem : AccessError) : SameEnd (.error problem) (.error problem)
  | found {tree tree' : FileTree} (hw : tree.WellFormed) (h : tree.Reordered tree') :
      SameEnd (.ok tree) (.ok tree')

/-- The directories on the way are kept for the steps back to them, so they have to agree too. -/
theorem sameEnd_walk {passed passed' : List FileTree} {here here' : FileTree}
    (hpassed : List.Forall₂ (fun tree tree' => tree.WellFormed ∧ tree.Reordered tree')
      passed passed')
    (hw : here.WellFormed) (hhere : here.Reordered here') (segments : List String) :
    SameEnd (walk passed here segments) (walk passed' here' segments) := by
  induction segments generalizing passed passed' here here' with
  | nil =>
      cases hhere with
      | same =>
          cases here with
          | hidden problem => exact .error problem
          | _ => exact .found hw (.same _)
      | directory hnames hbelow => exact .found hw (.directory hnames hbelow)
  | cons segment rest ih =>
      cases here with
      | file content =>
          cases hhere
          exact .error .notDirectory
      | closed problem =>
          cases hhere
          exact .error problem
      | hidden problem =>
          cases hhere
          exact .error problem
      | directory entries =>
          obtain ⟨entries', rfl⟩ := hhere.exists_entries
          simp only [walk]
          by_cases hidle : Path.isIdle segment = true
          · rw [if_pos hidle, if_pos hidle]
            exact ih hpassed hw hhere
          · rw [if_neg hidle, if_neg hidle]
            by_cases hparent : segment = ".."
            · rw [if_pos hparent, if_pos hparent]
              cases hpassed with
              | nil => exact ih .nil hw hhere
              | cons habove hothers => exact ih hothers habove.1 habove.2
            · rw [if_neg hparent, if_neg hparent]
              by_cases hlong : maxNameLength < segment.utf8ByteSize
              · rw [if_pos hlong, if_pos hlong]
                exact .error .nameTooLong
              · rw [if_neg hlong, if_neg hlong]
                rcases hhere.lookup hw (.text segment) with ⟨hnone, hnone'⟩ |
                  ⟨tree, tree', hsome, hsome', hnext, hsame⟩
                · rw [hnone, hnone']
                  exact .error .notFound
                · rw [hsome, hsome']
                  exact ih (.cons ⟨hw, hhere⟩ hpassed) hnext hsame

theorem SameEnd.limit {found found' : Except AccessError FileTree} (h : SameEnd found found')
    (length : Nat) :
    SameEnd (found.map (FileTree.limit length)) (found'.map (FileTree.limit length)) := by
  cases h with
  | error problem => exact .error problem
  | found hw h => exact .found (hw.limit length) (h.limit length)

theorem sameEnd_disk {tree tree' : FileTree} (hw : tree.WellFormed) (h : tree.Reordered tree')
    (path : String) : SameEnd (tree.disk path) (tree'.disk path) := by
  rw [disk, disk]
  by_cases hempty : path = ""
  · rw [if_pos hempty, if_pos hempty]
    exact .error .notFound
  · rw [if_neg hempty, if_neg hempty]
    by_cases hlong : maxPathLength < path.utf8ByteSize
    · rw [if_pos hlong, if_pos hlong]
      exact .error .nameTooLong
    · rw [if_neg hlong, if_neg hlong]
      exact (sameEnd_walk .nil hw h (Path.segments path)).limit _

theorem WellFormed.of_disk {tree found : FileTree} (hw : tree.WellFormed) {path : String}
    (h : tree.disk path = .ok found) : found.WellFormed := by
  have hsame := sameEnd_disk hw (.same tree) path
  rw [h] at hsame
  cases hsame with
  | found hfound _ => exact hfound

/-- The steps along a path that leads to a tree. -/
inductive Steps : List FileTree → FileTree → List String → FileTree → Prop
  | arrive {passed : List FileTree} {tree : FileTree} (h : ∀ problem, tree ≠ .hidden problem) :
      Steps passed tree [] tree
  | stay {passed : List FileTree} {entries : List (FileName × FileTree)} {segment : String}
      {rest : List String} {tree : FileTree} (h : Path.isIdle segment = true)
      (hrest : Steps passed (.directory entries) rest tree) :
      Steps passed (.directory entries) (segment :: rest) tree
  | stayAtTop {entries : List (FileName × FileTree)} {rest : List String} {tree : FileTree}
      (hrest : Steps [] (.directory entries) rest tree) :
      Steps [] (.directory entries) (".." :: rest) tree
  | back {above : FileTree} {passed : List FileTree} {entries : List (FileName × FileTree)}
      {rest : List String} {tree : FileTree} (hrest : Steps passed above rest tree) :
      Steps (above :: passed) (.directory entries) (".." :: rest) tree
  | down {passed : List FileTree} {entries : List (FileName × FileTree)} {segment : String}
      {rest : List String} {next tree : FileTree} (hidle : ¬Path.isIdle segment = true)
      (hparent : segment ≠ "..") (hlong : ¬maxNameLength < segment.utf8ByteSize)
      (hnext : entries.lookup (.text segment) = some next)
      (hrest : Steps (.directory entries :: passed) next rest tree) :
      Steps passed (.directory entries) (segment :: rest) tree

section Steps

variable {passed : List FileTree} {here tree : FileTree} {segments : List String}

theorem Steps.walk_eq_ok (h : Steps passed here segments tree) :
    walk passed here segments = .ok tree := by
  have hparent : ¬Path.isIdle ".." = true := by decide
  induction h with
  | @arrive _ tree h =>
      cases tree with
      | hidden problem => exact absurd rfl (h problem)
      | file | closed | directory => rfl
  | stay h _ ih =>
      simp only [walk]
      rwa [if_pos h]
  | stayAtTop _ ih => rwa [walk, if_neg hparent, if_pos rfl]
  | back _ ih => rwa [walk, if_neg hparent, if_pos rfl]
  | down hidle hparent hlong hnext _ ih =>
      simp only [walk]
      rwa [if_neg hidle, if_neg hparent, if_neg hlong, hnext]

theorem steps_of_walk (h : walk passed here segments = .ok tree) :
    Steps passed here segments tree := by
  induction segments generalizing passed here with
  | nil =>
      cases here with
      | hidden problem => cases h
      | file | closed | directory =>
          cases h
          refine .arrive ?_
          rintro problem ⟨⟩
  | cons segment rest ih =>
      cases here with
      | file | closed | hidden => cases h
      | directory entries =>
          simp only [walk] at h
          split at h
          next hidle => exact .stay hidle (ih h)
          next hidle =>
            split at h
            next hparent =>
              subst hparent
              cases passed with
              | nil => exact .stayAtTop (ih h)
              | cons above others => exact .back (ih h)
            next hparent =>
              split at h
              next => cases h
              next hlong =>
                cases hnext : entries.lookup (.text segment) with
                | none =>
                    rw [hnext] at h
                    cases h
                | some next =>
                    rw [hnext] at h
                    exact .down hidle hparent hlong hnext (ih h)

end Steps

/-- Two stacks of directories that lead by the same names down to two trees, the names from the last
one on. What stands at the top differs only in order. -/
inductive Parallel : List FileName → List FileTree → FileTree → List FileTree → FileTree → Prop
  | top {tree tree' : FileTree} (hw : tree.WellFormed) (h : tree.Reordered tree') :
      Parallel [] [] tree [] tree'
  | step {names : List FileName} {passed passed' : List FileTree}
      {entries entries' : List (FileName × FileTree)} {name : FileName} {here here' : FileTree}
      (h : Parallel names passed (.directory entries) passed' (.directory entries'))
      (hmem : (name, here) ∈ entries) (hmem' : (name, here') ∈ entries') :
      Parallel (name :: names) (.directory entries :: passed) here (.directory entries' :: passed')
        here'

section Parallel

variable {names : List FileName} {passed passed' : List FileTree} {here here' tree tree' : FileTree}
  {segments : List String}

theorem Parallel.reordered (h : Parallel names passed here passed' here') :
    here.WellFormed ∧ here.Reordered here' := by
  induction h with
  | top hw h => exact ⟨hw, h⟩
  | step _ hmem hmem' ih =>
      obtain ⟨hw, hreordered⟩ := ih
      obtain ⟨found, hfound, hbelow⟩ := hreordered.exists_of_mem hmem
      rw [(hreordered.wellFormed hw).eq_of_mem hmem' hfound]
      exact ⟨hw.of_mem hmem, hbelow⟩

theorem Parallel.exists_of_reordered (h : Parallel names passed here passed here)
    (hreordered : here.Reordered here') : ∃ passed', Parallel names passed here passed' here' := by
  induction names generalizing passed here here' with
  | nil =>
      cases h with
      | top hw => exact ⟨[], .top hw hreordered⟩
  | cons name names ih =>
      cases h with
      | step habove hmem =>
          obtain ⟨before, after, rfl⟩ := List.append_of_mem hmem
          obtain ⟨passed', hpassed⟩ := ih habove (.cons habove.reordered.1 hreordered)
          exact ⟨_, .step hpassed hmem List.mem_cons_self⟩

/-- What a path leads to can be reordered in place. -/
theorem Steps.exists_parallel (h : Steps passed here segments tree)
    (hstart : Parallel names passed here passed here) (hreordered : tree.Reordered tree') :
    ∃ passed' here', Parallel names passed here passed' here' ∧
      Steps passed' here' segments tree' := by
  induction h generalizing names with
  | arrive hknown =>
      obtain ⟨passed', hpassed⟩ := hstart.exists_of_reordered hreordered
      refine ⟨passed', tree', hpassed, .arrive ?_⟩
      rintro problem rfl
      cases hreordered
      exact hknown problem rfl
  | stay hidle _ ih =>
      obtain ⟨passed', here', hparallel, hsteps⟩ := ih hstart hreordered
      obtain ⟨entries', rfl⟩ := hparallel.reordered.2.exists_entries
      exact ⟨passed', _, hparallel, .stay hidle hsteps⟩
  | stayAtTop _ ih =>
      obtain ⟨passed', here', hparallel, hsteps⟩ := ih hstart hreordered
      obtain ⟨entries', rfl⟩ := hparallel.reordered.2.exists_entries
      cases hparallel with
      | top hw h => exact ⟨[], _, .top hw h, .stayAtTop hsteps⟩
  | back _ ih =>
      cases hstart with
      | step habove hmem _ =>
          obtain ⟨passed', above', hparallel, hsteps⟩ := ih habove hreordered
          obtain ⟨entries', rfl⟩ := hparallel.reordered.2.exists_entries
          obtain ⟨here', hmem', hhere⟩ := hparallel.reordered.2.exists_of_mem hmem
          obtain ⟨below', rfl⟩ := hhere.exists_entries
          exact ⟨_, _, .step hparallel hmem hmem', .back hsteps⟩
  | down hidle hparent hlong hnext _ ih =>
      have hw := hstart.reordered.1
      have hmem := (NameMap.lookup_of_nodup hw.nodup).1 hnext
      obtain ⟨passed', next', hparallel, hsteps⟩ := ih (.step hstart hmem hmem) hreordered
      cases hparallel with
      | step hparallel _ hmem' =>
          have hw' := hparallel.reordered.2.wellFormed hw
          have hnext' := (NameMap.lookup_of_nodup hw'.nodup).2 hmem'
          exact ⟨_, _, hparallel, .down hidle hparent hlong hnext' hsteps⟩

theorem exists_walk_reordered (hw : here.WellFormed) (h : walk [] here segments = .ok tree)
    (hreordered : tree.Reordered tree') :
    ∃ here', here.Reordered here' ∧ walk [] here' segments = .ok tree' := by
  obtain ⟨passed', here', hparallel, hsteps⟩ :=
    (steps_of_walk h).exists_parallel (.top hw (.same here)) hreordered
  cases hparallel with
  | top _ h => exact ⟨here', h, hsteps.walk_eq_ok⟩

end Parallel

theorem disk_eq_ok {tree found : FileTree} {path : String} :
    tree.disk path = .ok found ↔ path ≠ "" ∧ ¬maxPathLength < path.utf8ByteSize ∧
      ∃ here, walk [] tree (Path.segments path) = .ok here ∧
        here.limit ((Path.below path "").utf8ByteSize - 1) = found := by
  rw [disk]
  by_cases hempty : path = ""
  · simp [hempty]
  · by_cases hlong : maxPathLength < path.utf8ByteSize
    · simp [hempty, hlong]
    · rw [if_neg hempty, if_neg hlong]
      cases walk [] tree (Path.segments path) with
      | error problem => simp [Except.map]
      | ok here => simp [Except.map, hempty, hlong]

theorem WellFormed.of_walk {tree here : FileTree} {segments : List String} (hw : tree.WellFormed)
    (h : walk [] tree segments = .ok here) : here.WellFormed := by
  have hsame := sameEnd_walk .nil hw (.same tree) segments
  rw [h] at hsame
  cases hsame with
  | found hw _ => exact hw

theorem walk_dotted (entries : List (FileName × FileTree)) (path : String) (n : Nat) :
    walk [] (.directory entries) (Path.segments (Path.dotted n path)) =
      walk [] (.directory entries) (Path.segments path) := by
  induction n with
  | zero => rfl
  | succ n ih =>
      have hidle : Path.isIdle "." = true := rfl
      rw [Path.dotted, Path.segments_dot_slash, walk, if_pos hidle, ih]

/-- Steps that lead nowhere still count against the length of a path. -/
theorem disk_dotted (entries : List (FileName × FileTree)) {path : String} (h : path ≠ "") (n : Nat)
    (hlength : 2 * n + path.utf8ByteSize ≤ maxPathLength) :
    disk (.directory entries) (Path.dotted n path) =
      (walk [] (.directory entries) (Path.segments path)).map
        (limit (2 * n + (Path.below path "").utf8ByteSize - 1)) := by
  have hsize := Path.utf8ByteSize_dotted n path
  have hne : Path.dotted n path ≠ "" := by
    intro heq
    have hpos : path.utf8ByteSize ≠ 0 := by simpa using h
    rw [heq, String.utf8ByteSize_empty] at hsize
    omega
  have hbelow : (Path.below (Path.dotted n path) "").utf8ByteSize =
      2 * n + (Path.below path "").utf8ByteSize := by
    rw [Path.below, Path.below, Path.getLast?_dotted h]
    split
    · simp [hsize]
    · simp [hsize]
      omega
  rw [disk, if_neg hne, if_neg (by omega), walk_dotted, hbelow]

end FileTree

end ClassListing
