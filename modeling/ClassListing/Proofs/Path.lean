import ClassListing.Path
import Mathlib.Data.List.Basic

namespace ClassListing.Path

theorem slash_not_mem_splitOn {chars piece : List Char} (h : piece ∈ chars.splitOn '/') :
    '/' ∉ piece := by
  induction chars generalizing piece with
  | nil =>
      obtain rfl := List.mem_singleton.1 h
      exact List.not_mem_nil
  | cons c rest ih =>
      rw [List.splitOn_cons_eq_if_modifyHead] at h
      by_cases hc : c = '/'
      · rw [if_pos (beq_iff_eq.2 hc)] at h
        rcases List.mem_cons.1 h with rfl | h
        · exact List.not_mem_nil
        · exact ih h
      · rw [if_neg (mt beq_iff_eq.1 hc)] at h
        cases hrest : rest.splitOn '/' with
        | nil => exact absurd hrest (List.splitOn_ne_nil '/' rest)
        | cons first others =>
            rw [hrest] at h ih
            rcases List.mem_cons.1 h with rfl | h
            · have hfirst := ih List.mem_cons_self
              simpa [eq_comm, hfirst] using hc
            · exact ih (List.mem_cons_of_mem _ h)

theorem slash_not_mem_segments {path segment : String} (h : segment ∈ segments path) :
    '/' ∉ segment.toList := by
  obtain ⟨piece, hpiece, rfl⟩ := List.mem_map.1 h
  rw [String.toList_ofList]
  exact slash_not_mem_splitOn hpiece

theorem segments_join {names : List String} (hne : names ≠ [])
    (h : ∀ name ∈ names, '/' ∉ name.toList) : segments (join names) = names := by
  have hchars : (join names).toList = ['/'].intercalate (names.map String.toList) :=
    String.toList_intercalate
  have hslash : ∀ chars ∈ names.map String.toList, '/' ∉ chars := by
    intro chars hmem
    obtain ⟨name, hname, rfl⟩ := List.mem_map.1 hmem
    exact h name hname
  rw [segments, hchars, List.splitOn_intercalate '/' hslash (by simpa using hne), List.map_map]
  simp [Function.comp_def]

theorem below_right_inj {directory a b : String} :
    below directory a = below directory b ↔ a = b := by
  rw [below, below]
  split
  · exact String.append_right_inj directory
  · exact String.append_right_inj (directory ++ "/")

/-- A path with so many idle steps in front of it. -/
def dotted : Nat → String → String
  | 0, path => path
  | n + 1, path => "./" ++ dotted n path

theorem utf8ByteSize_dotted (n : Nat) (path : String) :
    (dotted n path).utf8ByteSize = 2 * n + path.utf8ByteSize := by
  induction n with
  | zero => simp [dotted]
  | succ n ih =>
      rw [dotted, String.utf8ByteSize_append, ih, Nat.mul_succ]
      have hdot : "./".utf8ByteSize = 2 := rfl
      omega

theorem segments_dot_slash (path : String) : segments ("./" ++ path) = "." :: segments path := by
  have hchars : ("./" ++ path).toList = ['.'] ++ '/' :: path.toList := by simp
  rw [segments, hchars, List.splitOn_append_cons_self_of_not_mem (by simp)]
  rfl

theorem getLast?_dotted {path : String} (h : path ≠ "") (n : Nat) :
    (dotted n path).toList.getLast? = path.toList.getLast? := by
  have hne : path.toList ≠ [] := by simpa using h
  induction n with
  | zero => rfl
  | succ n ih =>
    rw [dotted, String.toList_append, List.getLast?_append, ih]
    cases hlast : path.toList.getLast? with
    | none => exact absurd (List.getLast?_eq_none_iff.1 hlast) hne
    | some last => rfl

def IsName (segment : String) : Prop := isIdle segment = false ∧ segment ≠ ".."

instance (segment : String) : Decidable (IsName segment) := inferInstanceAs (Decidable (_ ∧ _))

theorem isIdle_iff {segment : String} : isIdle segment = true ↔ segment = "" ∨ segment = "." := by
  simp [isIdle]

theorem later?_of_isIdle {segment : String} (h : isIdle segment = true) :
    later? segment = none := by
  rw [later?, if_pos h]

theorem later?_of_isName {name : String} (h : IsName name) : later? name = some (.normal name) := by
  rw [later?, if_neg (Bool.eq_false_iff.1 h.1), if_neg h.2]

theorem filterMap_later?_of_idle {idles : List String} (h : ∀ s ∈ idles, isIdle s = true) :
    idles.filterMap later? = [] :=
  List.filterMap_eq_nil_iff.2 fun s hs => later?_of_isIdle (h s hs)

theorem first?_eq_later? {segment : String} (h : isIdle segment = false) (alone : Bool) :
    first? segment alone = later? segment := by
  have hne : segment ≠ "" ∧ segment ≠ "." := by
    rw [← not_or, ← isIdle_iff, h]
    decide
  rw [first?, if_neg hne.1, if_neg hne.2]

/-- The steps of the segments in front of another one. -/
def stepsBefore : List String → List Component
  | [] => []
  | segment :: others => (first? segment false).toList ++ others.filterMap later?

theorem stepsBefore_of_isName {names : List String} (h : ∀ name ∈ names, IsName name) :
    stepsBefore names = names.map .normal := by
  have hlater {others : List String} (hothers : ∀ name ∈ others, IsName name) :
      others.filterMap later? = others.map .normal := by
    induction others with
    | nil => rfl
    | cons name others ih =>
        obtain ⟨hname, hothers⟩ := List.forall_mem_cons.1 hothers
        rw [List.filterMap_cons_some (later?_of_isName hname), ih hothers, List.map_cons]
  cases names with
  | nil => rfl
  | cons name others =>
      obtain ⟨hname, hothers⟩ := List.forall_mem_cons.1 h
      rw [stepsBefore, first?_eq_later? hname.1, later?_of_isName hname, hlater hothers,
        List.map_cons]
      rfl

theorem components_of_segments {path segment : String} {front idles : List String}
    (h : segments path = front ++ segment :: idles) (hsegment : isIdle segment = false)
    (hidles : ∀ s ∈ idles, isIdle s = true) :
    components path = stepsBefore front ++ (later? segment).toList := by
  rw [components, h]
  cases front with
  | nil =>
      simp only [List.nil_append]
      rw [first?_eq_later? hsegment, filterMap_later?_of_idle hidles, List.append_nil]
      rfl
  | cons first others =>
      have halone : (others ++ segment :: idles).isEmpty = false := by
        cases others <;> rfl
      simp only [List.cons_append, halone]
      rw [List.filterMap_append, List.filterMap_cons, stepsBefore, List.append_assoc,
        filterMap_later?_of_idle hidles]
      cases later? segment <;> rfl

/-- A dot at the end is no step, unless it is all there is. -/
theorem components_of_last_dot {path : String} {front : List String}
    (h : segments path = front ++ ["."]) :
    components path = if front = [] then [.current] else stepsBefore front := by
  rw [components, h]
  cases front with
  | nil => rfl
  | cons first others =>
      have halone : (others ++ ["."]).isEmpty = false := by
        cases others <;> rfl
      have hdot : later? "." = none := later?_of_isIdle rfl
      simp [stepsBefore, halone, hdot]

theorem components_of_idle {path : String} (h : ∀ s ∈ segments path, isIdle s = true)
    (name : String) :
    .normal name ∉ components path := by
  rw [components]
  cases hsegments : segments path with
  | nil => exact List.not_mem_nil
  | cons first others =>
      rw [hsegments] at h
      obtain ⟨hfirst, hothers⟩ := List.forall_mem_cons.1 h
      simp only [filterMap_later?_of_idle hothers, List.append_nil]
      rcases isIdle_iff.1 hfirst with rfl | rfl
      · cases others <;> simp [first?]
      · simp [first?]

theorem fileName?_of_components {path name : String} {steps : List Component}
    (h : components path = steps ++ [.normal name]) : fileName? path = some name := by
  rw [fileName?, h, List.getLast?_concat]

/-- A path cut at its file name. Behind the name there are only segments that lead nowhere. -/
structure Cut (path : String) (front : List String) (name : String) (idles : List String) :
    Prop where
  segments_eq : segments path = front ++ name :: idles
  isName : IsName name
  idle : ∀ s ∈ idles, isIdle s = true

namespace Cut

variable {path name : String} {front idles : List String}

theorem components_eq (h : Cut path front name idles) :
    components path = stepsBefore front ++ [.normal name] := by
  rw [components_of_segments h.segments_eq h.isName.1 h.idle, later?_of_isName h.isName]
  rfl

theorem fileName?_eq (h : Cut path front name idles) : fileName? path = some name :=
  fileName?_of_components h.components_eq

theorem slash_not_mem (h : Cut path front name idles) : ∀ s ∈ front ++ [name], '/' ∉ s.toList := by
  intro s hs
  suffices hmem : s ∈ segments path from slash_not_mem_segments hmem
  rw [h.segments_eq]
  rcases List.mem_append.1 hs with hs | hs
  · exact List.mem_append_left _ hs
  · exact List.mem_append_right _ (List.mem_cons.2 (.inl (List.mem_singleton.1 hs)))

theorem getLast?_ne_iff (h : Cut path front name idles) :
    (segments path).getLast? ≠ some name ↔ idles ≠ [] := by
  rw [h.segments_eq]
  cases hidles : idles.getLast? with
  | none =>
      obtain rfl := List.getLast?_eq_none_iff.1 hidles
      simp
  | some last =>
      have hmem := List.mem_of_getLast? hidles
      have hlast : last ≠ name := by
        rintro rfl
        exact absurd (h.idle last hmem) (Bool.eq_false_iff.1 h.isName.1)
      refine iff_of_true ?_ (List.ne_nil_of_mem hmem)
      rw [List.getLast?_append, List.getLast?_cons, hidles]
      simpa using hlast

end Cut

theorem exists_last_busy (l : List String) :
    (∀ s ∈ l, isIdle s = true) ∨
      ∃ front segment idles, l = front ++ segment :: idles ∧ isIdle segment = false ∧
        ∀ s ∈ idles, isIdle s = true := by
  induction l with
  | nil => exact .inl fun s hs => absurd hs List.not_mem_nil
  | cons first rest ih =>
      rcases ih with hrest | ⟨front, segment, idles, rfl, hsegment, hidles⟩
      · cases hfirst : isIdle first with
        | true => exact .inl (List.forall_mem_cons.2 ⟨hfirst, hrest⟩)
        | false => exact .inr ⟨[], first, rest, rfl, hfirst, hrest⟩
      · exact .inr ⟨first :: front, segment, idles, rfl, hsegment, hidles⟩

theorem exists_cut {path name : String} (h : fileName? path = some name) :
    ∃ front idles, Cut path front name idles := by
  rw [fileName?] at h
  split at h
  next last hlast =>
    obtain rfl := Option.some.inj h
    rcases exists_last_busy (segments path) with hidle |
      ⟨front, segment, idles, hsegments, hbusy, hidles⟩
    · exact absurd (List.mem_of_getLast? hlast) (components_of_idle hidle last)
    · rw [components_of_segments hsegments hbusy hidles, later?,
        if_neg (Bool.eq_false_iff.1 hbusy)] at hlast
      by_cases hparent : segment = ".."
      · simp [hparent] at hlast
      · obtain rfl : segment = last := by simpa [hparent] using hlast
        exact ⟨front, idles, hsegments, ⟨hbusy, hparent⟩, hidles⟩
  next => cases h

theorem cutName_eq {stem extension : String} (hstem : stem ≠ "") (h : '.' ∉ extension.toList) :
    cutName (stem ++ "." ++ extension) = (stem, some extension) := by
  have hreversed : (stem ++ "." ++ extension).toList.reverse =
      extension.toList.reverse ++ '.' :: stem.toList.reverse := by
    simp
  have hdotless : ∀ c ∈ extension.toList.reverse, (c != '.') = true := by
    intro c hc
    rw [List.mem_reverse] at hc
    exact bne_iff_ne.2 fun hdot => h (hdot ▸ hc)
  have htake : (stem ++ "." ++ extension).toList.reverse.takeWhile (· != '.') =
      extension.toList.reverse := by
    rw [hreversed, List.takeWhile_append_of_pos hdotless]
    simp
  have hdrop : (stem ++ "." ++ extension).toList.reverse.dropWhile (· != '.') =
      '.' :: stem.toList.reverse := by
    rw [hreversed, List.dropWhile_append_of_pos hdotless]
    simp
  have hne : stem.toList ≠ [] := by simpa using hstem
  simp only [cutName, htake, hdrop]
  simp [hne]

theorem eq_of_cutName {name extension : String} (h : (cutName name).2 = some extension) :
    name = (cutName name).1 ++ "." ++ extension ∧ (cutName name).1 ≠ "" := by
  have hsplit := List.takeWhile_append_dropWhile (p := (· != '.')) (l := name.toList.reverse)
  simp only [cutName] at h ⊢
  split at h
  · cases h
  next hne =>
    rw [if_neg hne]
    obtain rfl := Option.some.inj h
    cases hdrop : name.toList.reverse.dropWhile (· != '.') with
    | nil => simp [hdrop] at hne
    | cons dot before =>
        have hdot : dot = '.' := by
          have := List.head_dropWhile_not (· != '.') (l := name.toList.reverse) (by simp [hdrop])
          simpa [hdrop] using this
        subst hdot
        rw [hdrop] at hsplit hne
        constructor
        · rw [← String.toList_inj, ← List.reverse_inj]
          refine hsplit.symm.trans ?_
          simp
        · simpa using hne

theorem cutName_class {stem : String} (h : stem ≠ "") :
    cutName (stem ++ ".class") = (stem, some "class") := by
  have hcut : cutName (stem ++ "." ++ "class") = (stem, some "class") := cutName_eq h (by decide)
  rwa [String.append_assoc] at hcut

theorem isClassFile_iff_extension? {path : String} :
    isClassFile path = true ↔ extension? path = some "class" := by
  rw [isClassFile, beq_iff_eq]

theorem isClassFile_iff {path : String} :
    isClassFile path = true ↔ ∃ stem, stem ≠ "" ∧ fileName? path = some (stem ++ ".class") := by
  rw [isClassFile_iff_extension?, extension?, Option.bind_eq_some_iff]
  constructor
  · rintro ⟨name, hname, hext⟩
    obtain ⟨heq, hstem⟩ := eq_of_cutName hext
    rw [String.append_assoc] at heq
    exact ⟨(cutName name).1, hstem, hname.trans (congrArg some heq)⟩
  · rintro ⟨stem, hstem, hname⟩
    exact ⟨_, hname, congrArg Prod.snd (cutName_class hstem)⟩

theorem Cut.withoutExtension_eq {path stem : String} {front idles : List String}
    (h : Cut path front (stem ++ ".class") idles) (hstem : stem ≠ "") :
    withoutExtension path =
      join (front ++ [if stem = "." ∧ idles = [] then ".." else stem]) := by
  have hreversed : (segments path).reverse =
      idles.reverse ++ (stem ++ ".class") :: front.reverse := by
    simp [h.segments_eq]
  have hidles : ∀ s ∈ idles.reverse, isIdle s = true := by
    intro s hs
    exact h.idle s (List.mem_reverse.1 hs)
  have htake : (segments path).reverse.takeWhile isIdle = idles.reverse := by
    rw [hreversed, List.takeWhile_append_of_pos hidles]
    simp [h.isName.1]
  have hdrop : (segments path).reverse.dropWhile isIdle = (stem ++ ".class") :: front.reverse := by
    rw [hreversed, List.dropWhile_append_of_pos hidles]
    simp [h.isName.1]
  simp [withoutExtension, htake, hdrop, h.isName.2, cutName_class hstem]

theorem mapM_name?_eq_some {steps : List Component} {names : List String} :
    steps.mapM Component.name? = some names ↔ steps = names.map .normal := by
  induction steps generalizing names with
  | nil => cases names <;> simp
  | cons step steps ih =>
      rw [List.mapM_cons]
      cases names with
      | nil => cases step <;> simp [Component.name?, Option.bind_eq_some_iff]
      | cons first rest =>
          cases step <;> simp [Component.name?, Option.bind_eq_some_iff, ih, and_comm]

theorem className_eq_ok {path name : String} :
    className path = .ok name ↔
      ∃ names, names ≠ [] ∧ components (withoutExtension path) = names.map .normal ∧
        name = join names := by
  rw [className]
  simp only [← mapM_name?_eq_some]
  cases (components (withoutExtension path)).mapM Component.name? with
  | none => simp
  | some names => cases names <;> simp [eq_comm]

theorem map_normal_injective : Function.Injective (List.map Component.normal) :=
  List.map_injective_iff.2 fun _ _ h => Component.normal.inj h

theorem append_normal_eq_map {steps : List Component} {name : String} {names : List String} :
    steps ++ [.normal name] = names.map .normal ↔
      ∃ front, steps = front.map .normal ∧ names = front ++ [name] := by
  constructor
  · intro h
    obtain ⟨front, last, rfl, hfront, hlast⟩ := List.map_eq_append_iff.1 h.symm
    obtain ⟨name', rfl, hname⟩ := List.map_eq_singleton_iff.1 hlast
    obtain rfl := Component.normal.inj hname
    exact ⟨front, hfront.symm, rfl⟩
  · rintro ⟨front, rfl, rfl⟩
    rw [List.map_append]
    rfl

/-- Without its extension the file name is a dot. It vanishes because the path goes on behind it. -/
def LosesFileName (path : String) : Prop :=
  fileName? path = some "..class" ∧ (segments path).getLast? ≠ some "..class"

instance (path : String) : Decidable (LosesFileName path) := inferInstanceAs (Decidable (_ ∧ _))

namespace Cut

variable {path stem name : String} {front idles : List String}

theorem losesFileName_iff (h : Cut path front (stem ++ ".class") idles) :
    LosesFileName path ↔ stem = "." ∧ idles ≠ [] := by
  have hdot : stem ++ ".class" = "..class" ↔ stem = "." := by
    constructor
    · intro heq
      exact String.append_left_inj ".class" |>.1 heq
    · rintro rfl
      rfl
  rw [LosesFileName, h.fileName?_eq, Option.some.injEq, hdot]
  refine and_congr_right fun hstem => ?_
  rw [← hdot.2 hstem]
  exact h.getLast?_ne_iff

theorem slash_not_mem_stem (h : Cut path front (stem ++ ".class") idles) : '/' ∉ stem.toList := by
  have := h.slash_not_mem (stem ++ ".class") (by simp)
  rw [String.toList_append, List.mem_append, not_or] at this
  exact this.1

theorem segments_join_left {left : String} (h : Cut path front name idles)
    (hleft : '/' ∉ left.toList) :
    segments (join (front ++ [left])) = front ++ [left] := by
  apply segments_join (by simp)
  intro s hs
  rcases List.mem_append.1 hs with hs | hs
  · exact h.slash_not_mem s (List.mem_append_left _ hs)
  · rwa [List.mem_singleton.1 hs]

theorem className_of_kept (h : Cut path front (stem ++ ".class") idles) (hne : stem ≠ "")
    (hdot : stem ≠ ".") (hdots : stem ≠ "..") :
    className path = .ok name ↔
      ∃ names, stepsBefore front = names.map .normal ∧ name = join (names ++ [stem]) := by
  have hstem : IsName stem := by
    refine ⟨?_, hdots⟩
    rw [Bool.eq_false_iff, ne_eq, isIdle_iff]
    exact not_or.2 ⟨hne, hdot⟩
  have hsegments := h.segments_join_left h.slash_not_mem_stem
  have hcut : Cut (join (front ++ [stem])) front stem [] := ⟨hsegments, hstem, by simp⟩
  rw [className_eq_ok, h.withoutExtension_eq hne, if_neg (fun hc => hdot hc.1), hcut.components_eq]
  simp only [append_normal_eq_map]
  constructor
  · rintro ⟨_, -, ⟨names, hsteps, rfl⟩, rfl⟩
    exact ⟨names, hsteps, rfl⟩
  · rintro ⟨names, hsteps, rfl⟩
    exact ⟨names ++ [stem], by simp, ⟨names, hsteps, rfl⟩, rfl⟩

theorem className_of_parent (h : Cut path front (stem ++ ".class") idles) (hne : stem ≠ "")
    (hleft : stem = ".." ∨ stem = "." ∧ idles = []) : className path ≠ .ok name := by
  have hparent : withoutExtension path = join (front ++ [".."]) := by
    rw [h.withoutExtension_eq hne]
    rcases hleft with rfl | hleft
    · rw [if_neg (by simp)]
    · rw [if_pos hleft]
  have hsteps : components (join (front ++ [".."])) = stepsBefore front ++ [.parent] :=
    components_of_segments (h.segments_join_left (by decide)) (by decide) (by simp)
  rw [ne_eq, className_eq_ok, hparent, hsteps]
  rintro ⟨names, -, hmap, -⟩
  have hmem : Component.parent ∈ names.map .normal := hmap ▸ by simp
  simp at hmem

theorem className_of_lost (h : Cut path front ("." ++ ".class") idles) (hidles : idles ≠ []) :
    className path = .ok name ↔
      ∃ names, names ≠ [] ∧ stepsBefore front = names.map .normal ∧ name = join names := by
  have hsteps := components_of_last_dot (h.segments_join_left (by decide : '/' ∉ ".".toList))
  rw [className_eq_ok, h.withoutExtension_eq (by decide), if_neg (fun hc => hidles hc.2), hsteps]
  by_cases hfront : front = []
  · subst hfront
    constructor
    · rintro ⟨names, hne, hmap, -⟩
      obtain ⟨first, rest, rfl⟩ := List.exists_cons_of_ne_nil hne
      simp at hmap
    · rintro ⟨names, hne, hmap, -⟩
      exact absurd (List.map_eq_nil_iff.1 hmap.symm) hne
  · rw [if_neg hfront]

end Cut

theorem className_of_classFile {path name : String} (h : isClassFile path = true) :
    className path = .ok name ↔
      ∃ names stem, stem ≠ "" ∧ components path = (names ++ [stem ++ ".class"]).map .normal ∧
        (stem ≠ "." ∧ stem ≠ ".." ∧ name = join (names ++ [stem]) ∨
          LosesFileName path ∧ names ≠ [] ∧ name = join names) := by
  obtain ⟨stem, hne, hfile⟩ := isClassFile_iff.1 h
  obtain ⟨front, idles, hcut⟩ := exists_cut hfile
  have hsteps (names : List String) (stem' : String) :
      components path = (names ++ [stem' ++ ".class"]).map .normal ↔
        stepsBefore front = names.map .normal ∧ stem = stem' := by
    rw [hcut.components_eq, List.map_append, List.map_singleton]
    simp
  simp only [hsteps, hcut.losesFileName_iff]
  by_cases hparent : stem = ".." ∨ stem = "." ∧ idles = []
  · refine iff_of_false (hcut.className_of_parent hne hparent) ?_
    rintro ⟨names, _, -, ⟨-, rfl⟩, ⟨hdot, hdots, -⟩ | ⟨⟨rfl, hidles⟩, -⟩⟩
    · rcases hparent with hparent | hparent
      · exact hdots hparent
      · exact hdot hparent.1
    · rcases hparent with hparent | hparent
      · exact absurd hparent (by decide)
      · exact hidles hparent.2
  · obtain ⟨hdots, hdot⟩ := not_or.1 hparent
    by_cases hlost : stem = "."
    · subst hlost
      have hidles : idles ≠ [] := fun hidles => hdot ⟨rfl, hidles⟩
      rw [hcut.className_of_lost hidles]
      constructor
      · rintro ⟨names, hnames, hbefore, rfl⟩
        exact ⟨names, ".", hne, ⟨hbefore, rfl⟩, .inr ⟨⟨rfl, hidles⟩, hnames, rfl⟩⟩
      · rintro ⟨names, _, -, ⟨hbefore, rfl⟩, ⟨hdot, -⟩ | ⟨-, hnames, rfl⟩⟩
        · exact absurd rfl hdot
        · exact ⟨names, hnames, hbefore, rfl⟩
    · rw [hcut.className_of_kept hne hlost hdots]
      constructor
      · rintro ⟨names, hbefore, rfl⟩
        exact ⟨names, stem, hne, ⟨hbefore, rfl⟩, .inl ⟨hlost, hdots, rfl⟩⟩
      · rintro ⟨names, _, -, ⟨hbefore, rfl⟩, ⟨-, -, rfl⟩ | ⟨⟨hdot, -⟩, -⟩⟩
        · exact ⟨names, hbefore, rfl⟩
        · exact absurd hdot hlost

theorem eq_of_later? {segment name : String} (h : later? segment = some (.normal name)) :
    segment = name := by
  rw [later?] at h
  split_ifs at h with hidle hparent
  · cases h
  · exact Component.normal.inj (Option.some.inj h)

theorem eq_of_first? {segment name : String} {alone : Bool}
    (h : first? segment alone = some (.normal name)) : segment = name := by
  rw [first?] at h
  split_ifs at h with hempty halone hdot
  · cases h
  · cases h
  · exact eq_of_later? h

theorem slash_not_mem_of_normal {path name : String} (h : .normal name ∈ components path) :
    '/' ∉ name.toList := by
  suffices hmem : name ∈ segments path from slash_not_mem_segments hmem
  rw [components] at h
  split at h
  next => exact absurd h List.not_mem_nil
  next segment others hsegments =>
    rw [hsegments]
    rcases List.mem_append.1 h with h | h
    · exact List.mem_cons.2 (.inl (eq_of_first? (Option.mem_toList.1 h)).symm)
    · obtain ⟨other, hother, hstep⟩ := List.mem_filterMap.1 h
      exact List.mem_cons_of_mem _ (eq_of_later? hstep ▸ hother)

theorem slash_not_mem_of_components {path : String} {names : List String}
    (h : components path = names.map .normal) : ∀ name ∈ names, '/' ∉ name.toList := by
  intro name hname
  suffices hmem : .normal name ∈ components path from slash_not_mem_of_normal hmem
  rw [h]
  exact List.mem_map_of_mem hname

theorem join_concat {names : List String} (h : names ≠ []) (name : String) :
    join (names ++ [name]) = join names ++ "/" ++ name := by
  rw [join, String.intercalate_append_of_ne_nil h (by simp), String.intercalate_singleton]
  rfl

theorem join_concat_append (names : List String) (a b : String) :
    join (names ++ [a ++ b]) = join (names ++ [a]) ++ b := by
  by_cases h : names = []
  · simp [h, join]
  · rw [join_concat h, join_concat h, String.append_assoc, String.append_assoc, String.append_assoc]

section Derived

variable {path : String} {names : List String} {stem : String}

theorem fileClassName_of_components (hne : stem ≠ "")
    (h : components path = (names ++ [stem ++ ".class"]).map .normal) :
    fileClassName path = .ok stem := by
  rw [List.map_append] at h
  rw [fileClassName, stem?, fileName?_of_components h, Option.map_some, cutName_class hne]

theorem segments_of_components (h : components path = (names ++ [stem ++ ".class"]).map .normal) :
    segments (join (names ++ [stem])) = names ++ [stem] ∧
      (names ≠ [] → segments (join names) = names) := by
  have hslash := slash_not_mem_of_components h
  have hnames : ∀ name ∈ names, '/' ∉ name.toList := by
    intro name hname
    exact hslash name (List.mem_append_left _ hname)
  have hstem : '/' ∉ stem.toList := by
    have := hslash (stem ++ ".class") (by simp)
    rw [String.toList_append, List.mem_append, not_or] at this
    exact this.1
  refine ⟨segments_join (by simp) ?_, fun hne => segments_join hne hnames⟩
  intro name hname
  rcases List.mem_append.1 hname with hname | hname
  · exact hnames name hname
  · rwa [List.mem_singleton.1 hname]

theorem stem_of_losesFileName (h : components path = (names ++ [stem ++ ".class"]).map .normal)
    (hlost : LosesFileName path) : stem = "." := by
  rw [List.map_append] at h
  have heq := Option.some.inj ((fileName?_of_components h).symm.trans hlost.1)
  exact (String.append_left_inj ".class").1 heq

end Derived

section Join

variable {names : List String} (hne : names ≠ [])
  (h : ∀ name ∈ names, IsName name ∧ '/' ∉ name.toList)

include hne h

theorem components_join : components (join names) = names.map .normal := by
  have hsegments := segments_join hne fun name hname => (h name hname).2
  obtain ⟨front, name, rfl⟩ := names.eq_nil_or_concat'.resolve_left hne
  have hname := (h name (by simp)).1
  have hcut : Cut (join (front ++ [name])) front name [] := ⟨hsegments, hname, by simp⟩
  have hfront : stepsBefore front = front.map .normal := by
    apply stepsBefore_of_isName
    intro s hs
    exact (h s (List.mem_append_left _ hs)).1
  rw [hcut.components_eq, hfront, List.map_append]
  rfl

theorem fileName?_join : fileName? (join names) = names.getLast? := by
  have hsteps := components_join hne h
  obtain ⟨front, name, rfl⟩ := names.eq_nil_or_concat'.resolve_left hne
  rw [List.map_append] at hsteps
  rw [fileName?_of_components hsteps, List.getLast?_concat]

theorem not_losesFileName_join : ¬LosesFileName (join names) := by
  rintro ⟨hfile, hlast⟩
  rw [segments_join hne fun name hname => (h name hname).2, ← fileName?_join hne h] at hlast
  exact hlast hfile

theorem className_join (hclass : isClassFile (join names) = true) {name : String} :
    className (join names) = .ok name ↔
      ∃ front stem, names = front ++ [stem ++ ".class"] ∧ stem ≠ "." ∧ stem ≠ ".." ∧
        name = join (front ++ [stem]) := by
  rw [className_of_classFile hclass, components_join hne h]
  constructor
  · rintro ⟨front, stem, -, hsteps, ⟨hdot, hdots, rfl⟩ | ⟨hlost, -⟩⟩
    · exact ⟨front, stem, map_normal_injective hsteps, hdot, hdots, rfl⟩
    · exact absurd hlost (not_losesFileName_join hne h)
  · rintro ⟨front, stem, rfl, hdot, hdots, rfl⟩
    refine ⟨front, stem, ?_, rfl, .inl ⟨hdot, hdots, rfl⟩⟩
    -- an extension stands behind a stem
    rintro rfl
    obtain ⟨stem, hstem, hfile⟩ := isClassFile_iff.1 hclass
    rw [fileName?_join hne h, List.getLast?_concat] at hfile
    exact hstem ((String.append_left_inj ".class").1 (Option.some.inj hfile)).symm

end Join

section Spelling

variable {path name : String} (hclass : isClassFile path = true) (hname : className path = .ok name)

include hclass hname

theorem spelled_iff :
    ¬LosesFileName path ↔
      ∃ names, components path = names.map .normal ∧ join names = name ++ ".class" ∧
        ∃ last, (segments name).getLast? = some last ∧ fileClassName path = .ok last := by
  obtain ⟨names, stem, hne, hsteps, hleft⟩ := (className_of_classFile hclass).1 hname
  have hstem := stem_of_losesFileName hsteps
  rcases hleft with ⟨hdot, -, rfl⟩ | ⟨hlost, hnames, rfl⟩
  · refine iff_of_true (mt hstem hdot) ?_
    refine ⟨_, hsteps, join_concat_append names stem ".class", stem, ?_,
      fileClassName_of_components hne hsteps⟩
    rw [(segments_of_components hsteps).1, List.getLast?_concat]
  · refine iff_of_false (fun h => h hlost) ?_
    rintro ⟨names', hsteps', hjoin, -⟩
    obtain rfl := map_normal_injective (hsteps.symm.trans hsteps')
    rw [hstem hlost, join_concat hnames, String.append_assoc, String.append_right_inj] at hjoin
    exact absurd hjoin (by decide)

theorem exists_of_losesFileName (hlost : LosesFileName path) :
    ∃ names, names ≠ [] ∧ name = join names ∧
      components path = (names ++ ["..class"]).map .normal ∧ fileClassName path = .ok "." := by
  obtain ⟨names, stem, hne, hsteps, hleft⟩ := (className_of_classFile hclass).1 hname
  have hfile := fileClassName_of_components hne hsteps
  obtain rfl := stem_of_losesFileName hsteps hlost
  rcases hleft with ⟨hdot, -⟩ | ⟨-, hnames, rfl⟩
  · exact absurd rfl hdot
  · exact ⟨names, hnames, rfl, hsteps, hfile⟩

theorem losesFileName_iff_fileName? : LosesFileName path ↔ fileName? path = some "..class" := by
  refine ⟨And.left, fun hfile => ?_⟩
  obtain ⟨names, stem, -, hsteps, hleft⟩ := (className_of_classFile hclass).1 hname
  rcases hleft with ⟨hdot, -⟩ | ⟨hlost, -⟩
  · rw [List.map_append] at hsteps
    rw [fileName?_of_components hsteps, Option.some.injEq] at hfile
    exact absurd ((String.append_left_inj ".class").1 hfile) hdot
  · exact hlost

/-- The steps of a path by its name: cut in parts, the name gives all of them or all but the last. -/
theorem components_of_className :
    components path =
      if LosesFileName path then (segments name ++ ["..class"]).map .normal
      else (segments (name ++ ".class")).map .normal := by
  obtain ⟨names, stem, -, hsteps, hleft⟩ := (className_of_classFile hclass).1 hname
  have hstem := stem_of_losesFileName hsteps
  rcases hleft with ⟨hdot, -, rfl⟩ | ⟨hlost, hnames, rfl⟩
  · rw [if_neg (mt hstem hdot), hsteps, ← join_concat_append, segments_join (by simp)]
    exact slash_not_mem_of_components hsteps
  · rw [if_pos hlost, hsteps, hstem hlost, (segments_of_components hsteps).2 hnames]
    rfl

theorem components_eq_iff {other : String} (hclass' : isClassFile other = true)
    (hname' : className other = .ok name) :
    components path = components other ↔ (LosesFileName path ↔ LosesFileName other) := by
  constructor
  · intro h
    rw [losesFileName_iff_fileName? hclass hname, losesFileName_iff_fileName? hclass' hname',
      fileName?, h, fileName?]
  · intro h
    rw [components_of_className hclass hname, components_of_className hclass' hname']
    simp only [h]

end Spelling

/-- A class file is named by its path without the extension, and by its file alone by the last part
of that name, unless the path loses its file name. Two paths with one name have the same steps,
unless just one of them loses its file name. -/
theorem className_spells_path_iff {path name : String} (hclass : isClassFile path = true)
    (hname : className path = .ok name) :
    (¬LosesFileName path ↔
        ∃ names, components path = names.map .normal ∧ join names = name ++ ".class" ∧
          ∃ last, (segments name).getLast? = some last ∧ fileClassName path = .ok last) ∧
      (LosesFileName path → ∃ names, names ≠ [] ∧ name = join names ∧
        components path = (names ++ ["..class"]).map .normal ∧ fileClassName path = .ok ".") ∧
      ∀ other, isClassFile other = true → className other = .ok name →
        (components path = components other ↔ (LosesFileName path ↔ LosesFileName other)) := by
  refine ⟨spelled_iff hclass hname, exists_of_losesFileName hclass hname, ?_⟩
  intro other hclass' hname'
  exact components_eq_iff hclass hname hclass' hname'

theorem className_spells_path_iff_sample :
    className "a//B.class/." = .ok "a/B" ∧ ¬LosesFileName "a//B.class/." ∧
      (∃ names, components "a//B.class/." = names.map .normal ∧ join names = "a/B" ++ ".class" ∧
        ∃ last, (segments "a/B").getLast? = some last ∧ fileClassName "a//B.class/." = .ok last) ∧
      className "a/..class/" = .ok "a" ∧ className "a.class" = .ok "a" ∧
      components "a/..class/" ≠ components "a.class" := by
  have hkept : ¬LosesFileName "a//B.class/." := by decide
  have hname : className "a//B.class/." = .ok "a/B" := rfl
  have hlost : className "a/..class/" = .ok "a" := rfl
  have hother : className "a.class" = .ok "a" := rfl
  obtain ⟨hspells, -⟩ := className_spells_path_iff (by decide) hname
  obtain ⟨-, -, hsame⟩ := className_spells_path_iff (by decide) hlost
  refine ⟨hname, hkept, hspells.1 hkept, hlost, hother, ?_⟩
  rw [ne_eq, hsame "a.class" (by decide) hother]
  decide

end ClassListing.Path
