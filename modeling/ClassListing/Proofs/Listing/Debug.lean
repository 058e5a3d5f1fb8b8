import ClassListing.Proofs.Listing.Options

namespace ClassListing

open Checks

namespace Attribute

def isDebug (attr : Attribute) : Bool := isDebugAttribute attr.name

mutual

/-- The attribute without the debugging attributes inside it, at any depth. -/
def stripped : Attribute → Attribute
  | code body inside => code body (strippedAll inside)
  | other => other

def strippedAll : List Attribute → List Attribute
  | [] => []
  | attr :: rest => if attr.isDebug then strippedAll rest else attr.stripped :: strippedAll rest

end

def without (drop : Attribute → Bool) (attributes : List Attribute) : List Attribute :=
  (attributes.filter (!drop ·)).map stripped

theorem without_cons_of_drop {drop : Attribute → Bool} {attr : Attribute} (h : drop attr = true)
    (attributes : List Attribute) : without drop (attr :: attributes) = without drop attributes := by
  simp [without, h]

theorem without_cons_of_keep {drop : Attribute → Bool} {attr : Attribute} (h : drop attr ≠ true)
    (attributes : List Attribute) :
    without drop (attr :: attributes) = attr.stripped :: without drop attributes := by
  simp [without, h]

theorem strippedAll_eq (attributes : List Attribute) :
    strippedAll attributes = without isDebug attributes := by
  induction attributes with
  | nil => rfl
  | cons attr rest ih =>
      rw [strippedAll]
      by_cases hdebug : attr.isDebug = true
      · rw [if_pos hdebug, without_cons_of_drop hdebug, ih]
      · rw [if_neg hdebug, without_cons_of_keep hdebug, ih]

theorem isDebug_cases {attr : Attribute} (h : attr.isDebug = true) :
    (∃ index, attr = sourceFile index) ∨ (∃ rows, attr = lineNumbers rows) ∨
      (∃ rows, attr = localVariables rows) ∨
      ∃ text info, attr = unknown text info ∧ isDebugAttribute text = true := by
  cases attr with
  | sourceFile index => exact .inl ⟨index, rfl⟩
  | lineNumbers rows => exact .inr (.inl ⟨rows, rfl⟩)
  | localVariables rows => exact .inr (.inr (.inl ⟨rows, rfl⟩))
  | unknown text info => exact .inr (.inr (.inr ⟨text, info, rfl, h⟩))
  | _ => simp [isDebug, name, isDebugAttribute] at h

theorem apply_stripped {β : Type} {f : Attribute → β}
    (h : ∀ body inside others, f (code body inside) = f (code body others)) (attr : Attribute) :
    f attr.stripped = f attr := by
  cases attr with
  | code body inside =>
      rw [stripped]
      exact h body _ inside
  | _ => rfl

/-- A computation over attributes that gives nothing for those that are dropped, and does not look
inside of code, is the same without them. -/
theorem bind_mapM_without {γ δ ρ : Type} {f : Attribute → Except Fault γ} {drop : Attribute → Bool}
    {nothing : γ} {combine : List γ → δ} {op : γ → δ → δ}
    (hcombine : ∀ b bs, combine (b :: bs) = op b (combine bs)) (hop : ∀ x, op nothing x = x)
    (hdrop : ∀ attr, drop attr = true → f attr = pure nothing)
    (hinside : ∀ body inside others, f (code body inside) = f (code body others))
    (attributes : List Attribute) (k : δ → Except Fault ρ) :
    ((without drop attributes).mapM f >>= fun bs => k (combine bs)) =
      attributes.mapM f >>= fun bs => k (combine bs) := by
  -- what follows changes with each attribute that is kept: its result becomes part of it
  induction attributes generalizing k with
  | nil => rfl
  | cons attr rest ih =>
      by_cases h : drop attr = true
      · rw [without_cons_of_drop h, ih, List.mapM_cons, hdrop attr h]
        simp only [pure_bind, bind_assoc, hcombine, hop]
      · rw [without_cons_of_keep h, List.mapM_cons, List.mapM_cons, apply_stripped hinside]
        simp only [pure_bind, bind_assoc, hcombine]
        exact bind_congr fun b => ih fun x => k (op b x)

variable {options : Options} {pool : Pool}

theorem shows_of_isDebug (hoff : options.debugInfo = false) {name : String}
    (h : isDebugAttribute name = true) : options.shows name = false := by
  rw [Options.shows, hoff, h]
  rfl

theorem comment_of_isDebug (hoff : options.debugInfo = false) (indent : String) (onMember : Bool)
    {attr : Attribute} (h : attr.isDebug = true) :
    attr.comment pool options indent onMember = pure [] := by
  obtain ⟨index, rfl⟩ | ⟨rows, rfl⟩ | ⟨rows, rfl⟩ | ⟨text, info, rfl, htext⟩ := isDebug_cases h
  · rfl
  · rfl
  · rfl
  · rw [comment, shows_of_isDebug hoff htext, Bool.and_false]
    rfl

theorem comments_without (hoff : options.debugInfo = false) (indent : String) (onMember : Bool)
    {drop : Attribute → Bool} (hdrop : ∀ attr, drop attr = true → attr.isDebug = true)
    (attributes : List Attribute) :
    comments pool options indent onMember (without drop attributes) =
      comments pool options indent onMember attributes :=
  bind_mapM_without (fun _ _ => List.flatten_cons) List.nil_append
    (fun attr h => comment_of_isDebug hoff indent onMember (hdrop attr h)) (fun _ _ _ => rfl)
    attributes pure

theorem rowsInCode_of_isDebug (hoff : options.debugInfo = false) {attr : Attribute}
    (h : attr.isDebug = true) : attr.rowsInCode pool options = pure [] := by
  obtain ⟨index, rfl⟩ | ⟨rows, rfl⟩ | ⟨rows, rfl⟩ | ⟨text, info, rfl, htext⟩ := isDebug_cases h
  · simp only [rowsInCode, shows_of_isDebug hoff h]
    rfl
  · rw [rowsInCode, hoff]
    rfl
  · rw [rowsInCode, hoff]
    rfl
  · rw [rowsInCode, shows_of_isDebug hoff htext]
    rfl

end Attribute

section Members

variable {options : Options} {pool : Pool}

theorem CodeBody.rows_without (hoff : options.debugInfo = false) (body : CodeBody)
    (inside : List Attribute) :
    body.rows pool options (Attribute.without Attribute.isDebug inside) =
      body.rows pool options inside := by
  refine bind_congr fun instructions => bind_congr fun handlers => ?_
  have hdrop (attr : Attribute) (h : attr.isDebug = true) : attr.rowsInCode pool options = pure [] :=
    Attribute.rowsInCode_of_isDebug hoff h
  exact Attribute.bind_mapM_without (fun _ _ => List.flatten_cons) List.nil_append hdrop
    (fun _ _ _ => rfl) inside fun rows => pure (_ ++ rows)

namespace Member

def withoutDebug (x : Member) : Member :=
  { x with attributes := Attribute.without Attribute.isDebug x.attributes }

theorem bind_join_withoutDebug {f : Attribute → Except Fault String} {ρ : Type}
    (hdrop : ∀ attr : Attribute, attr.isDebug = true → f attr = pure "")
    (hinside : ∀ body inside others, f (.code body inside) = f (.code body others)) (x : Member)
    (k : String → Except Fault ρ) :
    (x.withoutDebug.attributes.mapM f >>= fun texts => k (String.join texts)) =
      x.attributes.mapM f >>= fun texts => k (String.join texts) :=
  Attribute.bind_mapM_without (fun _ _ => String.join_cons) (fun _ => String.empty_append)
    hdrop hinside x.attributes k

theorem fieldRows_withoutDebug (hoff : options.debugInfo = false) (field : Member) :
    field.withoutDebug.fieldRows pool options = field.fieldRows pool options := by
  rw [fieldRows, fieldRows]
  refine congrArg₂ _ (Attribute.comments_without hoff "  " true (fun _ h => h) field.attributes) ?_
  funext comments
  refine bind_congr fun descriptor => bind_congr fun name => ?_
  refine bind_join_withoutDebug (fun attr h => ?_) (fun _ _ _ => rfl) field
    fun text => pure (_ :: _ ++ [_ ++ text])
  obtain ⟨_, rfl⟩ | ⟨_, rfl⟩ | ⟨_, rfl⟩ | ⟨_, _, rfl, _⟩ := Attribute.isDebug_cases h
  all_goals rfl

theorem code?_withoutDebug (method : Member) :
    method.withoutDebug.code? = method.code?.map fun found =>
      (found.1, Attribute.without Attribute.isDebug found.2) := by
  obtain ⟨access, name, descriptor, attributes⟩ := method
  rw [withoutDebug, code?, code?]
  dsimp only
  induction attributes with
  | nil => rfl
  | cons attr rest ih =>
      by_cases hdebug : attr.isDebug = true
      · rw [Attribute.without_cons_of_drop hdebug, ih]
        obtain ⟨_, rfl⟩ | ⟨_, rfl⟩ | ⟨_, rfl⟩ | ⟨_, _, rfl, _⟩ := Attribute.isDebug_cases hdebug
        all_goals rfl
      · rw [Attribute.without_cons_of_keep hdebug]
        cases attr with
        | code body inside =>
            rw [Attribute.stripped, Attribute.strippedAll_eq]
            rfl
        | _ => exact ih

theorem bodyRows_withoutDebug (hoff : options.debugInfo = false) (method : Member) :
    method.withoutDebug.bodyRows pool options = method.bodyRows pool options := by
  rw [bodyRows, bodyRows, code?_withoutDebug]
  cases method.code? with
  | none => rfl
  | some found =>
      rw [Option.map_some]
      dsimp only
      rw [CodeBody.rows_without hoff]

theorem methodRows_withoutDebug (hoff : options.debugInfo = false) (method : Member) :
    method.withoutDebug.methodRows pool options = method.methodRows pool options := by
  rw [methodRows, methodRows, bodyRows_withoutDebug hoff]
  refine congrArg₂ _ (Attribute.comments_without hoff "  " true (fun _ h => h) method.attributes) ?_
  funext comments
  refine bind_congr fun name => bind_congr fun descriptor => ?_
  refine bind_join_withoutDebug (fun attr h => ?_) (fun _ _ _ => rfl) method
    fun text => method.bodyRows pool options >>= fun body => pure (_ :: _ ++ (_ ++ text) :: body)
  obtain ⟨_, rfl⟩ | ⟨_, rfl⟩ | ⟨_, rfl⟩ | ⟨_, _, rfl, _⟩ := Attribute.isDebug_cases h
  all_goals rfl

end Member

end Members

namespace ClassFile

open Attribute (isDebug)

variable {options : Options} {drop : Attribute → Bool}

/-- The class with no debugging attribute on its members or inside of code, and without those of its
own attributes that are dropped. -/
def without (drop : Attribute → Bool) (c : ClassFile) : ClassFile :=
  { c with
    fields := c.fields.map Member.withoutDebug
    methods := c.methods.map Member.withoutDebug
    attributes := Attribute.without drop c.attributes }

theorem fieldsRows_without (hoff : options.debugInfo = false) (c : ClassFile) :
    (c.without drop).fieldsRows options = c.fieldsRows options := by
  have hrows : Member.fieldRows c.pool options ∘ Member.withoutDebug = Member.fieldRows c.pool options :=
    funext fun field => Member.fieldRows_withoutDebug hoff field
  rw [fieldsRows, fieldsRows, without, List.mapM_map, hrows]

theorem methodsRows_without (hoff : options.debugInfo = false) (c : ClassFile) :
    (c.without drop).methodsRows options = c.methodsRows options := by
  have hrows : Member.methodRows c.pool options ∘ Member.withoutDebug =
      Member.methodRows c.pool options :=
    funext fun method => Member.methodRows_withoutDebug hoff method
  rw [methodsRows, methodsRows, without, List.mapM_map, hrows]

theorem attributeRows_of_isDebug (pool : Pool) {attr : Attribute} (h : attr.isDebug = true) :
    ∃ rows, attributeRows pool attr = .ok rows ∧ rows.length = if attr.isKnown then 0 else 1 := by
  obtain ⟨_, rfl⟩ | ⟨_, rfl⟩ | ⟨_, rfl⟩ | ⟨_, _, rfl, _⟩ := Attribute.isDebug_cases h
  all_goals exact ⟨_, rfl, rfl⟩

/-- Of the rows below the declaration, one is lost for each dropped attribute of unknown form. -/
theorem exists_attributeRows_without (hdrop : ∀ attr, drop attr = true → attr.isDebug = true)
    (pool : Pool) {attributes : List Attribute} {below : List (List String)}
    (h : attributes.mapM (attributeRows pool) = .ok below) :
    ∃ kept, (Attribute.without drop attributes).mapM (attributeRows pool) = .ok kept ∧
      kept.flatten.Sublist below.flatten ∧
      kept.flatten.length + attributes.countP (fun attr => drop attr && !attr.isKnown) =
        below.flatten.length := by
  induction attributes generalizing below with
  | nil =>
      obtain rfl := Except.ok.inj h
      exact ⟨[], rfl, List.Sublist.refl _, rfl⟩
  | cons attr rest ih =>
      simp only [List.mapM_cons, bind_eq_ok, pure_eq_ok] at h
      obtain ⟨rows, hrows, others, hothers, rfl⟩ := h
      obtain ⟨kept, hkept, hsub, hcount⟩ := ih hothers
      rw [List.flatten_cons, List.length_append, List.countP_cons]
      by_cases hd : drop attr = true
      · obtain ⟨rows', hrows', hlength⟩ := attributeRows_of_isDebug pool (hdrop attr hd)
        obtain rfl := Except.ok.inj (hrows.symm.trans hrows')
        refine ⟨kept, ?_, hsub.trans (List.sublist_append_right _ _), ?_⟩
        · rw [Attribute.without_cons_of_drop hd, hkept]
        · rw [hlength, hd, ← hcount]
          cases attr.isKnown with
          | false => simp; omega
          | true => simp
      · refine ⟨rows :: kept, ?_, (List.Sublist.refl rows).append hsub, ?_⟩
        · have hinside : attributeRows pool attr.stripped = attributeRows pool attr :=
            Attribute.apply_stripped (fun _ _ _ => rfl) attr
          rw [Attribute.without_cons_of_keep hd, List.mapM_cons, hinside, hrows, hkept]
          rfl
        · rw [List.flatten_cons, List.length_append, ← hcount]
          simp [hd, Nat.add_assoc]

/-- The attributes that are dropped from the class itself though they are listed. -/
def droppedRows (drop : Attribute → Bool) (c : ClassFile) : Nat :=
  c.attributes.countP fun attr => drop attr && !attr.isKnown

theorem exists_headerRows_without (hoff : options.debugInfo = false)
    (hdrop : ∀ attr, drop attr = true → attr.isDebug = true) {c : ClassFile} {rows : List String}
    (h : c.headerRows options = .ok rows) :
    ∃ kept, (c.without drop).headerRows options = .ok kept ∧ kept.Sublist rows ∧
      kept.length + c.droppedRows drop = rows.length := by
  simp only [headerRows, bind_eq_ok, pure_eq_ok] at h
  obtain ⟨comments, hcomments, source, hsource, declaration, hdeclaration, below, hbelow, rfl⟩ := h
  obtain ⟨kept, hkept, hsub, hcount⟩ := exists_attributeRows_without hdrop c.pool hbelow
  have hcomments' : Attribute.comments (c.without drop).pool options "" false
      (c.without drop).attributes = .ok comments :=
    (Attribute.comments_without hoff "" false hdrop c.attributes).trans hcomments
  have hsource' : (c.without drop).sourceRows options = .ok source := by
    rw [sourceRows, hoff] at hsource ⊢
    exact hsource
  have hdeclaration' : (c.without drop).declaration = .ok declaration := hdeclaration
  have hkept' : (c.without drop).attributes.mapM (attributeRows (c.without drop).pool) =
      .ok kept := hkept
  refine ⟨_, ?_, (List.Sublist.refl _).append (hsub.cons_cons declaration), ?_⟩
  · rw [headerRows, hcomments', hsource', hdeclaration', hkept']
    rfl
  · simp only [droppedRows, List.length_append, List.length_cons, ← hcount]
    omega

theorem exists_rows_without (hoff : options.debugInfo = false)
    (hdrop : ∀ attr, drop attr = true → attr.isDebug = true) {c : ClassFile} {rows : List String}
    (h : c.rows options = .ok rows) :
    ∃ kept, (c.without drop).rows options = .ok kept ∧ kept.Sublist rows ∧
      kept.length + c.droppedRows drop = rows.length := by
  simp only [rows_eq, bind_eq_ok, pure_eq_ok] at h
  obtain ⟨header, hheader, pool, hpool, fields, hfields, methods, hmethods, rfl⟩ := h
  obtain ⟨kept, hkept, hsub, hcount⟩ := exists_headerRows_without hoff hdrop hheader
  have hpool' : (c.without drop).poolRows options = .ok pool := hpool
  refine ⟨kept ++ pool ++ fields ++ methods, ?_, ?_, ?_⟩
  · rw [rows_eq, hkept, hpool', fieldsRows_without hoff, hfields, methodsRows_without hoff, hmethods]
    rfl
  · exact ((hsub.append (.refl pool)).append (.refl fields)).append (.refl methods)
  · simp only [List.length_append, ← hcount]
    omega

theorem length_lines_of_sublist {kept rows : List String} (h : kept.Sublist rows) :
    (lines kept).length + rows.length ≤ (lines rows).length + kept.length := by
  have hcons (row : String) (rows : List String) :
      (lines (row :: rows)).length = row.length + 1 + (lines rows).length := by
    rw [lines, List.map_cons, String.join_cons, String.length_append, String.length_append]
    rfl
  induction h with
  | slnil => exact Nat.le_refl _
  | cons row _ ih =>
      rw [hcons, List.length_cons]
      omega
  | cons_cons row _ ih =>
      rw [hcons, hcons, List.length_cons, List.length_cons]
      omega

theorem listing_without_iff (hoff : options.debugInfo = false)
    (hdrop : ∀ attr, drop attr = true → attr.isDebug = true) {c : ClassFile} {text : String}
    (h : c.listing options = .ok text) :
    (c.without drop).listing options = .ok text ↔
      ∀ attr ∈ c.attributes, drop attr = true → attr.isKnown = true := by
  simp only [listing, bind_eq_ok, pure_eq_ok] at h
  obtain ⟨rows, hrows, rfl⟩ := h
  obtain ⟨kept, hkept, hsub, hcount⟩ := exists_rows_without hoff hdrop hrows
  have hzero : c.droppedRows drop = 0 ↔
      ∀ attr ∈ c.attributes, drop attr = true → attr.isKnown = true := by
    simp [droppedRows, List.countP_eq_zero]
  rw [listing_of_rows hkept, ← hzero]
  -- rows may be empty, so a lost one is seen by the line feed that goes with it
  constructor
  · intro heq
    have hlength := length_lines_of_sublist hsub
    rw [Except.ok.inj heq, lines] at hlength
    omega
  · intro hnone
    rw [hsub.eq_of_length (by omega)]
    rfl

/-- With debugging attributes turned off, those that are removed leave the listing as it is, except
for the class's own ones of unknown form. -/
theorem listing_withoutDebug_iff {bytes : Bytes} {c : ClassFile} (h : read bytes = .ok c)
    (hoff : options.debugInfo = false) :
    ∃ text, c.listing options = .ok text ∧
      (c.without fun attr => attr.isDebug && attr.isKnown).listing options = .ok text ∧
      ((c.without isDebug).listing options = .ok text ↔
        ∀ attr ∈ c.attributes, attr.isDebug = true → attr.isKnown = true) := by
  obtain ⟨rows, hrows, -⟩ := listing_of_wellFormed (read_eq_ok_iff.1 h).1 options
  refine ⟨_, hrows, ?_, listing_without_iff hoff (fun _ hd => hd) hrows⟩
  have hdrop (attr : Attribute) (hd : (attr.isDebug && attr.isKnown) = true) :=
    Bool.and_eq_true_iff.1 hd
  exact (listing_without_iff hoff (fun attr hd => (hdrop attr hd).1) hrows).2
    fun attr _ hd => (hdrop attr hd).2

def mapped : ClassFile where
  minor := 0
  major := 52
  pool := ⟨#[none, some (.utf8 "A"), some (.classRef 1), some (.utf8 "SourceDebugExtension")]⟩
  access := 0x21
  thisClass := 2
  superClass := 0
  interfaces := []
  fields := []
  methods := []
  attributes := [.unknown "SourceDebugExtension" [7]]

theorem wellFormed_mapped_pool : mapped.pool.WellFormed where
  filled := ⟨_, rfl, .narrow rfl (.narrow rfl (.narrow rfl .nil))⟩
  size_lt := by decide
  texts index text h := by
    have hmem := Pool.some_mem_slots h
    simp only [mapped, List.mem_cons, reduceCtorEq, Option.some.injEq, Constant.utf8.injEq,
      List.not_mem_nil, or_false, false_or] at hmem
    rcases hmem with rfl | rfl
    all_goals decide +kernel
  valid := (Pool.validate_eq_ok (by decide)).1 (by decide +kernel)

theorem wellFormed_mapped : mapped.WellFormed := by
  have hfits : Attribute.Fits mapped.pool (.unknown "SourceDebugExtension" [7]) :=
    ⟨⟨3, rfl⟩, (by decide : "SourceDebugExtension" ∉ Attribute.decodedNames), by decide⟩
  have hnil : Attribute.AllSound mapped.pool [] := fun attr h => absurd h Attribute.not_within_nil
  exact wellFormed_iff.2 ⟨by decide, wellFormed_mapped_pool, by decide, by decide,
    ⟨by decide, List.forall_mem_nil _⟩, ⟨by decide, List.forall_mem_nil _⟩,
    ⟨by decide, List.forall_mem_nil _⟩, by decide,
    Attribute.allSound_cons.2 ⟨⟨⟨trivial, hfits⟩, hnil⟩, hnil⟩⟩

/-- A table of line numbers leaves no trace, while an extension on the class itself does. -/
theorem listing_withoutDebug_iff_sample :
    (read sample.encode = .ok sample ∧ ∃ text, sample.listing ⟨true, true, false⟩ = .ok text ∧
        (sample.without isDebug).listing ⟨true, true, false⟩ = .ok text) ∧
      read mapped.encode = .ok mapped ∧ ∃ text, mapped.listing ⟨true, true, false⟩ = .ok text ∧
        (mapped.without isDebug).listing ⟨true, true, false⟩ ≠ .ok text := by
  have hsample := read_encode wellFormed_sample
  have hmapped := read_encode wellFormed_mapped
  have hoff : (⟨true, true, false⟩ : Options).debugInfo = false := rfl
  obtain ⟨text, htext, -, hiff⟩ := listing_withoutDebug_iff hsample hoff
  obtain ⟨text', htext', -, hiff'⟩ := listing_withoutDebug_iff hmapped hoff
  refine ⟨⟨hsample, text, htext, hiff.2 (List.forall_mem_nil _)⟩, hmapped, text', htext', fun heq => ?_⟩
  have hmem : Attribute.unknown "SourceDebugExtension" [7] ∈ mapped.attributes :=
    List.mem_singleton_self _
  cases hiff'.1 heq _ hmem (by decide)

end ClassFile

end ClassListing
