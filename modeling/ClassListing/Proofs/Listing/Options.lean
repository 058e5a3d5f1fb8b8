import ClassListing.Proofs.Rendering

namespace ClassListing

open Checks

/-- Whatever the first shows, the second shows too. -/
instance : LE Options :=
  ⟨fun o p => o.constantPool ≤ p.constantPool ∧ o.code ≤ p.code ∧ o.debugInfo ≤ p.debugInfo⟩

instance (o p : Options) : Decidable (o ≤ p) :=
  inferInstanceAs (Decidable (_ ∧ _ ∧ _))

theorem Options.shows_mono {o p : Options} (h : o ≤ p) {name : String} (hname : o.shows name = true) :
    p.shows name = true := by
  rw [shows, Bool.or_eq_true] at hname ⊢
  exact hname.imp_left h.2.2

/-- Where the second computation gives rows, the first gives some of them in the same order. -/
def Thins (x y : Except Fault (List String)) : Prop :=
  ∀ rows, y = .ok rows → ∃ kept, x = .ok kept ∧ kept.Sublist rows

theorem thins_refl (x : Except Fault (List String)) : Thins x x := by
  intro rows hrows
  exact ⟨rows, hrows, List.Sublist.refl rows⟩

theorem thins_nothing (x : Except Fault (List String)) : Thins (pure []) x := by
  intro rows _
  exact ⟨[], rfl, List.nil_sublist rows⟩

theorem thins_ite {a b : Bool} (h : a ≤ b) {x y : Except Fault (List String)} (hxy : Thins x y) :
    Thins (if a then x else pure []) (if b then y else pure []) := by
  cases a with
  | false => exact thins_nothing _
  | true =>
      rw [h rfl]
      exact hxy

theorem thins_when {a b : Bool} (h : a ≤ b) (rows : List String) :
    Thins (pure (if a then rows else [])) (pure (if b then rows else [])) := by
  rw [apply_ite pure, apply_ite pure]
  exact thins_ite h (thins_refl _)

theorem sublist_flatten {parts others : List (List String)}
    (h : List.Forall₂ List.Sublist parts others) : parts.flatten.Sublist others.flatten := by
  induction h with
  | nil => exact List.Sublist.refl []
  | cons hfirst _ ih => exact hfirst.append ih

theorem sublist_intercalate {first other : List String} {parts others : List (List String)}
    (hfirst : first.Sublist other) (h : List.Forall₂ List.Sublist parts others) :
    ([""].intercalate (first :: parts)).Sublist ([""].intercalate (other :: others)) := by
  induction h generalizing first other with
  | nil => simpa using hfirst
  | cons hnext _ ih =>
      rw [List.intercalate_cons_cons, List.intercalate_cons_cons]
      exact (hfirst.append (List.Sublist.refl _)).append (ih hnext)

theorem sublist_block (heading : String) {parts others : List (List String)}
    (h : List.Forall₂ List.Sublist parts others) :
    (Member.block heading parts).Sublist (Member.block heading others) := by
  refine List.Sublist.cons_cons _ (List.Sublist.cons_cons _ ?_)
  cases h with
  | nil => exact List.Sublist.refl _
  | cons hfirst hothers => exact sublist_intercalate hfirst hothers

theorem thins_mapM {α : Type} {f g : α → Except Fault (List String)} {as : List α}
    (h : ∀ a ∈ as, Thins (f a) (g a)) {parts : List (List String)} (hparts : as.mapM g = .ok parts) :
    ∃ kept, as.mapM f = .ok kept ∧ List.Forall₂ List.Sublist kept parts := by
  induction as generalizing parts with
  | nil =>
      obtain rfl := Except.ok.inj hparts
      exact ⟨[], rfl, .nil⟩
  | cons a as ih =>
      obtain ⟨ha, has⟩ := List.forall_mem_cons.1 h
      simp only [List.mapM_cons, bind_eq_ok, pure_eq_ok] at hparts
      obtain ⟨rows, hrows, others, hothers, rfl⟩ := hparts
      obtain ⟨kept, hkept, hsub⟩ := ha rows hrows
      obtain ⟨rest, hrest, hall⟩ := ih has hothers
      refine ⟨kept :: rest, ?_, .cons hsub hall⟩
      rw [List.mapM_cons, hkept, hrest]
      rfl

section Parts

variable {o p : Options} {pool : Pool}

theorem Attribute.thins_comment (h : o ≤ p) (indent : String) (onMember : Bool) (attr : Attribute) :
    Thins (attr.comment pool o indent onMember) (attr.comment pool p indent onMember) := by
  cases attr with
  | unknown name info =>
      apply thins_when
      intro hshown
      rw [Bool.and_eq_true] at hshown ⊢
      exact hshown.imp_right (Options.shows_mono h)
  | _ => exact thins_refl _

theorem Attribute.thins_comments (h : o ≤ p) (indent : String) (onMember : Bool)
    (attributes : List Attribute) :
    Thins (comments pool o indent onMember attributes) (comments pool p indent onMember attributes) := by
  intro rows hrows
  simp only [comments, bind_eq_ok, pure_eq_ok] at hrows
  obtain ⟨parts, hparts, rfl⟩ := hrows
  obtain ⟨kept, hkept, hsub⟩ := thins_mapM (fun attr _ => thins_comment h indent onMember attr) hparts
  refine ⟨kept.flatten, ?_, sublist_flatten hsub⟩
  rw [comments, hkept]
  rfl

theorem Attribute.thins_rowsInCode (h : o ≤ p) (attr : Attribute) :
    Thins (attr.rowsInCode pool o) (attr.rowsInCode pool p) := by
  cases attr with
  | lineNumbers rows => exact thins_when h.2.2 _
  | localVariables rows => exact thins_ite h.2.2 (thins_refl _)
  | unknown name info => exact thins_when (Options.shows_mono h) _
  | _ => exact thins_when (Options.shows_mono h) _

theorem CodeBody.thins_rows (h : o ≤ p) (body : CodeBody) (attributes : List Attribute) :
    Thins (body.rows pool o attributes) (body.rows pool p attributes) := by
  intro rows hrows
  simp only [CodeBody.rows, bind_eq_ok, pure_eq_ok] at hrows
  obtain ⟨instructions, hinstructions, handlers, hhandlers, inside, hinside, rfl⟩ := hrows
  obtain ⟨kept, hkept, hsub⟩ := thins_mapM (fun attr _ => Attribute.thins_rowsInCode h attr) hinside
  refine ⟨_, ?_, (List.Sublist.refl (body.heading :: instructions.flatten ++ handlers)).append
    (sublist_flatten hsub)⟩
  rw [CodeBody.rows, hinstructions, hhandlers, hkept]
  rfl

theorem Member.thins_bodyRows (h : o ≤ p) (method : Member) :
    Thins (method.bodyRows pool o) (method.bodyRows pool p) := by
  refine thins_ite h.2.1 ?_
  cases method.code? with
  | none => exact thins_refl _
  | some found => exact CodeBody.thins_rows h found.1 found.2

theorem Member.thins_fieldRows (h : o ≤ p) (field : Member) :
    Thins (field.fieldRows pool o) (field.fieldRows pool p) := by
  intro rows hrows
  simp only [fieldRows, bind_eq_ok, pure_eq_ok] at hrows
  obtain ⟨comments, hcomments, descriptor, hdescriptor, name, hname, values, hvalues, rfl⟩ := hrows
  obtain ⟨kept, hkept, hsub⟩ :=
    Attribute.thins_comments h "  " true field.attributes comments hcomments
  refine ⟨_, ?_, (hsub.append (List.Sublist.refl _)).cons_cons _⟩
  rw [fieldRows, hkept, hdescriptor, hname, hvalues]
  rfl

theorem Member.thins_methodRows (h : o ≤ p) (method : Member) :
    Thins (method.methodRows pool o) (method.methodRows pool p) := by
  intro rows hrows
  simp only [methodRows, bind_eq_ok, pure_eq_ok] at hrows
  obtain ⟨comments, hcomments, name, hname, descriptor, hdescriptor, clauses, hclauses, body, hbody,
    rfl⟩ := hrows
  obtain ⟨kept, hkept, hsub⟩ :=
    Attribute.thins_comments h "  " true method.attributes comments hcomments
  obtain ⟨rest, hrest, hsub'⟩ := thins_bodyRows h method body hbody
  refine ⟨_, ?_, (hsub.append (hsub'.cons_cons _)).cons_cons _⟩
  rw [methodRows, hkept, hname, hdescriptor, hclauses, hrest]
  rfl

end Parts

namespace ClassFile

variable {o p : Options} {c : ClassFile}

theorem thins_sourceRows (h : o ≤ p) (c : ClassFile) : Thins (c.sourceRows o) (c.sourceRows p) :=
  thins_ite h.2.2 (thins_refl _)

theorem thins_headerRows (h : o ≤ p) (c : ClassFile) : Thins (c.headerRows o) (c.headerRows p) := by
  intro rows hrows
  simp only [headerRows, bind_eq_ok, pure_eq_ok] at hrows
  obtain ⟨comments, hcomments, source, hsource, declaration, hdeclaration, below, hbelow, rfl⟩ := hrows
  obtain ⟨kept, hkept, hsub⟩ := Attribute.thins_comments h "" false c.attributes comments hcomments
  obtain ⟨kept', hkept', hsub'⟩ := thins_sourceRows h c source hsource
  refine ⟨_, ?_, (((hsub.cons_cons _).cons_cons _).append hsub').append (List.Sublist.refl _)⟩
  rw [headerRows, hkept, hkept', hdeclaration, hbelow]
  rfl

theorem thins_fieldsRows (h : o ≤ p) (c : ClassFile) : Thins (c.fieldsRows o) (c.fieldsRows p) := by
  intro rows hrows
  simp only [fieldsRows, bind_eq_ok, pure_eq_ok] at hrows
  obtain ⟨parts, hparts, rfl⟩ := hrows
  obtain ⟨kept, hkept, hsub⟩ := thins_mapM (fun field _ => Member.thins_fieldRows h field) hparts
  refine ⟨_, ?_, sublist_block "Fields:" hsub⟩
  rw [fieldsRows, hkept]
  rfl

theorem thins_methodsRows (h : o ≤ p) (c : ClassFile) :
    Thins (c.methodsRows o) (c.methodsRows p) := by
  intro rows hrows
  simp only [methodsRows, bind_eq_ok, pure_eq_ok] at hrows
  obtain ⟨parts, hparts, rfl⟩ := hrows
  obtain ⟨kept, hkept, hsub⟩ := thins_mapM (fun method _ => Member.thins_methodRows h method) hparts
  refine ⟨_, ?_, sublist_block "Methods:" hsub⟩
  rw [methodsRows, hkept]
  rfl

def poolRows (options : Options) (c : ClassFile) : Except Fault (List String) :=
  if options.constantPool then c.pool.rows else pure []

theorem rows_eq (options : Options) (c : ClassFile) :
    c.rows options = do
      let header ← c.headerRows options
      let pool ← c.poolRows options
      let fields ← c.fieldsRows options
      let methods ← c.methodsRows options
      return header ++ pool ++ fields ++ methods := by
  rw [rows, poolRows]
  cases options.constantPool with
  | false => rfl
  | true => rfl

theorem thins_poolRows (h : o ≤ p) (c : ClassFile) : Thins (c.poolRows o) (c.poolRows p) :=
  thins_ite h.1 (thins_refl _)

theorem thins_rows (h : o ≤ p) (c : ClassFile) : Thins (c.rows o) (c.rows p) := by
  intro rows hrows
  simp only [rows_eq, bind_eq_ok, pure_eq_ok] at hrows
  obtain ⟨header, hheader, pool, hpool, fields, hfields, methods, hmethods, rfl⟩ := hrows
  obtain ⟨header', hheader', hsub₁⟩ := thins_headerRows h c header hheader
  obtain ⟨pool', hpool', hsub₂⟩ := thins_poolRows h c pool hpool
  obtain ⟨fields', hfields', hsub₃⟩ := thins_fieldsRows h c fields hfields
  obtain ⟨methods', hmethods', hsub₄⟩ := thins_methodsRows h c methods hmethods
  refine ⟨_, ?_, ((hsub₁.append hsub₂).append hsub₃).append hsub₄⟩
  rw [rows_eq, hheader', hpool', hfields', hmethods']
  rfl

theorem shows_congr (h : o.debugInfo = p.debugInfo) : o.shows = p.shows := by
  funext name
  rw [Options.shows, Options.shows, h]

theorem comments_congr (h : o.debugInfo = p.debugInfo) (pool : Pool) :
    Attribute.comments pool o = Attribute.comments pool p := by
  have hcomment : Attribute.comment pool o = Attribute.comment pool p := by
    funext indent onMember attr
    cases attr with
    | unknown name info => rw [Attribute.comment, Attribute.comment, shows_congr h]
    | _ => rfl
  funext indent onMember attributes
  rw [Attribute.comments, Attribute.comments, hcomment]

theorem headerRows_congr (h : o.debugInfo = p.debugInfo) (c : ClassFile) :
    c.headerRows o = c.headerRows p := by
  rw [headerRows, headerRows, sourceRows, sourceRows, comments_congr h, h]

theorem fieldsRows_congr (h : o.debugInfo = p.debugInfo) (c : ClassFile) :
    c.fieldsRows o = c.fieldsRows p := by
  have hfield : Member.fieldRows c.pool o = Member.fieldRows c.pool p := by
    funext field
    rw [Member.fieldRows, Member.fieldRows, comments_congr h]
  rw [fieldsRows, fieldsRows, hfield]

theorem methodsRows_congr (hcode : o.code = p.code) (hdebug : o.debugInfo = p.debugInfo)
    (c : ClassFile) : c.methodsRows o = c.methodsRows p := by
  have hinside : Attribute.rowsInCode c.pool o = Attribute.rowsInCode c.pool p := by
    funext attr
    cases attr with
    | lineNumbers rows | localVariables rows =>
        rw [Attribute.rowsInCode, Attribute.rowsInCode, hdebug]
    | _ => simp only [Attribute.rowsInCode, shows_congr hdebug]
  have hmethod : Member.methodRows c.pool o = Member.methodRows c.pool p := by
    funext method
    simp only [Member.methodRows, Member.bodyRows, CodeBody.rows, comments_congr hdebug, hinside, hcode]
  rw [methodsRows, methodsRows, hmethod]

def lines (rows : List String) : String := String.join (rows.map (· ++ "\n"))

theorem lines_append (rows others : List String) : lines (rows ++ others) = lines rows ++ lines others := by
  rw [lines, List.map_append, String.join_append, lines, lines]

theorem lines_block (heading : String) (rows : List String) :
    lines ("" :: heading :: rows) = "\n" ++ heading ++ "\n" ++ lines rows := by
  simp [lines, String.append_assoc]

theorem listing_of_rows {options : Options} {rows : List String} (h : c.rows options = .ok rows) :
    c.listing options = .ok (lines rows) := by
  rw [listing, h]
  rfl

theorem exists_below_heading {α : Type} {x : Except Fault α} {heading : String} {f : α → List String}
    {rows : List String} (h : (do return "" :: heading :: f (← x)) = .ok rows) :
    ∃ below, rows = "" :: heading :: below := by
  simp only [bind_eq_ok, pure_eq_ok] at h
  obtain ⟨a, -, rfl⟩ := h
  exact ⟨f a, rfl⟩

theorem exists_blocks (h : c.WellFormed) :
    ∃ (header : Bool → List String) (pool : List String) (fields : Bool → List String)
      (methods : Bool → Bool → List String),
      ∀ options, c.rows options = .ok (header options.debugInfo ++
        (if options.constantPool then "" :: "Constant pool:" :: pool else []) ++
        ("" :: "Fields:" :: fields options.debugInfo) ++
        ("" :: "Methods:" :: methods options.code options.debugInfo)) := by
  have valid := h.pool.valid
  have hfields (debug : Bool) :
      ∃ fields, c.fieldsRows ⟨true, true, debug⟩ = .ok ("" :: "Fields:" :: fields) := by
    obtain ⟨rows, hrows, -⟩ := shows_fieldsRows valid ⟨true, true, debug⟩ h.toReferences
    obtain ⟨fields, rfl⟩ := exists_below_heading hrows
    exact ⟨fields, hrows⟩
  have hmethods (code debug : Bool) :
      ∃ methods, c.methodsRows ⟨true, code, debug⟩ = .ok ("" :: "Methods:" :: methods) := by
    obtain ⟨rows, hrows, -⟩ := shows_methodsRows valid ⟨true, code, debug⟩ h.toReferences
    obtain ⟨methods, rfl⟩ := exists_below_heading hrows
    exact ⟨methods, hrows⟩
  -- the switches that a block does not look at are set to any value here
  choose header hheader _ using fun debug =>
    shows_headerRows valid ⟨true, true, debug⟩ h.toReferences
  obtain ⟨rows, hpool, -⟩ := Pool.shows_rows valid (Nat.le_of_lt h.pool.size_lt)
  obtain ⟨pool, rfl⟩ := exists_below_heading hpool
  choose fields hfields using hfields
  choose methods hmethods using hmethods
  refine ⟨header, pool, fields, methods, fun options => ?_⟩
  have hheader' : c.headerRows options = .ok (header options.debugInfo) := by
    rw [← hheader]
    exact headerRows_congr rfl c
  have hfields' : c.fieldsRows options = .ok ("" :: "Fields:" :: fields options.debugInfo) := by
    rw [← hfields]
    exact fieldsRows_congr rfl c
  have hmethods' : c.methodsRows options =
      .ok ("" :: "Methods:" :: methods options.code options.debugInfo) := by
    rw [← hmethods]
    exact methodsRows_congr rfl rfl c
  rw [rows_eq, hheader', poolRows, hpool, hfields', hmethods']
  cases options.constantPool with
  | false => rfl
  | true => rfl

/-- A listing is a header, the pool if it is asked for, the fields and the methods; the header and
the fields depend on the switch for debugging attributes only, and the methods on that for code
too. -/
theorem listing_blocks {bytes : Bytes} (h : read bytes = .ok c) :
    (∃ (header : Bool → String) (pool : String) (fields : Bool → String)
        (methods : Bool → Bool → String),
      (∃ rest, pool = "\nConstant pool:\n" ++ rest) ∧
      (∀ debug, ∃ rest, fields debug = "\nFields:\n" ++ rest) ∧
      (∀ code debug, ∃ rest, methods code debug = "\nMethods:\n" ++ rest) ∧
      ∀ options, c.listing options = .ok (header options.debugInfo ++
        (if options.constantPool then pool else "") ++ fields options.debugInfo ++
          methods options.code options.debugInfo)) ∧
      ∀ o p : Options, o ≤ p → ∃ rows others, c.rows o = .ok rows ∧ c.rows p = .ok others ∧
        rows.Sublist others := by
  have hc := (read_eq_ok_iff.1 h).1
  obtain ⟨header, pool, fields, methods, hrows⟩ := exists_blocks hc
  refine ⟨⟨fun debug => lines (header debug), lines ("" :: "Constant pool:" :: pool),
    fun debug => lines ("" :: "Fields:" :: fields debug),
    fun code debug => lines ("" :: "Methods:" :: methods code debug),
    ⟨lines pool, lines_block _ pool⟩, fun debug => ⟨_, lines_block _ (fields debug)⟩,
    fun code debug => ⟨_, lines_block _ (methods code debug)⟩, fun options => ?_⟩, fun o p hle => ?_⟩
  · rw [listing_of_rows (hrows options), lines_append, lines_append, lines_append]
    cases options.constantPool with
    | false => rfl
    | true => rfl
  · obtain ⟨rows, hkept, hsub⟩ := thins_rows hle c _ (hrows p)
    exact ⟨rows, _, hkept, hrows p, hsub⟩

theorem listing_blocks_sample :
    read sample.encode = .ok sample ∧
      (∃ header pool fields methods, sample.listing ⟨true, true, true⟩ =
          .ok (header ++ ("\nConstant pool:\n" ++ pool) ++ fields ++ methods) ∧
        sample.listing ⟨false, true, true⟩ = .ok (header ++ "" ++ fields ++ methods)) ∧
      (⟨false, true, false⟩ : Options) ≤ ⟨true, true, true⟩ ∧
      ∃ rows others, sample.rows ⟨false, true, false⟩ = .ok rows ∧
        sample.rows ⟨true, true, true⟩ = .ok others ∧ rows.Sublist others := by
  have hread := read_encode wellFormed_sample
  have hle : (⟨false, true, false⟩ : Options) ≤ ⟨true, true, true⟩ := by decide
  obtain ⟨⟨header, pool, fields, methods, ⟨rest, rfl⟩, -, -, hlisting⟩, hsub⟩ := listing_blocks hread
  exact ⟨hread, ⟨header true, rest, fields true, methods true true, hlisting ⟨true, true, true⟩,
    hlisting ⟨false, true, true⟩⟩, hle, hsub _ _ hle⟩

end ClassFile

end ClassListing
