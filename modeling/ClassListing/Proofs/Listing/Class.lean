import ClassListing.Proofs.Listing.Code

namespace ClassListing

open Clean

variable {pool : Pool}

theorem clean_accessRow {indent : String} (h : Clean indent) (declared : Declared) (word : UInt16) :
    Clean (accessRow indent declared word) := by
  simp only [accessRow, clean_append]
  refine ⟨⟨⟨h, by decide⟩, clean_upperHex _ _⟩, ?_⟩
  split
  · decide
  · exact clean_append.2 ⟨clean_append.2 ⟨by decide,
      (clean_intercalate (by decide)).2 (clean_flagNames declared word)⟩, by decide⟩

theorem Attribute.clean_unknownRow {indent : String} (h : Clean indent) (name : String) (info : Bytes) :
    Clean (unknownRow indent name info) ↔ ∀ t ∈ [name], Clean t := by
  simp only [unknownRow, clean_append, List.forall_mem_singleton, clean_sizeText, h, true_and, and_true]
  exact and_iff_right (by decide)

theorem Attribute.shows_comment (options : Options) {indent : String} (h : Clean indent)
    (onMember : Bool) {attr : Attribute} (href : attr.References pool) :
    Shows (attr.comment pool options indent onMember) (attr.commentPlan pool options onMember) := by
  cases attr with
  | signature text =>
      refine (Pool.says_utf8 href).row fun t => ?_
      exact clean_after (clean_append.2 ⟨h, by decide⟩)
  | deprecated => exact shows_row (clean_append.2 ⟨h, by decide⟩)
  | synthetic => exact shows_row (clean_append.2 ⟨h, by decide⟩)
  | unknown name info =>
      exact shows_pure (follows_when (follows_row (clean_unknownRow h name info)))
  | _ => exact shows_empty

theorem Attribute.shows_comments (options : Options) {indent : String} (h : Clean indent)
    (onMember : Bool) {attributes : List Attribute} (href : ∀ attr ∈ attributes, attr.References pool) :
    Shows (comments pool options indent onMember attributes)
      (commentsPlan pool options onMember attributes) := by
  obtain ⟨parts, hparts, hfollows⟩ :=
    exists_parts fun attr hattr => shows_comment options h onMember (href attr hattr)
  refine ⟨parts.flatten, ?_, follows_flatten hfollows⟩
  rw [comments, hparts]
  rfl

theorem Member.says_initialValue (valid : pool.Valid) {attr : Attribute} (href : attr.References pool) :
    Says (initialValue pool attr) (initialTexts pool attr) := by
  cases attr with
  | constantValue index =>
      obtain ⟨constant, hget, -⟩ := href
      obtain ⟨text, htext, hclean⟩ := Pool.says_describe valid hget
      rw [initialValue, htext, Pool.get_eq_ok.2 hget]
      cases constant with
      | string _ =>
          refine ⟨" = \"" ++ text ++ "\"", rfl, ?_⟩
          rw [clean_append, clean_append, hclean]
          exact ⟨fun h => h.1.2, fun h => ⟨⟨by decide, h⟩, by decide⟩⟩
      | _ =>
          have hequals : Clean " = " := by decide
          exact ⟨" = " ++ text, rfl, (clean_after hequals).trans hclean⟩
  | _ => exact says_pure (by decide)

theorem mapM_className (valid : pool.Valid) {indices : List UInt16}
    (h : ∀ index ∈ indices, pool.HasKind [.classRef] index) :
    indices.mapM pool.className = .ok (indices.map pool.nameAt) := by
  rw [Checks.mapM_eq_ok, List.forall₂_map_right_iff, List.forall₂_same]
  exact fun index hindex => Pool.className_eq_nameAt valid (h index hindex)

theorem Member.says_throwsClause (valid : pool.Valid) {attr : Attribute} (href : attr.References pool) :
    Says (throwsClause pool attr) (thrownTexts pool attr) := by
  cases attr with
  | exceptions classes =>
      rw [throwsClause, thrownTexts, mapM_className valid href]
      exact ⟨_, rfl, clean_listed (by decide)⟩
  | _ => exact says_pure (by decide)

theorem Member.shows_fieldRows (valid : pool.Valid) (options : Options) {field : Member}
    (hname : pool.HasKind [.utf8] field.name) (hdesc : pool.HasKind [.utf8] field.descriptor)
    (href : ∀ attr ∈ field.attributes, attr.References pool) :
    Shows (field.fieldRows pool options) (field.fieldPlan pool options) := by
  obtain ⟨comments, hcomments, hfollows⟩ :=
    Attribute.shows_comments options (by decide : Clean "  ") true href
  obtain ⟨descriptor, hdescriptor, hd⟩ := Pool.says_utf8 hdesc
  obtain ⟨name, hname, hn⟩ := Pool.says_utf8 hname
  obtain ⟨values, hvalues, -, hv⟩ :=
    shows_mapM fun attr hattr => says_initialValue valid (href attr hattr)
  have haccess : Follows [accessRow "  " .field field.access] (.row []) :=
    follows_row (by simpa using clean_accessRow (by decide) .field field.access)
  have hrow : Follows ["  " ++ modifiers .field field.access ++ descriptor ++ " " ++ name ++
      String.join values] (.row (pool.textAt field.descriptor :: pool.textAt field.name ::
        field.attributes.flatMap (initialTexts pool))) := by
    have hgap : Clean "  " := by decide
    have hblank : Clean " " := by decide
    apply follows_row
    rw [List.forall_mem_singleton] at hd hn
    rw [List.forall_mem_cons, List.forall_mem_cons, ← hd, ← hn, ← hv]
    simp only [clean_append, clean_modifiers, clean_join, hgap, hblank, true_and, and_true, and_assoc]
  refine ⟨_, ?_, (haccess.append hfollows).append hrow⟩
  rw [fieldRows, hcomments, hdescriptor, hname, hvalues]
  rfl

theorem Member.mem_of_code?_eq_some {method : Member} {body : CodeBody} {attributes : List Attribute}
    (h : method.code? = some (body, attributes)) : .code body attributes ∈ method.attributes := by
  obtain ⟨attr, hattr, h⟩ := List.exists_of_findSome?_eq_some h
  cases attr with
  | code b as =>
      obtain ⟨rfl, rfl⟩ := Prod.mk.inj (Option.some.inj h)
      exact hattr
  | _ => cases h

theorem Member.shows_bodyRows (valid : pool.Valid) (options : Options) {method : Member}
    (href : ∀ attr : Attribute, attr.Within method.attributes → attr.References pool) :
    Shows (method.bodyRows pool options) (method.bodyPlan pool options) := by
  rw [bodyRows, bodyPlan]
  by_cases hcode : options.code = true
  · rw [if_pos hcode, if_pos hcode]
    cases hbody : method.code? with
    | none => exact shows_empty
    | some p =>
        have hmem := mem_of_code?_eq_some hbody
        exact CodeBody.shows_rows valid options (href _ (.here hmem))
          fun attr hattr => href attr (.inCode hmem (.here hattr))
  · rw [if_neg hcode, if_neg hcode]
    exact shows_empty

theorem Member.shows_methodRows (valid : pool.Valid) (options : Options) {method : Member}
    (hname : pool.HasKind [.utf8] method.name) (hdesc : pool.HasKind [.utf8] method.descriptor)
    (href : ∀ attr : Attribute, attr.Within method.attributes → attr.References pool) :
    Shows (method.methodRows pool options) (method.methodPlan pool options) := by
  obtain ⟨comments, hcomments, hfollows⟩ :=
    Attribute.shows_comments options (by decide : Clean "  ") true fun attr h => href attr (.here h)
  obtain ⟨name, hname, hn⟩ := Pool.says_utf8 hname
  obtain ⟨descriptor, hdescriptor, hd⟩ := Pool.says_utf8 hdesc
  obtain ⟨clauses, hclauses, -, hc⟩ :=
    shows_mapM fun attr hattr => says_throwsClause valid (href attr (.here hattr))
  obtain ⟨body, hbody, hfollows'⟩ := shows_bodyRows valid options href
  have haccess : Follows [accessRow "  " .method method.access] (.row []) :=
    follows_row (by simpa using clean_accessRow (by decide) .method method.access)
  have hrow : Follows ["  " ++ modifiers .method method.access ++ name ++ descriptor ++
      String.join clauses] (.row (pool.textAt method.name :: pool.textAt method.descriptor ::
        method.attributes.flatMap (thrownTexts pool))) := by
    have hgap : Clean "  " := by decide
    apply follows_row
    rw [List.forall_mem_singleton] at hd hn
    rw [List.forall_mem_cons, List.forall_mem_cons, ← hd, ← hn, ← hc]
    simp only [clean_append, clean_modifiers, clean_join, hgap, true_and, and_assoc]
  refine ⟨_, ?_, ((haccess.append hfollows).append hrow).append hfollows'⟩
  rw [methodRows, hcomments, hname, hdescriptor, hclauses, hbody]
  simp only [List.append_assoc]
  rfl

theorem Member.follows_block {heading : String} (h : Clean heading) {members : List (List String)}
    {plans : List Plan} (hmembers : List.Forall₂ Follows members plans) :
    Follows (block heading members) (blockPlan plans) := by
  have hheading : Follows ["", heading] ⟨2, []⟩ :=
    follows_clean (List.forall_mem_cons.2 ⟨by decide, List.forall_mem_singleton.2 h⟩)
  refine hheading.append ?_
  cases hmembers with
  | nil => exact follows_row (by decide)
  | cons hfirst hothers =>
      have hblock := follows_intercalate hfirst hothers
      rw [hothers.length_eq] at hblock
      exact hblock

theorem InnerClass.says_row (valid : pool.Valid) {entry : InnerClass}
    (h : pool.HasKind [.classRef] entry.inner ∧
      (entry.outer ≠ 0 → pool.HasKind [.classRef] entry.outer) ∧
      (entry.name ≠ 0 → pool.HasKind [.utf8] entry.name)) :
    Says (entry.row pool) (entry.texts pool) := by
  have hrow : entry.row pool = .ok ("    " ++ modifiers .innerClass entry.access ++
      pool.nameAt entry.inner ++ (if entry.name = 0 then "" else " = " ++ pool.textAt entry.name) ++
      if entry.outer = 0 then "" else " of " ++ pool.nameAt entry.outer) := by
    obtain ⟨hinner, houter, hname⟩ := h
    rw [row, Pool.className_eq_nameAt valid hinner]
    by_cases hn : entry.name = 0
    · by_cases ho : entry.outer = 0
      · simp only [if_pos hn, if_pos ho]
        rfl
      · simp only [if_pos hn, if_neg ho, Pool.className_eq_nameAt valid (houter ho)]
        rfl
    · by_cases ho : entry.outer = 0
      · simp only [if_neg hn, if_pos ho, Pool.utf8_eq_textAt (hname hn)]
        rfl
      · simp only [if_neg hn, if_neg ho, Pool.utf8_eq_textAt (hname hn),
          Pool.className_eq_nameAt valid (houter ho)]
        rfl
  have hgap : Clean "    " := by decide
  refine ⟨_, hrow, ?_⟩
  rw [texts, List.forall_mem_append, List.forall_mem_cons]
  simp only [clean_append, clean_modifiers, clean_optional (by decide : Clean " = "),
    clean_optional (by decide : Clean " of "), hgap, true_and]

namespace ClassFile

variable {c : ClassFile}

theorem clean_versionRow (c : ClassFile) : Clean c.versionRow := by
  unfold versionRow
  simp only [clean_append, clean_natural, and_true]
  decide

theorem holds_of_mem {attr : Attribute} (h : attr ∈ c.attributes) : c.Holds attr := .inl (.here h)

theorem hasKind_of_sourceFile (h : c.References) {name : UInt16}
    (hfind : c.attributes.findSome? (fun | .sourceFile name => some name | _ => none) = some name) :
    c.pool.HasKind [.utf8] name := by
  obtain ⟨attr, hattr, hsome⟩ := List.exists_of_findSome?_eq_some hfind
  cases attr with
  | sourceFile index =>
      obtain rfl := Option.some.inj hsome
      exact h.attributes _ (holds_of_mem hattr)
  | _ => cases hsome

theorem sourceFile?_eq (h : c.References) :
    c.sourceFile? = .ok ((c.attributes.findSome?
      (fun | .sourceFile name => some name | _ => none)).map c.pool.textAt) := by
  rw [sourceFile?]
  cases hfind : c.attributes.findSome? (fun | .sourceFile name => some name | _ => none) with
  | none => rfl
  | some name =>
      dsimp only
      rw [Pool.utf8_eq_textAt (hasKind_of_sourceFile h hfind)]
      rfl

theorem shows_sourceRows (options : Options) (h : c.References) :
    Shows (c.sourceRows options) (c.sourcePlan options) := by
  rw [sourceRows, sourcePlan, sourceFile?_eq h]
  by_cases hdebug : options.debugInfo = true
  · rw [if_pos hdebug, if_pos hdebug]
    cases c.attributes.findSome? (fun | .sourceFile name => some name | _ => none) with
    | none => exact shows_empty
    | some name =>
        refine shows_pure (follows_row ?_)
        rw [clean_after (by decide), List.forall_mem_singleton]
  · rw [if_neg hdebug, if_neg hdebug]
    exact shows_empty

theorem superClassName?_eq (valid : c.pool.Valid) (h : c.References) :
    c.superClassName? = .ok (if c.superClass = 0 then none else some (c.pool.nameAt c.superClass)) := by
  rw [superClassName?]
  by_cases hzero : c.superClass = 0
  · rw [if_pos hzero, if_pos hzero]
    rfl
  · rw [if_neg hzero, if_neg hzero, Pool.className_eq_nameAt valid (h.superClass hzero)]
    rfl

theorem says_parents (valid : c.pool.Valid) (h : c.References) : Says c.parents c.parentTexts := by
  rw [parents, interfaceNames, mapM_className valid h.interfaces, superClassName?_eq valid h, parentTexts]
  cases ClassKind.ofFlags c.access with
  | interface | annotationType =>
      refine ⟨_, rfl, ?_⟩
      rw [clean_listed (by decide), List.append_nil]
  | module | enum | plain =>
      by_cases hzero : c.superClass = 0
      · rw [if_pos hzero, if_pos hzero]
        refine ⟨_, rfl, ?_⟩
        rw [clean_listed (by decide), List.append_nil]
      · rw [if_neg hzero, if_neg hzero]
        refine ⟨_, rfl, ?_⟩
        rw [clean_append, clean_append, clean_listed (by decide), List.forall_mem_append,
          List.forall_mem_singleton]
        exact ⟨fun h => ⟨h.2, h.1.2⟩, fun h => ⟨⟨by decide, h.2⟩, h.1⟩⟩

theorem says_declaration (valid : c.pool.Valid) (h : c.References) :
    Says c.declaration (c.pool.nameAt c.thisClass :: c.parentTexts) := by
  refine (Pool.says_className valid h.thisClass).map₂ (says_parents valid h) fun name parents => ?_
  have hblank : Clean " " := by decide
  simp only [clean_append, clean_modifiers, clean_classKeyword, hblank, true_and]

theorem shows_attributeRows (valid : c.pool.Valid) {attr : Attribute} (h : attr.References c.pool) :
    Shows (attributeRows c.pool attr) (attributePlan c.pool attr) := by
  cases attr with
  | innerClasses entries =>
      exact (shows_mapM fun entry hentry => InnerClass.says_row valid (h entry hentry)).under
        ["  InnerClasses:"] (by decide)
  | unknown name info =>
      exact shows_pure (follows_row (Attribute.clean_unknownRow (by decide) name info))
  | _ => exact shows_empty

theorem shows_headerRows (valid : c.pool.Valid) (options : Options) (h : c.References) :
    Shows (c.headerRows options) (c.headerPlan options) := by
  have href (attr : Attribute) (hattr : attr ∈ c.attributes) : attr.References c.pool :=
    h.attributes attr (holds_of_mem hattr)
  obtain ⟨comments, hcomments, hfollows⟩ :=
    Attribute.shows_comments options (by decide : Clean "") false href
  obtain ⟨source, hsource, hfollows'⟩ := shows_sourceRows options h
  obtain ⟨declaration, hdeclaration, hclean⟩ := says_declaration valid h
  obtain ⟨below, hbelow, hparts⟩ :=
    exists_parts fun attr hattr => shows_attributeRows valid (href attr hattr)
  have hfirst : Follows [c.versionRow, accessRow "" .classFile c.access] ⟨2, []⟩ :=
    follows_clean (List.forall_mem_cons.2 ⟨c.clean_versionRow, List.forall_mem_singleton.2
      (clean_accessRow (by decide) .classFile c.access)⟩)
  refine ⟨_, ?_, (((hfirst.append hfollows).append hfollows').append (follows_row hclean)).append
    (follows_flatten hparts)⟩
  rw [headerRows, hcomments, hsource, hdeclaration, hbelow]
  simp only [List.append_assoc]
  rfl

theorem shows_fieldsRows (valid : c.pool.Valid) (options : Options) (h : c.References) :
    Shows (c.fieldsRows options)
      (Member.blockPlan (c.fields.map (Member.fieldPlan c.pool options))) := by
  obtain ⟨parts, hparts, hfollows⟩ := exists_parts fun field hfield =>
    have hmem : field ∈ c.fields ++ c.methods := List.mem_append_left _ hfield
    Member.shows_fieldRows valid options (h.members field hmem).1 (h.members field hmem).2
      fun attr hattr => h.attributes attr (.inr ⟨field, hmem, .here hattr⟩)
  refine ⟨_, ?_, Member.follows_block (by decide : Clean "Fields:") hfollows⟩
  rw [fieldsRows, hparts]
  rfl

theorem shows_methodsRows (valid : c.pool.Valid) (options : Options) (h : c.References) :
    Shows (c.methodsRows options)
      (Member.blockPlan (c.methods.map (Member.methodPlan c.pool options))) := by
  obtain ⟨parts, hparts, hfollows⟩ := exists_parts fun method hmethod =>
    have hmem : method ∈ c.fields ++ c.methods := List.mem_append_right _ hmethod
    Member.shows_methodRows valid options (h.members method hmem).1 (h.members method hmem).2
      fun attr hw => h.attributes attr (.inr ⟨method, hmem, hw⟩)
  refine ⟨_, ?_, Member.follows_block (by decide : Clean "Methods:") hfollows⟩
  rw [methodsRows, hparts]
  rfl

theorem shows_rows (valid : c.pool.Valid) (hsize : c.pool.size ≤ 65536) (options : Options)
    (h : c.References) : Shows (c.rows options) (c.plan options) := by
  obtain ⟨header, hheader, hfollows⟩ := shows_headerRows valid options h
  obtain ⟨fields, hfields, hfollows'⟩ := shows_fieldsRows valid options h
  obtain ⟨methods, hmethods, hfollows''⟩ := shows_methodsRows valid options h
  rw [rows, hheader, plan]
  by_cases hpool : options.constantPool = true
  · obtain ⟨entries, hentries, hfollows₃⟩ := Pool.shows_rows valid hsize
    simp only [if_pos hpool, hentries, hfields, hmethods]
    exact ⟨_, rfl, ((hfollows.append hfollows₃).append hfollows').append hfollows''⟩
  · have hnone : Follows [] .empty := follows_clean (by simp)
    simp only [if_neg hpool, hfields, hmethods]
    exact ⟨_, rfl, ((hfollows.append hnone).append hfollows').append hfollows''⟩

end ClassFile

end ClassListing
