import ClassListing.Proofs.Listing.Options

namespace ClassListing

namespace Attribute

mutual

/-- The attribute with zeros in place of the bytes of every body that is kept unread. -/
def masked : Attribute → Attribute
  | code body inside => code body (maskedAll inside)
  | unknown name info => unknown name (List.replicate info.length 0)
  | other => other

def maskedAll : List Attribute → List Attribute
  | [] => []
  | attr :: rest => attr.masked :: maskedAll rest

end

theorem maskedAll_eq (attributes : List Attribute) : maskedAll attributes = attributes.map masked := by
  induction attributes with
  | nil => rfl
  | cons attr rest ih => rw [maskedAll, ih, List.map_cons]

theorem masked_unknown (name : String) {info other : Bytes} (h : other.length = info.length) :
    (unknown name other).masked = (unknown name info).masked := by
  rw [masked, masked, h]

theorem sizeText_replicate (info : Bytes) : sizeText (List.replicate info.length 0) = sizeText info := by
  rw [sizeText, sizeText, List.length_replicate]

/-- The function looks at an unread body by its length only, and not at what stands inside of code. -/
structure Shallow {β : Type} (f : Attribute → β) : Prop where
  inside : ∀ body inside others, f (code body inside) = f (code body others)
  info : ∀ name info, f (unknown name (List.replicate info.length 0)) = f (unknown name info)

theorem Shallow.comp_masked {β : Type} {f : Attribute → β} (h : Shallow f) : f ∘ masked = f := by
  funext attr
  cases attr with
  | code body inside =>
      rw [Function.comp_apply, masked]
      exact h.inside body _ inside
  | unknown name info =>
      rw [Function.comp_apply, masked]
      exact h.info name info
  | _ => rfl

theorem mapM_masked {β : Type} {f : Attribute → Except Fault β} (h : Shallow f)
    (attributes : List Attribute) : (attributes.map masked).mapM f = attributes.mapM f := by
  rw [List.mapM_map, h.comp_masked]

variable (pool : Pool) (options : Options)

theorem shallow_comment (indent : String) (onMember : Bool) :
    Shallow (comment pool options indent onMember) where
  inside _ _ _ := rfl
  info name info := by rw [comment, comment, unknownRow, unknownRow, sizeText_replicate]

theorem shallow_rowsInCode : Shallow (rowsInCode pool options) where
  inside _ _ _ := rfl
  info name info := by rw [rowsInCode, rowsInCode, sizeText_replicate]

theorem comments_masked (indent : String) (onMember : Bool) (attributes : List Attribute) :
    comments pool options indent onMember (attributes.map masked) =
      comments pool options indent onMember attributes := by
  rw [comments, comments, mapM_masked (shallow_comment pool options indent onMember)]

end Attribute

namespace Member

variable (pool : Pool) (options : Options)

def masked (x : Member) : Member := { x with attributes := x.attributes.map Attribute.masked }

theorem fieldRows_masked (field : Member) :
    field.masked.fieldRows pool options = field.fieldRows pool options := by
  have hcomments := Attribute.comments_masked pool options "  " true field.attributes
  have hvalues := Attribute.mapM_masked (f := initialValue pool) ⟨fun _ _ _ => rfl, fun _ _ => rfl⟩
    field.attributes
  simp only [fieldRows, masked, hcomments, hvalues]

theorem code?_masked (method : Member) :
    method.masked.code? = method.code?.map fun found => (found.1, found.2.map Attribute.masked) := by
  obtain ⟨access, name, descriptor, attributes⟩ := method
  rw [masked, code?, code?]
  dsimp only
  induction attributes with
  | nil => rfl
  | cons attr rest ih =>
      rw [List.map_cons]
      cases attr with
      | code body inside =>
          rw [Attribute.masked, Attribute.maskedAll_eq]
          rfl
      | _ => exact ih

theorem bodyRows_masked (method : Member) :
    method.masked.bodyRows pool options = method.bodyRows pool options := by
  rw [bodyRows, bodyRows, code?_masked]
  cases method.code? with
  | none => rfl
  | some found =>
      rw [Option.map_some]
      simp only [CodeBody.rows, Attribute.mapM_masked (Attribute.shallow_rowsInCode pool options)]

theorem methodRows_masked (method : Member) :
    method.masked.methodRows pool options = method.methodRows pool options := by
  have hcomments := Attribute.comments_masked pool options "  " true method.attributes
  have hclauses := Attribute.mapM_masked (f := throwsClause pool) ⟨fun _ _ _ => rfl, fun _ _ => rfl⟩
    method.attributes
  have hbody := bodyRows_masked pool options method
  simp only [methodRows, hbody]
  simp only [masked, hcomments, hclauses]

end Member

namespace ClassFile

variable {options : Options}

def masked (c : ClassFile) : ClassFile :=
  { c with
    fields := c.fields.map Member.masked
    methods := c.methods.map Member.masked
    attributes := c.attributes.map Attribute.masked }

theorem sourceFile?_masked (c : ClassFile) : c.masked.sourceFile? = c.sourceFile? := by
  simp only [sourceFile?, masked]
  rw [List.findSome?_map, Attribute.Shallow.comp_masked]
  exact ⟨fun _ _ _ => rfl, fun _ _ => rfl⟩

theorem shallow_attributeRows (pool : Pool) : Attribute.Shallow (attributeRows pool) where
  inside _ _ _ := rfl
  info name info := by
    rw [attributeRows, attributeRows, Attribute.unknownRow, Attribute.unknownRow,
      Attribute.sizeText_replicate]

theorem headerRows_masked (c : ClassFile) : c.masked.headerRows options = c.headerRows options := by
  have hcomments := Attribute.comments_masked c.pool options "" false c.attributes
  have hbelow := Attribute.mapM_masked (shallow_attributeRows c.pool) c.attributes
  have hsource : c.masked.sourceRows options = c.sourceRows options := by
    rw [sourceRows, sourceRows, sourceFile?_masked]
  have hdeclaration : c.masked.declaration = c.declaration := rfl
  simp only [headerRows, hsource, hdeclaration]
  simp only [masked, hcomments, hbelow]
  rfl

theorem fieldsRows_masked (c : ClassFile) : c.masked.fieldsRows options = c.fieldsRows options := by
  have hrows : Member.fieldRows c.pool options ∘ Member.masked = Member.fieldRows c.pool options :=
    funext (Member.fieldRows_masked c.pool options)
  rw [fieldsRows, fieldsRows, masked, List.mapM_map, hrows]

theorem methodsRows_masked (c : ClassFile) : c.masked.methodsRows options = c.methodsRows options := by
  have hrows : Member.methodRows c.pool options ∘ Member.masked = Member.methodRows c.pool options :=
    funext (Member.methodRows_masked c.pool options)
  rw [methodsRows, methodsRows, masked, List.mapM_map, hrows]

/-- The listing shows nothing of an unread body but its length. -/
theorem listing_masked (options : Options) (c : ClassFile) :
    c.masked.listing options = c.listing options := by
  rw [listing, listing, rows, rows, headerRows_masked, fieldsRows_masked, methodsRows_masked]
  rfl

end ClassFile

end ClassListing
