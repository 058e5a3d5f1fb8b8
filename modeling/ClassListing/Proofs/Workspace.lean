import ClassListing.Proofs.NameMap
import ClassListing.Workspace

namespace ClassListing

open NameMap (last?)

namespace Operation

def isWrite : Operation → Bool
  | insert _ _ | replace _ | register _ => true
  | _ => false

/-- The bindings that were written to the batch since it was last replaced, from the earliest on. -/
def written (bindings : List (String × Bytes)) : Operation → List (String × Bytes)
  | insert name bytes => bindings ++ [(name, bytes)]
  | replace others => others
  | _ => bindings

def registered (engines : List (String × Engine)) : Operation → List (String × Engine)
  | register engine => engines ++ [(engine.name, engine)]
  | _ => engines

end Operation

theorem Registry.eq_of_engines {r s : Registry} (h : r.engines = s.engines) : r = s := by
  cases r
  cases s
  cases h
  rfl

namespace Workspace

def afterAll (start : Workspace) (history : List Operation) : Workspace :=
  history.foldl after start

def bindings (start : Workspace) (history : List Operation) : List (String × Bytes) :=
  history.foldl Operation.written start.sources.entries

def registrations (start : Workspace) (history : List Operation) : List (String × Engine) :=
  history.foldl Operation.registered start.registry.engines.entries

def Holds (w : Workspace) (bindings : List (String × Bytes)) (engines : List (String × Engine)) : Prop :=
  w.sources = .ofList bindings ∧ w.registry.engines = .ofList engines

theorem Holds.after {w : Workspace} {bindings : List (String × Bytes)} {engines : List (String × Engine)}
    (h : w.Holds bindings engines) (operation : Operation) :
    (w.after operation).Holds (operation.written bindings) (operation.registered engines) := by
  obtain ⟨hsources, hengines⟩ := h
  -- only three operations write, each to one of the two maps
  cases operation with
  | insert name bytes =>
      refine ⟨?_, hengines⟩
      rw [Operation.written, NameMap.ofList_append, ← hsources]
      rfl
  | replace others => exact ⟨rfl, hengines⟩
  | register engine =>
      refine ⟨hsources, ?_⟩
      rw [Operation.registered, NameMap.ofList_append, ← hengines]
      rfl
  | _ => exact ⟨hsources, hengines⟩

theorem Holds.afterAll {w : Workspace} {bindings : List (String × Bytes)}
    {engines : List (String × Engine)} (h : w.Holds bindings engines) (history : List Operation) :
    (w.afterAll history).Holds (history.foldl Operation.written bindings)
      (history.foldl Operation.registered engines) := by
  induction history generalizing w bindings engines with
  | nil => exact h
  | cons operation rest ih => exact ih (h.after operation)

theorem holds_afterAll (start : Workspace) (history : List Operation) :
    (start.afterAll history).Holds (start.bindings history) (start.registrations history) := by
  have hstart : start.Holds start.sources.entries start.registry.engines.entries :=
    ⟨(NameMap.ofList_entries _).symm, (NameMap.ofList_entries _).symm⟩
  exact hstart.afterAll history

theorem after_of_query (w : Workspace) {operation : Operation} (h : operation.isWrite = false) :
    w.after operation = w := by
  cases operation with
  | insert | replace | register => cases h
  | _ => rfl

theorem afterAll_filter_isWrite (start : Workspace) (history : List Operation) :
    start.afterAll (history.filter Operation.isWrite) = start.afterAll history := by
  induction history generalizing start with
  | nil => rfl
  | cons operation rest ih =>
      cases hwrite : operation.isWrite with
      | false =>
          rw [List.filter_cons_of_neg (by rw [hwrite]; exact Bool.false_ne_true), ih]
          exact congrArg (·.afterAll rest) (start.after_of_query hwrite).symm
      | true =>
          rw [List.filter_cons_of_pos hwrite]
          exact ih (start.after operation)

theorem getElem?_run (start : Workspace) (before : List Operation) (operation : Operation)
    (rest : List Operation) :
    (start.run (before ++ operation :: rest))[before.length]? =
      some ((start.afterAll before).reply operation, (start.afterAll before).after operation) := by
  induction before generalizing start with
  | nil => rfl
  | cons first before ih => exact ih (start.after first)

/-- The workspace answers for a history: each name has the value last written to it. -/
structure AnswersFor (start : Workspace) (history : List Operation) (w : Workspace) : Prop where
  ascending : w.sources.names.Pairwise fun a b => utf8Bytes a < utf8Bytes b
  get : ∀ name, w.reply (.get name) = .bytes (last? (start.bindings history) name)
  contains : ∀ name, w.reply (.contains name) = .truth (last? (start.bindings history) name).isSome
  insert : ∀ name bytes,
    w.reply (.insert name bytes) = .bytes (last? (start.bindings history) name)
  size : w.sources.size = ((start.bindings history).map (·.1)).toFinset.card
  engines_ascending : w.registry.names.Pairwise fun a b => utf8Bytes a < utf8Bytes b
  engine_named : ∀ name engine, w.registry.get? name = some engine → engine.name = name
  resolve : ∀ name, w.reply (.resolve name) =
    .engine (match last? (start.registrations history) name with
      | some engine => .ok engine
      | none => .error ⟨name, w.registry.names⟩)

theorem answersFor_afterAll (start : Workspace) (history : List Operation) :
    start.AnswersFor history (start.afterAll history) := by
  obtain ⟨hsources, hengines⟩ := start.holds_afterAll history
  have hget (name : String) : (start.afterAll history).sources.get? name =
      last? (start.bindings history) name := by
    rw [hsources, NameMap.get?_ofList]
  have hengine (name : String) : (start.afterAll history).registry.get? name =
      last? (start.registrations history) name := by
    rw [Registry.get?, hengines, NameMap.get?_ofList]
  constructor
  · simp only [Utf8.utf8Bytes_lt_iff]
    exact NameMap.pairwise_names _
  · intro name
    rw [← hget]
    rfl
  · intro name
    rw [← hget]
    rfl
  · intro name bytes
    rw [← hget]
    rfl
  · rw [hsources, NameMap.size_ofList]
  · simp only [Utf8.utf8Bytes_lt_iff]
    exact NameMap.pairwise_names _
  · intro name engine hname
    exact (start.afterAll history).registry.named (name, engine) (NameMap.mem_entries.2 hname)
  · intro name
    rw [← hengine]
    rfl

section SameLastValues

variable {start other : Workspace} {history history' : List Operation}

theorem sources_eq_of_last?
    (h : ∀ name, last? (start.bindings history) name = last? (other.bindings history') name) :
    (start.afterAll history).sources = (other.afterAll history').sources := by
  rw [(start.holds_afterAll history).1, (other.holds_afterAll history').1]
  exact NameMap.ofList_eq_of_last? h

theorem registry_eq_of_last?
    (h : ∀ name, last? (start.registrations history) name = last? (other.registrations history') name) :
    (start.afterAll history).registry = (other.afterAll history').registry := by
  apply Registry.eq_of_engines
  rw [(start.holds_afterAll history).2, (other.holds_afterAll history').2]
  exact NameMap.ofList_eq_of_last? h

end SameLastValues

/-- Whatever the history, a workspace answers for it. Operations that only ask leave it as it is, and
of those that write only the last value for each name counts, so their order does not matter. -/
theorem afterAll_answers (start : Workspace) (history : List Operation) :
    start.AnswersFor history (start.afterAll history) ∧
      (∀ operation rest, (start.run (history ++ operation :: rest))[history.length]? =
        some ((start.afterAll history).reply operation, (start.afterAll history).after operation)) ∧
      (∀ operation : Operation, operation.isWrite = false →
        (start.afterAll history).after operation = start.afterAll history) ∧
      start.afterAll (history.filter Operation.isWrite) = start.afterAll history ∧
      (∀ bindings others : List (String × Bytes), bindings.Perm others → (bindings.map (·.1)).Nodup →
        (start.afterAll history).after (.replace bindings) =
          (start.afterAll history).after (.replace others)) ∧
      ∀ (other : Workspace) (history' : List Operation),
        (∀ name, last? (start.bindings history) name = last? (other.bindings history') name) →
          (start.afterAll history).sources = (other.afterAll history').sources ∧
          (∀ engine, ClassListing.disassemble engine (start.afterAll history).sources =
            ClassListing.disassemble engine (other.afterAll history').sources) ∧
          ((∀ name, last? (start.registrations history) name =
              last? (other.registrations history') name) →
            start.afterAll history = other.afterAll history') := by
  refine ⟨start.answersFor_afterAll history, start.getElem?_run history, fun operation hquery => ?_,
    start.afterAll_filter_isWrite history, fun bindings others hperm hnames => ?_,
    fun other history' hlast => ?_⟩
  · exact after_of_query _ hquery
  · rw [after, after, NameMap.ofList_eq_of_perm hperm hnames]
  · have hsources := sources_eq_of_last? hlast
    refine ⟨hsources, fun engine => by rw [hsources], fun hengines => ?_⟩
    exact congrArg₂ Workspace.mk hsources (registry_eq_of_last? hengines)

end Workspace

end ClassListing
