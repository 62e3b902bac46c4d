import TypedClient.Operation.Build
import TypedClient.Proofs.Schema.References

/-!
# The schemas of a document

`d.Declares s` says that `s` is a schema which the document declares: a component, or the
schema of a parameter, a request body or a response, shared or not. Following references
ends at a declared item (`inline_mem_itemsOf`), so that every schema which an operation
is built from is declared.
-/

namespace TypedClient.Document

/-! ## Items -/

/-- The items that a document declares for a kind of components: the shared ones, and those that
its operations list. -/
def itemsOf {α : Type} (shared : Components → List (String × RefOr α))
    (used : PathItem → List (RefOr α)) (d : Document) : List (RefOr α) :=
  ((d.components.map shared).getD []).map (·.2) ++ d.paths.flatMap fun (_, item) => used item

/-- The parameters, shared or listed by a path or an operation. -/
def parameterItems : Document → List (RefOr Parameter) :=
  itemsOf (·.parameters) fun item =>
    item.parameters ++ item.operations.flatMap fun (_, op) => op.parameters

/-- The request bodies, shared or of an operation. -/
def requestBodyItems : Document → List (RefOr RequestBody) :=
  itemsOf (·.requestBodies) fun item =>
    item.operations.flatMap fun (_, op) => op.requestBody.toList

/-- The responses, shared or of an operation. -/
def responseItems : Document → List (RefOr Response) :=
  itemsOf (·.responses) fun item =>
    item.operations.flatMap fun (_, op) => op.responses.map (·.2)

/-- Following references ends at an item itself, the one that is given or a shared one. -/
theorem inline_of_followIn {α : Type} {table : Option (List (String × RefOr α))} {places : Nat}
    {item : RefOr α} {value : α} (h : followIn table places item = some value) :
    item = .inline value ∨ RefOr.inline value ∈ (table.getD []).map (·.2) := by
  induction places generalizing item with
  | zero => cases h
  | succ places ih =>
      cases item with
      | inline other =>
          rw [followIn, Option.some.injEq] at h
          exact .inl (congrArg _ h)
      | ref target =>
          cases table with
          | none => simp [followIn] at h
          | some entries =>
              simp only [followIn, Option.bind_some] at h
              split at h
              · rename_i next hlookup
                have hnext : next ∈ entries.map (·.2) := by
                  obtain ⟨before, after, heq, _⟩ := List.lookup_eq_some_iff.1 hlookup
                  simp [heq]
                rcases ih h with rfl | hmem
                · exact .inr hnext
                · exact .inr hmem
              · cases h

/-- Following references from a declared item ends at a declared item. -/
theorem inline_mem_itemsOf {α : Type} {shared : Components → List (String × RefOr α)}
    {used : PathItem → List (RefOr α)} {d : Document} {places : Nat} {item : RefOr α} {value : α}
    (hitem : item ∈ itemsOf shared used d)
    (h : followIn (d.components.map shared) places item = some value) :
    RefOr.inline value ∈ itemsOf shared used d := by
  rcases inline_of_followIn h with rfl | hmem
  · exact hitem
  · exact List.mem_append_left _ hmem

/-- What an operation of the document lists is declared. -/
theorem mem_itemsOf_of_mem_paths {α : Type} {shared : Components → List (String × RefOr α)}
    {used : PathItem → List (RefOr α)} {d : Document} {path : String} {entry : PathItem}
    {item : RefOr α} (hpath : (path, entry) ∈ d.paths) (h : item ∈ used entry) :
    item ∈ itemsOf shared used d :=
  List.mem_append_right _ (List.mem_flatMap.2 ⟨(path, entry), hpath, h⟩)

/-! ## Schemas -/

/-- A media type of a content has the schema. -/
def Content.Has (content : Content) (s : Schema) : Prop :=
  ∃ mediaType media, (mediaType, media) ∈ content ∧ media.schema = some s

/-- The document declares the schema. -/
inductive Declares (d : Document) : Schema → Prop
  | component (key s) : (key, s) ∈ d.schemas → Declares d s
  | parameter (p s) : RefOr.inline p ∈ d.parameterItems → p.schema = some s → Declares d s
  | parameterContent (p content s) : RefOr.inline p ∈ d.parameterItems →
      p.content = some content → content.Has s → Declares d s
  | requestBody (body s) : RefOr.inline body ∈ d.requestBodyItems → body.content.Has s →
      Declares d s
  | response (response s) : RefOr.inline response ∈ d.responseItems → response.content.Has s →
      Declares d s

/-- Every `$ref` in a schema ends in the written key of a component. -/
def ReferencesResolve (d : Document) : Prop :=
  ∀ s, d.Declares s → ∀ ref, s.Mentions ref →
    ∃ key ∈ d.schemas.map (·.1), Pointer.lastSegment ref.toList = Pointer.escape key.toList

end TypedClient.Document

namespace TypedClient.Operation

open Document (RefOr Parameter)

/-- The schema that stands for a content is that of its media type. -/
theorem mem_of_preferred? {content : Document.Content} {mediaType : String} {s : Schema}
    (h : preferred? content = some (mediaType, s)) :
    ∃ media, (mediaType, media) ∈ content ∧ media.schema = some s := by
  rw [preferred?, Option.or_eq_some_iff] at h
  rcases h with h | ⟨_, h⟩
  · obtain ⟨wanted, _, hschema⟩ := List.exists_of_findSome?_eq_some h
    obtain ⟨media, hlookup, hmedia⟩ := Option.bind_eq_some_iff.1 hschema
    obtain ⟨before, after, heq, _⟩ := List.lookup_eq_some_iff.1 hlookup
    obtain ⟨_, hs, hpair⟩ := Option.map_eq_some_iff.1 hmedia
    cases hpair
    exact ⟨media, by simp [heq], hs⟩
  · obtain ⟨⟨name, media⟩, hmem, hmedia⟩ := List.exists_of_findSome?_eq_some h
    obtain ⟨_, hs, hpair⟩ := Option.map_eq_some_iff.1 hmedia
    cases hpair
    exact ⟨media, hmem, hs⟩

/-- The schema that stands for a content is one of its own. -/
theorem has_of_preferred? {content : Document.Content} {mediaType : String} {s : Schema}
    (h : preferred? content = some (mediaType, s)) : content.Has s :=
  ⟨mediaType, mem_of_preferred? h⟩

/-- A merged parameter stands behind an item of the path or of the operation. -/
theorem exists_item_of_mem_mergeParameters {d : Document} {shared own : List (RefOr Parameter)}
    {p : Parameter} (h : p ∈ mergeParameters d shared own) :
    ∃ item ∈ shared ++ own, d.parameter? item = some p := by
  have hfold : ∀ (ps merged : List Parameter),
      p ∈ ps.foldl (fun merged q => merged.filter (!sameParameter · q) ++ [q]) merged →
        p ∈ merged ∨ p ∈ ps := by
    intro ps
    induction ps with
    | nil => exact fun merged hp => .inl hp
    | cons q ps ih =>
        intro merged hp
        rcases ih _ hp with hp | hp
        · rcases List.mem_append.1 hp with hp | hp
          · exact .inl (List.mem_of_mem_filter hp)
          · exact .inr (by simp [List.mem_singleton.1 hp])
        · exact .inr (List.mem_cons_of_mem _ hp)
  rcases hfold _ _ h with hp | hp
  · obtain ⟨item, hitem, heq⟩ := List.mem_filterMap.1 hp
    exact ⟨item, List.mem_append_left _ hitem, heq⟩
  · obtain ⟨item, hitem, heq⟩ := List.mem_filterMap.1 hp
    exact ⟨item, List.mem_append_right _ hitem, heq⟩

/-- The schema of a declared parameter is declared. -/
theorem declares_of_schemaOf? {d : Document} {p : Parameter} {s : Schema}
    (hp : RefOr.inline p ∈ d.parameterItems) (h : schemaOf? p = some s) : d.Declares s := by
  rw [schemaOf?, Option.or_eq_some_iff] at h
  rcases h with h | ⟨_, h⟩
  · exact .parameter p s hp h
  · obtain ⟨⟨mediaType, found⟩, hfound, hs⟩ := Option.map_eq_some_iff.1 h
    obtain ⟨content, hcontent, hpreferred⟩ := Option.bind_eq_some_iff.1 hfound
    cases hs
    exact .parameterContent p content found hp hcontent (has_of_preferred? hpreferred)

end TypedClient.Operation
