import TypedClient.Proofs.Naming.ValueName
import TypedClient.Proofs.Operation.Sources

/-!
# The names in an operation

An operation and its arguments are named like values (`isValueName_nameFor`,
`Declaration.isValueName_of_mem_arguments`), and so is every placeholder. So what an operation is
called in the code, its hook and its arguments included, are words, and its path is written with
words only (`Named`). The operations that are built are so (`named_build`), and changing their
models or putting a number behind their names leaves them so.
-/

namespace TypedClient.Operation

open Naming (IsWord IsValueName)
open Document (Parameter)

/-- The arguments in all lists of an operation. -/
def allArguments (op : Operation) : List Argument :=
  op.arguments ++ op.pathArguments ++ op.queryArguments ++ op.headerArguments ++
    op.cookieArguments ++ op.bodyArgument.toList

theorem mem_allArguments {op : Operation} {a : Argument} :
    a ∈ op.allArguments ↔ a ∈ op.arguments ∨ a ∈ op.pathArguments ∨ a ∈ op.queryArguments ∨
      a ∈ op.headerArguments ∨ a ∈ op.cookieArguments ∨ a ∈ op.bodyArgument := by
  simp [allArguments]

theorem model_mem_of_mem_allArguments {op : Operation} {a : Argument} (h : a ∈ op.allArguments) :
    a.model ∈ op.models :=
  List.mem_append_left _ (List.mem_map_of_mem h)

theorem model_mem_of_mem_successes {op : Operation} {o : Outcome} (h : o ∈ op.successes) :
    o.model ∈ op.models := by
  refine List.mem_append_right _ (List.mem_map_of_mem ?_)
  exact List.mem_append_left _ (List.mem_append_right _ h)

/-- The names in an operation are words. -/
structure Named (op : Operation) : Prop where
  name : IsWord op.name
  hookName : IsWord op.hookName
  identifiers : ∀ a ∈ op.allArguments, IsWord a.identifier
  pathPattern : ∃ identifier : String → String, (∀ token, IsWord (identifier token)) ∧
    op.pathPattern = PathTemplate.literalWith identifier op.path

theorem allArguments_mapModels (f : Model → Model) (op : Operation) :
    (op.mapModels f).allArguments = op.allArguments.map (·.mapModel f) := by
  simp only [allArguments, mapModels, List.map_append, Option.toList_map]

theorem Named.mapModels {op : Operation} (h : op.Named) (f : Model → Model) :
    (op.mapModels f).Named where
  name := h.name
  hookName := h.hookName
  identifiers a ha := by
    rw [allArguments_mapModels] at ha
    obtain ⟨b, hb, rfl⟩ := List.mem_map.1 ha
    exact h.identifiers b hb
  pathPattern := h.pathPattern

theorem Named.refreshImports {op : Operation} (h : op.Named) : op.refreshImports.Named where
  name := h.name
  hookName := h.hookName
  identifiers := (h.mapModels Model.refreshImports).identifiers
  pathPattern := h.pathPattern

/-- The hook follows the name. -/
theorem isWord_hookName {name : String} (h : IsWord name) :
    IsWord ("use" ++ Text.capitalize name) := by
  have huse : "use".toList.all Naming.isNameChar = true := by decide
  exact IsWord.append (List.all_eq_true.1 huse) h.capitalize

/-! ## Names of values -/

/-- The name of an operation is the name of a value. -/
theorem isValueName_nameFor (operationId : Option String) (method : Method) (path : String) :
    IsValueName (nameFor operationId method path) := by
  unfold nameFor
  split <;> exact Naming.isValueName_valueName _

theorem isValueName_of_mem_assignIdentifiers {taken names : List String} {name : String}
    (h : name ∈ assignIdentifiers taken names) : IsValueName name := by
  rw [assignIdentifiers_eq] at h
  obtain ⟨other, _, others, rfl⟩ := Naming.exists_of_mem_uniques h
  exact (Naming.isValueName_valueName other).unique others

theorem isValueName_of_mem_identifiers {ps : List Parameter} {name : String}
    (h : name ∈ identifiers ps) : IsValueName name := by
  rcases List.mem_append.1 ((interleave_subperm ps _ _).subset h) with h | h
  · exact isValueName_of_mem_assignIdentifiers h
  · exact isValueName_of_mem_assignIdentifiers h

/-- A placeholder is written as the name of a value, with or without an argument for it. -/
theorem isValueName_placeholderIdentifier {inPath : List Argument}
    (h : ∀ a ∈ inPath, IsValueName a.identifier) (token : String) :
    IsValueName (placeholderIdentifier inPath token) := by
  unfold placeholderIdentifier
  split
  · rename_i a ha
    exact h a (List.mem_of_find?_eq_some ha)
  · exact Naming.isValueName_valueName token

namespace Declaration

variable (x : Declaration) (d : Document) (promotions : Model.Promotions)

theorem isValueName_of_mem_sent {built : Argument × List Model} (h : built ∈ x.sent d) :
    IsValueName built.1.identifier := by
  obtain ⟨pair, hpair, rfl⟩ := List.mem_map.1 h
  exact isValueName_of_mem_identifiers (List.of_mem_zip hpair).2

theorem isValueName_of_mem_body? {built : Argument × List Model} (h : built ∈ x.body? d) :
    IsValueName built.1.identifier := by
  have hbody : IsValueName "requestBody" :=
    ⟨List.all_eq_true.1 (by decide), ⟨'r', "equestBody".toList, by decide, by decide, by decide⟩,
      by decide⟩
  rw [Option.mem_def, body?_eq] at h
  obtain ⟨source, _, rfl⟩ := Option.map_eq_some_iff.1 h
  exact hbody.unique _

/-- The arguments of a declared operation are named like values. -/
theorem isValueName_of_mem_arguments {a : Argument} (h : a ∈ x.arguments d) :
    IsValueName a.identifier := by
  rcases List.mem_append.1 h with h | h
  · obtain ⟨built, hbuilt, rfl⟩ := List.mem_map.1 h
    exact x.isValueName_of_mem_sent d hbuilt
  · rw [Option.mem_toList] at h
    obtain ⟨built, hbuilt, rfl⟩ := Option.map_eq_some_iff.1 h
    exact x.isValueName_of_mem_body? d hbuilt

/-- The arguments in all lists are those that are built. -/
theorem allArguments_build :
    (x.build d promotions).1.allArguments =
      (requiredFirst (x.arguments d) ++ x.sentIn d .path ++ x.sentIn d .query ++
        x.sentIn d .header ++ x.sentIn d .cookie ++
        ((x.body? d).map (·.1)).toList).map (·.mapModel Model.refreshImports) := by
  have hall : (x.build d promotions).1.arguments =
      (requiredFirst (x.arguments d)).map (·.mapModel Model.refreshImports) := rfl
  have hpath : (x.build d promotions).1.pathArguments =
      (x.sentIn d .path).map (·.mapModel Model.refreshImports) := rfl
  have hquery : (x.build d promotions).1.queryArguments =
      (x.sentIn d .query).map (·.mapModel Model.refreshImports) := rfl
  have hheader : (x.build d promotions).1.headerArguments =
      (x.sentIn d .header).map (·.mapModel Model.refreshImports) := rfl
  have hcookie : (x.build d promotions).1.cookieArguments =
      (x.sentIn d .cookie).map (·.mapModel Model.refreshImports) := rfl
  have hbody : (x.build d promotions).1.bodyArgument =
      ((x.body? d).map (·.1)).map (·.mapModel Model.refreshImports) := rfl
  simp only [allArguments, hall, hpath, hquery, hheader, hcookie, hbody, List.map_append,
    Option.toList_map]

/-- The names in a declared operation are words. -/
theorem named_build : (x.build d promotions).1.Named where
  name := (isValueName_nameFor x.op.operationId x.method x.path).isWord
  hookName := isWord_hookName (isValueName_nameFor x.op.operationId x.method x.path).isWord
  identifiers a ha := by
    rw [allArguments_build] at ha
    obtain ⟨b, hb, rfl⟩ := List.mem_map.1 ha
    refine (x.isValueName_of_mem_arguments d (a := b) ?_).isWord
    simp only [List.mem_append, (requiredFirst_perm _).mem_iff] at hb
    rcases hb with ((((hb | hb) | hb) | hb) | hb) | hb
    · exact hb
    · exact x.mem_arguments_of_mem_sentIn d hb
    · exact x.mem_arguments_of_mem_sentIn d hb
    · exact x.mem_arguments_of_mem_sentIn d hb
    · exact x.mem_arguments_of_mem_sentIn d hb
    · exact List.mem_append_right _ hb
  pathPattern := by
    refine ⟨placeholderIdentifier (x.sentIn d .path), fun token => ?_, rfl⟩
    exact (isValueName_placeholderIdentifier (fun a ha =>
      x.isValueName_of_mem_arguments d (x.mem_arguments_of_mem_sentIn d ha)) token).isWord

end Declaration

end TypedClient.Operation
