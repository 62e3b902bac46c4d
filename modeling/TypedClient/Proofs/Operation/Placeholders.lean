import TypedClient.Proofs.Operation.Cut
import TypedClient.Proofs.Operation.Views

/-!
# What placeholders stand for

A placeholder is written as the identifier of an argument. `Bound` says that it is the argument for
the first parameter in the path with the name of the placeholder, that no other argument has that
identifier, and that different placeholders have different ones. Every declared operation is of this
kind (`bound_build`), because no two of its arguments share an identifier
(`nodup_identifiers_arguments`).
-/

namespace TypedClient.Operation

open Document (Parameter)

/-- Where the first parameter in the path with the given name stands among the parameters. -/
def Declaration.firstInPath? (x : Declaration) (d : Document) (name : String) : Option Nat :=
  (x.parameters d).findIdx? fun p => isInPath p && p.name == name

/-- The operation has one argument with the identifier, and it is sent in the path under the given
name. -/
def IsSoleArgument (op : Operation) (identifier wireName : String) : Prop :=
  ∃ a, op.arguments.filter (·.identifier == identifier) = [a] ∧ a.place = .path ∧
    a.wireName = wireName

/-- Placeholders are written as the identifiers of arguments in the path. -/
structure Bound (op : Operation) (x : Declaration) (d : Document) (expression : String → String) :
    Prop where
  path : op.path = x.path
  method : op.method = x.method
  pattern : ∀ t, PathTemplate.Cuts op.path t → op.pathPattern =
    t.head ++ Text.concat (t.holes.map fun (token, text) =>
      "$\x7b" ++ expression token ++ "\x7d" ++ text)
  version : expression "api-version" = "OpenAPI.VERSION"
  identifier : ∀ token index, token ≠ "api-version" → x.firstInPath? d token = some index →
    (identifiers (x.parameters d))[index]? = some (expression token) ∧
      op.IsSoleArgument (expression token) token
  apart : ∀ token other index number, token ≠ "api-version" → other ≠ "api-version" →
    x.firstInPath? d token = some index → x.firstInPath? d other = some number →
    token ≠ other → expression token ≠ expression other

theorem IsSoleArgument.mapModels {op : Operation} {identifier wireName : String}
    (h : op.IsSoleArgument identifier wireName) (f : Model → Model) :
    (op.mapModels f).IsSoleArgument identifier wireName := by
  obtain ⟨a, ha, hplace, hname⟩ := h
  refine ⟨a.mapModel f, ?_, hplace, hname⟩
  have hmap : (op.arguments.map (·.mapModel f)).filter (·.identifier == identifier) =
      (op.arguments.filter (·.identifier == identifier)).map (·.mapModel f) := List.filter_map
  rw [ha] at hmap
  exact hmap

/-- Placeholders stand for the same arguments when models change. -/
theorem Bound.mapModels {op : Operation} {x : Declaration} {d : Document}
    {expression : String → String} (h : op.Bound x d expression) (f : Model → Model) :
    (op.mapModels f).Bound x d expression where
  path := h.path
  method := h.method
  pattern := h.pattern
  version := h.version
  identifier token index htoken hindex :=
    ⟨(h.identifier token index htoken hindex).1,
      (h.identifier token index htoken hindex).2.mapModels f⟩
  apart := h.apart

theorem Bound.refreshImports {op : Operation} {x : Declaration} {d : Document}
    {expression : String → String} (h : op.Bound x d expression) :
    op.refreshImports.Bound x d expression := by
  obtain ⟨hpath, hmethod, hpattern, hversion, hidentifier, hapart⟩ :=
    h.mapModels Model.refreshImports
  exact ⟨hpath, hmethod, hpattern, hversion, hidentifier, hapart⟩

theorem place_argumentOf (scope root identifier : String) (p : Parameter) :
    ((argumentOf scope root p identifier).1.place == Place.path) = isInPath p := by
  change (Place.ofLocation p.location == Place.path) = (p.location == Document.Location.path)
  cases p.location <;> rfl

namespace Declaration

variable (x : Declaration) (d : Document) (promotions : Model.Promotions)

/-! ## Identifiers of arguments -/

/-- The argument for the parameter at an index has the identifier at that index. -/
theorem getElem?_sent {index : Nat} {p : Parameter} (hp : (x.parameters d)[index]? = some p) :
    ∃ identifier, (identifiers (x.parameters d))[index]? = some identifier ∧
      ((x.parameters d).zip (identifiers (x.parameters d)))[index]? = some (p, identifier) := by
  have hindex : index < (identifiers (x.parameters d)).length := by
    rw [length_identifiers]
    exact (List.getElem?_eq_some_iff.1 hp).1
  have hidentifier := List.getElem?_eq_getElem hindex
  exact ⟨_, hidentifier, List.getElem?_zip_eq_some.2 ⟨hp, hidentifier⟩⟩

/-! ## Placeholders -/

/-- The first argument in the path with a name is the one for the first parameter of this kind. -/
theorem find?_sentIn {token : String} {index : Nat} (h : x.firstInPath? d token = some index) :
    ∃ a ∈ x.sentIn d .path, (identifiers (x.parameters d))[index]? = some a.identifier ∧
      a.wireName = token ∧ (x.sentIn d .path).find? (·.wireName == token) = some a := by
  obtain ⟨hindex, hfound, hfirst⟩ := List.findIdx?_eq_some_iff_getElem.1 h
  obtain ⟨identifier, hidentifier, hzip⟩ := x.getElem?_sent d (List.getElem?_eq_getElem hindex)
  obtain ⟨hlength, hpair⟩ := List.getElem?_eq_some_iff.1 hzip
  set p := (x.parameters d)[index] with hp
  -- Both searches look at the parameters in the same order.
  have hsearch : ((x.parameters d).zip (identifiers (x.parameters d))).find?
      (fun pair => isInPath pair.1 && pair.1.name == token) = some (p, identifier) := by
    refine List.find?_eq_some_iff_getElem.2 ⟨hfound, index, hlength, hpair, fun j hj => ?_⟩
    have hnot := hfirst j hj
    rw [List.getElem_zip]
    simpa only [Bool.not_eq_true, Bool.not_eq_true'] using hnot
  have hfind : (x.sentIn d .path).find? (·.wireName == token) =
      some (argumentOf x.scope x.root p identifier).1 := by
    rw [sentIn, List.find?_filter, sent, List.map_map, List.find?_map]
    have hcondition : ∀ pair : Parameter × String,
        decide (((argumentOf x.scope x.root pair.1 pair.2).1.place == Place.path) = true ∧
          ((argumentOf x.scope x.root pair.1 pair.2).1.wireName == token) = true) =
        (isInPath pair.1 && pair.1.name == token) := by
      rintro ⟨q, name⟩
      rw [place_argumentOf, Bool.decide_and, Bool.decide_eq_true, Bool.decide_eq_true]
      rfl
    change (((x.parameters d).zip _).find? fun pair =>
      decide (((argumentOf x.scope x.root pair.1 pair.2).1.place == Place.path) = true ∧
        ((argumentOf x.scope x.root pair.1 pair.2).1.wireName == token) = true)).map _ = _
    rw [funext hcondition, hsearch]
    rfl
  rw [Bool.and_eq_true, beq_iff_eq] at hfound
  exact ⟨_, List.mem_of_find?_eq_some hfind, hidentifier, hfound.2, hfind⟩

/-- A placeholder of a parameter in the path is written as the identifier of the first one. -/
theorem placeholderIdentifier_eq {token : String} {index : Nat}
    (h : x.firstInPath? d token = some index) :
    (identifiers (x.parameters d))[index]? =
      some (placeholderIdentifier (x.sentIn d .path) token) := by
  obtain ⟨a, -, hidentifier, -, hfind⟩ := x.find?_sentIn d h
  rw [hidentifier, placeholderIdentifier, hfind]

/-- It is the identifier of a single argument. -/
theorem isSoleArgument_build {token : String} {index : Nat}
    (h : x.firstInPath? d token = some index) :
    (x.build d promotions).1.IsSoleArgument
      (placeholderIdentifier (x.sentIn d .path) token) token := by
  obtain ⟨a, ha, -, hname, hfind⟩ := x.find?_sentIn d h
  have hidentifier : placeholderIdentifier (x.sentIn d .path) token = a.identifier := by
    rw [placeholderIdentifier, hfind]
  have hmem : a ∈ requiredFirst (x.arguments d) :=
    (requiredFirst_perm _).mem_iff.2 (x.mem_arguments_of_mem_sentIn d ha)
  have hnodup : ((requiredFirst (x.arguments d)).map (·.identifier)).Nodup :=
    ((requiredFirst_perm _).map _).nodup_iff.2 (x.nodup_identifiers_arguments d)
  have hsole : (requiredFirst (x.arguments d)).filter (·.identifier == a.identifier) = [a] :=
    Naming.filter_name_eq hnodup hmem
  have hplace : a.place = .path := by simpa using (List.mem_filter.1 ha).2
  rw [hidentifier]
  refine ⟨a.mapModel Model.refreshImports, ?_, hplace, hname⟩
  have hmap : ((requiredFirst (x.arguments d)).map (·.mapModel Model.refreshImports)).filter
      (·.identifier == a.identifier) =
      ((requiredFirst (x.arguments d)).filter (·.identifier == a.identifier)).map
        (·.mapModel Model.refreshImports) := List.filter_map
  rwa [hsole] at hmap

/-- Different placeholders are written differently. -/
theorem placeholderIdentifier_ne {token other : String} {index number : Nat}
    (htoken : x.firstInPath? d token = some index)
    (hother : x.firstInPath? d other = some number) (hne : token ≠ other) :
    placeholderIdentifier (x.sentIn d .path) token ≠
      placeholderIdentifier (x.sentIn d .path) other := by
  intro heq
  obtain ⟨a, ha, -, hname⟩ := x.isSoleArgument_build d [] htoken
  obtain ⟨b, hb, -, hname'⟩ := x.isSoleArgument_build d [] hother
  rw [heq, hb] at ha
  obtain rfl : b = a := List.singleton_inj.1 ha
  exact hne (hname.symm.trans hname')

/-- The placeholders of a declared operation stand for its arguments. -/
theorem bound_build :
    ∃ expression, (x.build d promotions).1.Bound x d expression := by
  refine ⟨fun token => if token = "api-version" then "OpenAPI.VERSION"
    else placeholderIdentifier (x.sentIn d .path) token, rfl, rfl, ?_, rfl, ?_, ?_⟩
  · intro t ht
    obtain rfl := ht.eq_parse
    rfl
  · intro token index hversion h
    rw [if_neg hversion]
    exact ⟨x.placeholderIdentifier_eq d h, x.isSoleArgument_build d promotions h⟩
  · intro token other index number hversion hversion' h h' hne
    rw [if_neg hversion, if_neg hversion']
    exact x.placeholderIdentifier_ne d h h' hne

end Declaration

end TypedClient.Operation
