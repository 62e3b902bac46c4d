import TypedClient.Proofs.Client.Drafted
import TypedClient.Proofs.Naming.Words

/-!
# The names of component definitions

A component schema is defined under the type name of its key. Whatever stands in front of the last
segment of a reference, the reference names the type of the schema whose key it holds
(`reference_names_definition`).

The name of a shared response is that of its component, the media type in Pascal case and a fixed
ending, with nothing between them. So two different pairs can have one name: the component of one
goes on where the media type of the other starts (`Overlaps`). Promoted responses are compared with
the schemas and with each other by their type names, and no definition ever replaces another one:
`responseNames_collide_iff`.
-/

namespace TypedClient

/-! ## References and the schemas that they name -/

/-- The reference to a key, with any text in front of its last segment. -/
def Pointer.reference (start key : String) : String :=
  start ++ "/" ++ String.ofList (escape key.toList)

namespace Model

/-- The names under which the component schemas are defined. -/
def schemaNames (d : Document) : List String :=
  d.schemas.map fun (key, _) => Naming.typeName key

/-- The components have definitions unless a promoted response takes a name that is in use. -/
theorem ofComponents_eq (d : Document) (promote : Bool) :
    ofComponents d promote =
      match Naming.firstRepeat? Promotable.name (schemaNames d) (d.promoted promote) with
      | some p => .error (.nameCollision p.name p.origin.text)
      | none => .ok {
          models := (d.builtComponents promote).map (·.1) ++
            (d.builtComponents promote).flatMap (·.2)
          promotions := d.promotions promote } := by
  rw [schemaNames, ← Client.names_schemaDefinitions, ← Client.firstTaken?_eq,
    Client.builtComponents_eq]
  rfl

/-- The definition of a component schema stands at the place of the schema. -/
theorem getElem?_of_ofComponents {d : Document} {promote : Bool} {set : ComponentSet}
    (h : ofComponents d promote = .ok set) {index : Nat} {key : String} {s : Schema}
    (hs : d.schemas[index]? = some (key, s)) :
    set.models[index]? = some (definition "schemas" (Naming.typeName key) s .schema).1 := by
  rw [ofComponents_eq] at h
  split at h
  · cases h
  · obtain rfl := Except.ok.inj h
    obtain ⟨hlt, hget⟩ := List.getElem?_eq_some_iff.1 hs
    have hlength : index < ((d.builtComponents promote).map (·.1)).length := by
      simp only [Document.builtComponents, Document.named, List.length_map, List.length_append]
      omega
    rw [List.getElem?_append_left hlength]
    simp only [Document.builtComponents, Document.named, List.map_append, List.map_map]
    rw [List.getElem?_append_left (by simpa using hlt), List.getElem?_map, hs]
    rfl

/-- A key is found again behind every reference to it, as replacing every `~1` and then every `~0`
in the last segment undoes the writing of a key. So the reference has the name of the definition
that is made of the schema declared under the key. -/
theorem reference_names_definition (start : String) :
    (∀ ref, Pointer.key ref = String.ofList (Pointer.replacePair '~' '0' '~'
      (Pointer.replacePair '~' '1' '/' (Pointer.lastSegment ref.toList)))) ∧
    (∀ key, Pointer.key (Pointer.reference start key) = key) ∧
      ∀ d promote set, ofComponents d promote = .ok set →
        ∀ (index : Nat) key s, d.schemas[index]? = some (key, s) →
          ∃ m, set.models[index]? = some m ∧ m = (definition "schemas" m.name s .schema).1 ∧
            m.name = Pointer.typeName (Pointer.reference start key) := by
  have hkey : ∀ key, Pointer.key (Pointer.reference start key) = key :=
    fun key => Pointer.key_append_escape start key
  refine ⟨fun ref => ?_, hkey, fun d promote set hset index key s hs => ?_⟩
  · rw [Pointer.key, Pointer.unescape_eq_replacePair]
  · refine ⟨_, getElem?_of_ofComponents hset hs, ?_, ?_⟩
    · rw [name_definition]
    · rw [name_definition, Pointer.typeName, hkey]

/-- A document with a schema whose key holds all characters that are written in another way. -/
def slashedDocument : Document where
  openapi := "3.0.0"
  components := some { schemas := [("api/v~1", { type := some (.single "string") })] }

theorem reference_names_definition_slashedDocument :
    ∃ set m, ofComponents slashedDocument false = .ok set ∧ set.models[0]? = some m ∧
      m.name = Pointer.typeName "#/components/schemas/api~1v~01" ∧ m.name = "api_v_1" := by
  obtain ⟨set, hset⟩ : ∃ set, ofComponents slashedDocument false = .ok set := ⟨_, rfl⟩
  obtain ⟨m, hm, _, hname⟩ := (reference_names_definition "#/components/schemas").2.2
    slashedDocument false set hset 0 "api/v~1" { type := some (.single "string") } rfl
  have href : Pointer.reference "#/components/schemas" "api/v~1" =
      "#/components/schemas/api~1v~01" := by decide
  rw [href] at hname
  exact ⟨set, m, hset, hm, hname, hname.trans (by decide)⟩

end Model

/-! ## The names of shared responses -/

namespace Naming

variable {component other mediaType otherType : String}

/-- The other component goes on where the media type starts: its name is that of the component and
some more text, and in Pascal case the media type is this text and the other media type. -/
def Overlaps (component mediaType other otherType : String) : Prop :=
  ∃ shared, other = component ++ shared ∧ pascalCase mediaType = shared ++ pascalCase otherType

theorem responseModelName_eq_iff :
    responseModelName component mediaType = responseModelName other otherType ↔
      Overlaps component mediaType other otherType ∨
        Overlaps other otherType component mediaType := by
  rw [responseModelName, responseModelName, String.append_left_inj, Text.append_eq_append_iff]
  rfl

/-- Different components have different names under one media type. -/
theorem responseModelName_left_injective (mediaType : String) :
    Function.Injective (responseModelName · mediaType) := by
  intro component other h
  simpa [responseModelName, String.append_left_inj] using h

/-- A component has different names under media types that differ in Pascal case. -/
theorem responseModelName_right_inj :
    responseModelName component mediaType = responseModelName component otherType ↔
      pascalCase mediaType = pascalCase otherType := by
  rw [responseModelName, responseModelName, String.append_left_inj, String.append_right_inj]

/-- If the component is named by an identifier, then so is its response. -/
theorem isTypeName_responseModelName (h : IsTypeName component) (mediaType : String) :
    IsTypeName (responseModelName component mediaType) := by
  have hending : IsWord "Response" := by decide
  exact (h.append (isWord_pascalCase mediaType)).append hending

end Naming

/-! ## Promoted responses -/

namespace Model

open Naming (responseModelName IsTypeName Overlaps)

/-- The names of responses of which the components are identifiers are kept as type names. -/
theorem Promotable.name_eq_iff {p q : Promotable} (hp : IsTypeName p.component)
    (hq : IsTypeName q.component) :
    p.name = q.name ↔
      responseModelName p.component p.mediaType = responseModelName q.component q.mediaType := by
  rw [Promotable.name, Promotable.name,
    Naming.typeName_eq_self (Naming.isTypeName_responseModelName hp _),
    Naming.typeName_eq_self (Naming.isTypeName_responseModelName hq _)]

/-- The responses have names of their own: pairwise different ones, and none of a schema. -/
def NamedApart (d : Document) (ps : List Promotable) : Prop :=
  (∀ p ∈ ps, p.name ∉ schemaNames d) ∧ ps.Pairwise fun p q => p.name ≠ q.name

theorem firstRepeat?_eq_none_iff_namedApart {d : Document} {ps : List Promotable} :
    Naming.firstRepeat? Promotable.name (schemaNames d) ps = none ↔ NamedApart d ps := by
  rw [Naming.firstRepeat?_eq_none_iff, NamedApart, and_comm, List.Nodup, List.pairwise_map]

theorem promoted_true (d : Document) : d.promoted true = promotables d := if_pos rfl

/-- Responses can be promoted exactly if they have names of their own. -/
theorem exists_ofComponents_iff {d : Document} :
    (∃ set, ofComponents d true = .ok set) ↔ NamedApart d (promotables d) := by
  rw [ofComponents_eq, promoted_true, ← firstRepeat?_eq_none_iff_namedApart]
  cases Naming.firstRepeat? Promotable.name (schemaNames d) (promotables d) <;> simp

/-- What fails is the first response that has the name of a schema or of an earlier response. -/
theorem exists_collision_of_ofComponents {d : Document} {e : Error}
    (h : ofComponents d true = .error e) :
    ∃ before p after, promotables d = before ++ p :: after ∧ NamedApart d before ∧
      (p.name ∈ schemaNames d ∨ ∃ q ∈ before, q.name = p.name) ∧
        e = .nameCollision p.name p.origin.text := by
  rw [ofComponents_eq, promoted_true] at h
  split at h
  · rename_i p hfirst
    obtain ⟨before, after, hsplit, htaken, hnone⟩ := Naming.exists_before_of_firstRepeat? hfirst
    exact ⟨before, p, after, hsplit, firstRepeat?_eq_none_iff_namedApart.1 hnone, htaken,
      (Except.error.inj h).symm⟩
  · cases h

/-- Two responses have one name exactly if one component goes on where the media type of the other
starts. Under one media type different components never have, and under one component media types
that differ in Pascal case never have. The shared responses of a document can be promoted exactly if
their type names, which are the names themselves where the components are identifiers, are pairwise
different and no schema has one of them. Otherwise the error is the first response that takes a name
in use. -/
theorem responseNames_collide_iff :
    (∀ component mediaType other otherType,
      responseModelName component mediaType = responseModelName other otherType ↔
        Overlaps component mediaType other otherType ∨
          Overlaps other otherType component mediaType) ∧
    (∀ mediaType, Function.Injective (responseModelName · mediaType)) ∧
    (∀ component mediaType otherType,
      responseModelName component mediaType = responseModelName component otherType ↔
        Naming.pascalCase mediaType = Naming.pascalCase otherType) ∧
    (∀ p q : Promotable, IsTypeName p.component → IsTypeName q.component →
      (p.name = q.name ↔
        responseModelName p.component p.mediaType =
          responseModelName q.component q.mediaType)) ∧
    ∀ d : Document,
      ((∃ set, ofComponents d true = .ok set) ↔ NamedApart d (promotables d)) ∧
      ∀ e, ofComponents d true = .error e →
        ∃ before p after, promotables d = before ++ p :: after ∧ NamedApart d before ∧
          (p.name ∈ schemaNames d ∨ ∃ q ∈ before, q.name = p.name) ∧
            e = .nameCollision p.name p.origin.text :=
  ⟨fun _ _ _ _ => Naming.responseModelName_eq_iff,
    Naming.responseModelName_left_injective,
    fun _ _ _ => Naming.responseModelName_right_inj,
    fun _ _ => Promotable.name_eq_iff,
    fun _ => ⟨exists_ofComponents_iff, fun _ => exists_collision_of_ofComponents⟩⟩

/-- A shared response with a text as its body. -/
def textResponse (mediaType : String) : Document.RefOr Document.Response :=
  .inline { content := [(mediaType, { schema := some { type := some (.single "string") } })] }

/-- A document with an error in JSON, and with another shared response. -/
def errorDocument (other mediaType : String) : Document where
  openapi := "3.0.0"
  components := some {
    responses :=
      [("Error", textResponse "application/json"), (other, textResponse mediaType)] }

/-- With different responses, promotion goes through. -/
theorem responseNames_collide_iff_errorDocument :
    ∃ set, ofComponents (errorDocument "Missing" "text/plain") true = .ok set := by
  refine (responseNames_collide_iff.2.2.2.2 (errorDocument "Missing" "text/plain")).1.2 ⟨?_, ?_⟩
  · decide +kernel
  · decide +kernel

/-- Two different responses have one name, and the document is refused on their account. -/
theorem not_responseNames_apart :
    ("Error", "application/json") ≠ ("ErrorApplication", "json") ∧
      responseModelName "Error" "application/json" =
        responseModelName "ErrorApplication" "json" ∧
      ofComponents (errorDocument "ErrorApplication" "json") true =
        .error (.nameCollision "ErrorApplicationJsonResponse"
          "response \"ErrorApplication\" (json)") := by
  refine ⟨by decide, by decide +kernel, ?_⟩
  rfl

end Model

end TypedClient
