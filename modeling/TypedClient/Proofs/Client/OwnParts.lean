import TypedClient.Proofs.Client.Bindings
import TypedClient.Proofs.Naming.Words

/-!
# The definitions of own properties

The properties that a component declares beside the members of an `allOf` become a definition of
their own. Its key has two segments, which hold neither slashes nor the sign that keys are marked
with, and there is no other key of this form (`eq_of_provisionalName_eq`). No other object has it
(`eq_ownSpot_of_key_eq`), so that it leads to the definition of these very properties:
`ownDefinition_mem_finished`.
-/

namespace TypedClient

open Naming (IsWord)

/-! ## Keys of two segments -/

namespace Model

theorem toList_provisionalName (scope : String) (place : List String) :
    (provisionalName scope place).toList =
      '#' :: (scope.toList ++ '#' :: (String.intercalate "/" place).toList) := by
  simp [provisionalName]

/-- A key of two words in a scope that is a word is that of no other scope and place. -/
theorem eq_of_provisionalName_eq {scope other first second name segment : String}
    {rest : List String} (hscope : IsWord scope) (hname : IsWord name) (hsegment : IsWord segment)
    (h : provisionalName other (first :: second :: rest) = provisionalName scope [name, segment]) :
    other = scope ∧ first = name ∧ second = segment ∧ rest = [] := by
  have hslash : ∀ {word : String}, IsWord word → '/' ∉ word.toList :=
    fun hword hmem => absurd (hword _ hmem) (by decide)
  have hsign : ∀ {word : String}, IsWord word → '#' ∉ word.toList :=
    fun hword hmem => absurd (hword _ hmem) (by decide)
  have hlist := congrArg String.toList h
  rw [toList_provisionalName, toList_provisionalName, String.intercalate_cons_cons,
    String.intercalate_cons_cons, String.intercalate_singleton] at hlist
  -- The only slash of the key stands behind the name.
  have hsplit : (scope.toList ++ '#' :: name.toList) ++ '/' :: segment.toList =
      (other.toList ++ '#' :: first.toList) ++
        '/' :: (String.intercalate "/" (second :: rest)).toList := by
    simpa using hlist.symm
  have hbefore : '/' ∉ scope.toList ++ '#' :: name.toList := by
    simp [hslash hscope, hslash hname]
  obtain ⟨hhead, -, htail⟩ :=
    (List.append_cons_inj_of_notMem hbefore (hslash hsegment)).1 hsplit
  obtain ⟨hscopes, -, hnames⟩ :=
    (List.append_cons_inj_of_notMem (hsign hscope) (hsign hname)).1 hhead
  refine ⟨String.toList_injective hscopes.symm, String.toList_injective hnames.symm, ?_⟩
  cases rest with
  | nil =>
      rw [String.intercalate_singleton] at htail
      exact ⟨String.toList_injective htail.symm, rfl⟩
  | cons third rest =>
      have hmem : '/' ∈ (String.intercalate "/" (second :: third :: rest)).toList := by
        rw [String.intercalate_cons_cons]
        simp
      exact absurd (htail ▸ hmem) (hslash hsegment)

end Model

namespace Schema

/-- The number of a part stands behind the word for it. -/
theorem memberSegment_eq (shape : Shape) (number : Nat) :
    memberSegment shape number = Naming.numbered (Model.memberLabel shape) number := rfl

theorem memberSegment_injective (shape : Shape) : Function.Injective (memberSegment shape) :=
  Naming.numbered_injective (Model.memberLabel shape)

theorem isWord_memberSegment (shape : Shape) (number : Nat) :
    IsWord (memberSegment shape number) := by
  have hlabel : IsWord (Model.memberLabel shape) := by
    cases shape <;> decide
  rw [memberSegment_eq, Naming.numbered]
  intro c hc
  rw [String.toList_append, List.mem_append] at hc
  exact hc.elim (hlabel c) Naming.isNameChar_of_mem_toString

/-- The number of the properties beside the members of an `allOf`. -/
def ownNumber (s : Schema) : Nat := memberCount s.allOf + 1

/-- The members of an `allOf` have smaller numbers than the properties beside them. -/
theorem eq_ownSchema_of_mem_partsOf {s t : Schema} {name : String} {isRequired : Bool}
    (h : .inner (memberSegment .allOf s.ownNumber) name isRequired t ∈ partsOf .allOf s) :
    t = s.ownSchema := by
  rcases List.mem_append.1 h with h | h
  · cases hmembers : s.allOf with
    | none =>
        rw [hmembers] at h
        obtain ⟨typeName, -, heq⟩ := List.mem_map.1 h
        cases heq
    | some ms =>
        rw [hmembers] at h
        obtain ⟨index, hindex, heq⟩ := List.mem_mapIdx.1 h
        obtain ⟨hsegment, -, -, -⟩ := Part.inner.inj heq
        have hnumber := memberSegment_injective .allOf hsegment
        rw [← List.countP_eq_length_filter] at hindex
        simp only [ownNumber, memberCount, hmembers, Option.map_some, Option.getD_some] at hnumber
        omega
  · unfold ownParts at h
    split at h
    · cases h
    · obtain ⟨-, -, -, ht⟩ := Part.inner.inj (List.mem_singleton.1 h)
      exact ht

end Schema

/-! ## Positions -/

namespace Document

/-- Every key starts with two segments, and with the scope of a component or a method. -/
theorem Attached.scope_place {d : Document} {promote : Bool} {a : Anchor} {spot : Spot}
    (h : d.Attached promote a spot) :
    (∃ n ∈ d.named promote, ∃ segment name isRequired,
      .inner segment name isRequired spot.schema ∈ n.parts ∧ spot.scope = n.scope ∧
        spot.place = [n.name, segment]) ∨
      ' ' ∈ spot.scope.toList ∧ ∃ first second, spot.place = [first, second] := by
  have hblank : ∀ x : Operation.Declaration, ' ' ∈ x.scope.toList := by
    intro x
    rw [Operation.Declaration.scope, String.toList_append, String.toList_append]
    simp
  cases h with
  | definition n index segment name isRequired s hn hpart =>
      exact .inl ⟨n, hn, segment, name, isRequired, List.mem_of_getElem? hpart, rfl, rfl⟩
  | argument service number x p identifier s => exact .inr ⟨hblank x, _, _, rfl⟩
  | body service number x source => exact .inr ⟨hblank x, _, _, rfl⟩
  | response service number index x status item response s => exact .inr ⟨hblank x, _, _, rfl⟩

/-- The place of a part of a component is that of no other object. -/
theorem exists_part_of_key_eq {d : Document} {promote : Bool} {p : Position} {spot : Spot}
    (h : d.object? promote p = some spot) {name segment : String} (hname : IsWord name)
    (hsegment : IsWord segment)
    (hkey : spot.key = Model.provisionalName "schemas" [name, segment]) :
    ∃ n ∈ d.named promote, n.name = name ∧ n.scope = "schemas" ∧
      (∃ inner isRequired, .inner segment inner isRequired spot.schema ∈ n.parts) ∧
      spot.scope = "schemas" ∧ spot.place = [name, segment] := by
  have hscope : IsWord "schemas" := by decide
  obtain ⟨a, route⟩ := p
  obtain ⟨start, hstart, hroute⟩ := Option.bind_eq_some_iff.1 h
  obtain ⟨segments, s, hat, -, rfl⟩ := Spot.object?_eq_some_iff.1 hroute
  rcases (attached_of_spot? hstart).scope_place with
    ⟨n, hn, first, inner, isRequired, hpart, hstartScope, hplace⟩ | ⟨hblank, first, second, hplace⟩
  · rw [Spot.key, hplace] at hkey
    obtain ⟨hsame, hfirst, hsecond, rfl⟩ :=
      Model.eq_of_provisionalName_eq hscope hname hsegment hkey
    -- No step leads on from the part.
    have hlength := Schema.length_of_at? hat
    obtain rfl : route = [] := List.eq_nil_of_length_eq_zero hlength.symm
    obtain ⟨-, rfl⟩ := Prod.mk.inj (Option.some.inj hat)
    exact ⟨n, hn, hfirst, hstartScope ▸ hsame, ⟨inner, isRequired, hsecond ▸ hpart⟩, hsame,
      by rw [hplace, hfirst, hsecond, List.append_nil]⟩
  · rw [Spot.key, hplace] at hkey
    obtain ⟨hsame, -, -, -⟩ := Model.eq_of_provisionalName_eq hscope hname hsegment hkey
    rw [hsame] at hblank
    exact absurd hblank (by decide)

end Document

namespace Client

variable {d : Document} {promote : Bool}

/-- Where the properties stand that a component declares beside the members of an `allOf`. -/
def ownSpot (name : String) (s : Schema) : Spot :=
  ⟨"schemas", Model.memberPlace [name] .allOf s.ownNumber, s.ownSchema⟩

/-- The properties are the last part of the component. -/
theorem own_mem_parts {n : Document.Named} (hshape : n.schema.outline.shape = .allOf)
    (hproperties : n.schema.unwrapped.properties.isEmpty = false) :
    .inner (Schema.memberSegment .allOf n.schema.unwrapped.ownNumber) "" false
      n.schema.unwrapped.ownSchema ∈ n.parts := by
  rw [Document.Named.parts, hshape, Schema.unwrap_one]
  refine List.mem_append_right _ ?_
  rw [Schema.ownParts, hproperties]
  exact List.mem_singleton_self _

/-- There is an object with the properties. -/
theorem exists_object?_ownSpot (hnodup : (d.declaredNames promote).Nodup) {n : Document.Named}
    (hn : n ∈ d.named promote) (hscope : n.scope = "schemas")
    (hshape : n.schema.outline.shape = .allOf)
    (hproperties : n.schema.unwrapped.properties.isEmpty = false) :
    ∃ p, d.object? promote p = some (ownSpot n.name n.schema.unwrapped) := by
  obtain ⟨index, hindex⟩ := List.mem_iff_getElem?.1 (own_mem_parts hshape hproperties)
  have hattached := Document.spot?_of_attached hnodup (.definition n index _ _ _ _ hn hindex)
  have hobject : n.schema.unwrapped.ownSchema.outline.shape = .object := by
    rw [Model.outline_ownSchema hproperties]
  refine ⟨⟨.definition n.name index, []⟩, Option.bind_eq_some_iff.2 ⟨_, hattached, ?_⟩⟩
  rw [Spot.object?_nil hobject, hscope]
  rfl

/-- No other object has the key. -/
theorem eq_ownSpot_of_key_eq (hnodup : (d.declaredNames promote).Nodup) {n : Document.Named}
    (hn : n ∈ d.named promote) (hshape : n.schema.outline.shape = .allOf)
    {p : Position} {spot : Spot} (h : d.object? promote p = some spot)
    (hkey : spot.key = (ownSpot n.name n.schema.unwrapped).key) :
    spot = ownSpot n.name n.schema.unwrapped := by
  have hname : IsWord n.name := by
    have hmem : n.name ∈ d.declaredNames promote := by
      rw [← Document.names_named]
      exact List.mem_map_of_mem hn
    exact (isTypeName_of_mem_declaredNames hmem).isWord
  obtain ⟨other, hother, heq, -, ⟨inner, isRequired, hpart⟩, hscope, hplace⟩ :=
    Document.exists_part_of_key_eq h hname (Schema.isWord_memberSegment _ _) hkey
  rw [← Document.names_named] at hnodup
  obtain rfl : other = n := List.inj_on_of_nodup_map hnodup hother hn heq
  rw [Document.Named.parts, hshape, Schema.unwrap_one] at hpart
  have hschema := Schema.eq_ownSchema_of_mem_partsOf hpart
  cases spot
  simp only at hscope hplace hschema
  rw [hscope, hplace, hschema]
  rfl

/-- The key leads to the definition of the properties. -/
theorem ownDefinition_mem_finished (hnodup : (d.declaredNames promote).Nodup) {n : Document.Named}
    (hn : n ∈ d.named promote) (hscope : n.scope = "schemas")
    (hshape : n.schema.outline.shape = .allOf)
    (hproperties : n.schema.unwrapped.properties.isEmpty = false) :
    finishModel (drafted d promote).target
        (withName (ownSpot n.name n.schema.unwrapped).definition
          ((drafted d promote).target (ownSpot n.name n.schema.unwrapped).key)) ∈
      (drafted d promote).finished.models := by
  obtain ⟨p, hp⟩ := exists_object?_ownSpot hnodup hn hscope hshape hproperties
  obtain ⟨q, other, hq, hkey, hmem⟩ := exists_definition_of_object? hnodup hp
  obtain rfl := eq_ownSpot_of_key_eq hnodup hn hshape hq hkey
  exact hmem

end Client

end TypedClient
