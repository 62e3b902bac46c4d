import TypedClient.Proofs.Model.Closed

/-!
# Positions inside a schema

`s.at? route` is the schema at a route, whose numbers select one part after the other, with
the segments that the route adds to the place. The definitions lifted out of an inline
schema are those of the objects inside it: `mem_embed_snd_iff`. The key of a definition is
its provisional name, and the key of a longer place is longer: `length_provisionalName_lt`.
-/

namespace TypedClient

namespace Schema

/-- The schema at a route, and the segments on the way. -/
def at? : Schema → List Nat → Option (List String × Schema)
  | s, [] => some ([], s)
  | s, index :: route =>
    match s.parts[index]? with
    | some (.inner segment _ _ t) =>
      (t.at? route).map fun (segments, u) => (segment :: segments, u)
    | _ => none

@[simp]
theorem at?_nil (s : Schema) : s.at? [] = some ([], s) := rfl

theorem at?_cons_of_inner {s t : Schema} {index : Nat} {segment name : String}
    {isRequired : Bool} (route : List Nat)
    (h : s.parts[index]? = some (.inner segment name isRequired t)) :
    s.at? (index :: route) = (t.at? route).map fun (segments, u) => (segment :: segments, u) := by
  rw [at?, h]

/-- A route that leads on starts with a part that is a schema. -/
theorem exists_of_at?_cons {s u : Schema} {index : Nat} {route : List Nat}
    {segments : List String} (h : s.at? (index :: route) = some (segments, u)) :
    ∃ segment name isRequired t rest, s.parts[index]? = some (.inner segment name isRequired t) ∧
      t.at? route = some (rest, u) ∧ segments = segment :: rest := by
  rw [at?] at h
  split at h
  · rename_i segment name isRequired t hpart
    obtain ⟨⟨rest, v⟩, hrest, heq⟩ := Option.map_eq_some_iff.1 h
    cases heq
    exact ⟨segment, name, isRequired, t, rest, hpart, hrest, rfl⟩
  · cases h

/-- Every number of a route adds a segment. -/
theorem length_of_at? {s u : Schema} {route : List Nat} {segments : List String}
    (h : s.at? route = some (segments, u)) : segments.length = route.length := by
  induction route generalizing s segments with
  | nil =>
      obtain ⟨rfl, _⟩ := Prod.mk.inj (Option.some.inj h)
      rfl
  | cons index route ih =>
      obtain ⟨segment, name, isRequired, t, rest, _, hrest, rfl⟩ := exists_of_at?_cons h
      simp [ih hrest]

/-- A longer route leads on from the schema at the shorter one. -/
theorem exists_of_at?_append {s t u : Schema} {route more : List Nat}
    {segments place : List String} (ht : s.at? route = some (segments, t))
    (hu : s.at? (route ++ more) = some (place, u)) :
    ∃ rest, t.at? more = some (rest, u) ∧ place = segments ++ rest := by
  induction route generalizing s segments place with
  | nil =>
      obtain ⟨rfl, rfl⟩ := Prod.mk.inj (Option.some.inj ht)
      exact ⟨place, hu, rfl⟩
  | cons index route ih =>
      obtain ⟨segment, name, isRequired, v, rest, hpart, hrest, rfl⟩ := exists_of_at?_cons ht
      rw [List.cons_append, at?_cons_of_inner _ hpart] at hu
      obtain ⟨⟨inner, w⟩, hinner, heq⟩ := Option.map_eq_some_iff.1 hu
      cases heq
      obtain ⟨last, hlast, rfl⟩ := ih hrest hinner
      exact ⟨last, hlast, rfl⟩

end Schema

namespace Model

/-- The definitions that are lifted out of an inline schema are those of the objects inside it. -/
theorem mem_embed_snd_iff {scope name : String} {place : List String} {s : Schema} {m : Model} :
    m ∈ (embed scope name place s).2 ↔
      ∃ route segments u, s.at? route = some (segments, u) ∧ u.outline.shape = .object ∧
        m = liftedDefinition scope (place ++ segments) u := by
  rw [embed_snd]
  constructor
  · intro h
    induction s using Schema.induction_parts generalizing place with
    | step s ih =>
        rcases List.mem_append.1 h with h | h
        · obtain ⟨part, hpart, hm⟩ := List.mem_flatMap.1 h
          cases part with
          | plain base => cases hm
          | inner segment inner isRequired t =>
              obtain ⟨index, hindex⟩ := List.mem_iff_getElem?.1 hpart
              rw [liftedOfPart, embed_snd] at hm
              obtain ⟨route, segments, u, hat, hu, rfl⟩ := ih _ hpart t rfl hm
              refine ⟨index :: route, segment :: segments, u, ?_, hu, by simp⟩
              rw [Schema.at?_cons_of_inner route hindex, hat]
              rfl
        · unfold ownLifted at h
          split at h
          · rename_i hs
            exact ⟨[], [], s, rfl, hs, by simpa using h⟩
          · cases h
  · rintro ⟨route, segments, u, hat, hu, rfl⟩
    induction route generalizing s place segments with
    | nil =>
        obtain ⟨rfl, rfl⟩ := Prod.mk.inj (Option.some.inj hat)
        apply List.mem_append_right
        simp [ownLifted, hu]
    | cons index route ih =>
        obtain ⟨segment, inner, isRequired, t, rest, hpart, hrest, rfl⟩ :=
          Schema.exists_of_at?_cons hat
        apply List.mem_append_left
        refine List.mem_flatMap.2 ⟨_, List.mem_of_getElem? hpart, ?_⟩
        rw [liftedOfPart, embed_snd]
        have hm : liftedDefinition scope ((place ++ [segment]) ++ rest) u ∈ _ := ih rest hrest
        rwa [List.append_assoc] at hm

/-- The key of a longer place is longer. -/
theorem length_provisionalName_lt {scope : String} {place rest : List String}
    (hplace : place ≠ []) (hrest : rest ≠ []) :
    (provisionalName scope place).length < (provisionalName scope (place ++ rest)).length := by
  rw [provisionalName, provisionalName, String.intercalate_append_of_ne_nil hplace hrest]
  simp only [String.length_append]
  have hslash : "/".length = 1 := by decide
  omega

end Model

end TypedClient
