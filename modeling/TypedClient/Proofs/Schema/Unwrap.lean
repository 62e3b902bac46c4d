import TypedClient.Schema.Outline

/-!
# Wrappers that only add `null`

`unwrap n` takes up to `n` wrappers off a schema. The outline looks through all of them, so
that taking one off changes nothing but whether `null` is accepted: `outline_of_wrapped`.
A schema that is no wrapper has its own outline: `outline_of_not_wrapped`.
-/

namespace TypedClient

namespace Schema

/-- The schema that is left when up to `n` wrappers are taken off. -/
def unwrap : Nat → Schema → Schema
  | 0, s => s
  | n + 1, s =>
    match s.wrapped? with
    | some inner => unwrap n inner
    | none => s

@[simp]
theorem unwrap_zero (s : Schema) : s.unwrap 0 = s := rfl

theorem unwrap_succ_of_wrapped {s inner : Schema} (n : Nat) (h : s.wrapped? = some inner) :
    s.unwrap (n + 1) = inner.unwrap n := by
  simp [unwrap, h]

theorem unwrap_of_not_wrapped {s : Schema} (n : Nat) (h : s.wrapped? = none) :
    s.unwrap n = s := by
  cases n <;> simp [unwrap, h]

/-- Taking off one wrapper. -/
theorem unwrap_one (s : Schema) : s.unwrap 1 = s.unwrapped := by
  cases h : s.wrapped? with
  | none => simp [unwrap, unwrapped, h]
  | some inner => simp [unwrap, unwrapped, h]

/-- The sole member beside `null` is the only member that is not the schema of `null`. -/
theorem soleMember?_eq_some {members : Option (List Schema)} {inner : Schema}
    (h : soleMember? members = some inner) :
    ∃ ms, members = some ms ∧ ms.filter (!·.isNullType) = [inner] := by
  cases members with
  | none => simp [soleMember?] at h
  | some ms =>
      refine ⟨ms, rfl, ?_⟩
      simp only [soleMember?] at h
      split at h
      · rename_i s hfilter
        split at h
        · rw [hfilter, Option.some.inj h]
        · cases h
      · cases h

/-- The first schema that is not the schema of `null` gives the outline. -/
theorem outlineOfFirst_eq {ms rest : List Schema} {inner : Schema}
    (h : ms.filter (!·.isNullType) = inner :: rest) : outlineOfFirst ms = inner.outline := by
  induction ms with
  | nil => cases h
  | cons s ms ih =>
      by_cases hnull : s.isNullType = true
      · simp only [hnull, Bool.not_true, Bool.false_eq_true, not_false_eq_true,
          List.filter_cons_of_neg] at h
        rw [outlineOfFirst, if_pos hnull, ih h]
      · simp only [hnull, Bool.not_false, List.filter_cons_of_pos, List.cons.injEq] at h
        rw [outlineOfFirst, if_neg hnull, h.1]

theorem outlineOfMembers_of_soleMember {members : Option (List Schema)} {inner : Schema}
    (h : soleMember? members = some inner) : outlineOfMembers members = inner.outline := by
  obtain ⟨ms, rfl, hfilter⟩ := soleMember?_eq_some h
  exact outlineOfFirst_eq hfilter

/-- The outline of the value of additional properties. -/
def additionalOutline? (s : Schema) : Option Outline :=
  match s.additional with
  | some (.schema value) => some value.outline
  | _ => none

/-- The outline is that of the sole member of a wrapper, or the schema's own. -/
theorem outline_eq (s : Schema) :
    s.outline =
      if (soleMember? s.anyOf).isSome then { outlineOfMembers s.anyOf with nullable := true }
      else if (soleMember? s.oneOf).isSome then { outlineOfMembers s.oneOf with nullable := true }
      else ownOutline s (s.items.map outline) s.additionalOutline? := by
  cases s
  rename_i items _ _ _ additional
  cases items <;> rcases additional with _ | _ | _ <;> rfl

/-- A wrapper has the outline of what it wraps, and accepts `null`. -/
theorem outline_of_wrapped {s inner : Schema} (h : s.wrapped? = some inner) :
    s.outline = { inner.outline with nullable := true } := by
  rw [outline_eq]
  cases hany : soleMember? s.anyOf with
  | some member =>
      obtain rfl : member = inner := by simpa [wrapped?, hany] using h
      simp [outlineOfMembers_of_soleMember hany]
  | none =>
      have hone : soleMember? s.oneOf = some inner := by simpa [wrapped?, hany] using h
      simp [hone, outlineOfMembers_of_soleMember hone]

/-- A schema that is no wrapper has its own outline. -/
theorem outline_of_not_wrapped {s : Schema} (h : s.wrapped? = none) :
    s.outline = ownOutline s (s.items.map outline) s.additionalOutline? := by
  obtain ⟨hany, hone⟩ : soleMember? s.anyOf = none ∧ soleMember? s.oneOf = none := by
    simpa [wrapped?] using h
  rw [outline_eq, hany, hone]
  simp

/-- Taking off a wrapper changes neither the shape nor the base. -/
theorem outline_unwrapped (s : Schema) :
    s.unwrapped.outline.shape = s.outline.shape ∧ s.unwrapped.outline.base = s.outline.base := by
  cases h : s.wrapped? with
  | none => simp [unwrapped, h]
  | some inner => simp [unwrapped, h, outline_of_wrapped h]

end Schema

end TypedClient
