import TypedClient.Proofs.Schema.Parts
import TypedClient.Schema.Pointer

/-!
# References of schemas

`unescape_escape` says that reading a segment undoes its writing. A reference whose last
segment is a written key names that key (`key_eq_of_lastSegment`), and as a written key
holds no slash, appending it makes such a reference: `key_append_escape`. A segment is read
from left to right, which is the same as replacing first every `~1` in it and then every `~0`:
`unescape_eq_replacePair`.

`s.Mentions ref` says that `$ref` has the value `ref` in `s` or in a schema inside it. What
the parts of a schema mention, the schema mentions as well (`mentions_of_mem_partsOf`), and
an outline that is a reference names one of the references: `exists_mentions_of_reference`.
-/

/-! ## Keys -/

namespace TypedClient.Pointer

/-- Reading a segment back gives the key. -/
theorem unescape_escape (cs : List Char) : unescape (escape cs) = cs := by
  induction cs with
  | nil => rfl
  | cons c cs ih =>
      by_cases htilde : c = '~'
      · subst htilde
        simp [escape, unescape, ih]
      · by_cases hslash : c = '/'
        · subst hslash
          simp [escape, unescape, ih]
        · simp [escape, unescape, htilde, hslash, ih]

/-- A segment holds no slash. -/
theorem slash_not_mem_escape (cs : List Char) : '/' ∉ escape cs := by
  induction cs with
  | nil => simp [escape]
  | cons c cs ih =>
      simp only [escape]
      split
      · simp [ih]
      · split
        · simp [ih]
        · rename_i hslash
          simp [ih, Ne.symm hslash]

/-- The last segment of a reference is what stands behind its last slash. -/
theorem lastSegment_append {start segment : List Char} (h : '/' ∉ segment) :
    lastSegment (start ++ '/' :: segment) = segment := by
  have hall : ∀ c ∈ segment.reverse, (c != '/') = true := by
    intro c hc
    have hne : c ≠ '/' := fun heq => h (heq ▸ List.mem_reverse.1 hc)
    simpa using hne
  rw [lastSegment, List.reverse_append, List.reverse_cons, List.append_assoc,
    List.takeWhile_append_of_pos hall]
  simp

/-- A reference whose last segment is a written key names that key. -/
theorem key_eq_of_lastSegment {ref name : String}
    (h : lastSegment ref.toList = escape name.toList) : key ref = name := by
  rw [key, h, unescape_escape, String.ofList_toList]

/-- Appending a written key behind a slash makes a reference to it. -/
theorem key_append_escape (start name : String) :
    key (start ++ "/" ++ String.ofList (escape name.toList)) = name := by
  apply key_eq_of_lastSegment
  have hlist : (start ++ "/" ++ String.ofList (escape name.toList)).toList =
      start.toList ++ '/' :: escape name.toList := by
    simp
  rw [hlist, lastSegment_append (slash_not_mem_escape _)]

/-! ## Reading a segment in two passes -/

/-- Every occurrence of two characters in a row is replaced by another one, from left to right. -/
def replacePair (first second replacement : Char) : List Char → List Char
  | [] => []
  | [c] => [c]
  | c :: d :: cs =>
    if c = first ∧ d = second then replacement :: replacePair first second replacement cs
    else c :: replacePair first second replacement (d :: cs)

section Replace

variable {first second replacement c : Char} {cs : List Char}

theorem replacePair_pair :
    replacePair first second replacement (first :: second :: cs) =
      replacement :: replacePair first second replacement cs := by
  rw [replacePair, if_pos ⟨rfl, rfl⟩]

/-- A character that begins no pair stays. -/
theorem replacePair_cons (h : c = first → cs.head? ≠ some second) :
    replacePair first second replacement (c :: cs) =
      c :: replacePair first second replacement cs := by
  cases cs with
  | nil => rfl
  | cons d ds =>
      rw [replacePair, if_neg]
      rintro ⟨hfirst, rfl⟩
      exact h hfirst rfl

/-- The first character stays, or it is the replacement. -/
theorem head?_replacePair (cs : List Char) :
    (replacePair first second replacement cs).head? = cs.head? ∨
      (replacePair first second replacement cs).head? = some replacement := by
  fun_cases replacePair first second replacement cs with
  | case1 => exact .inl rfl
  | case2 => exact .inl rfl
  | case3 => exact .inr rfl
  | case4 => exact .inl rfl

end Replace

/-- Reading a segment is replacing every `~1` and then every `~0`. Replacing `~1` makes no `~0`, as
it leaves a slash. -/
theorem unescape_eq_replacePair (cs : List Char) :
    unescape cs = replacePair '~' '0' '~' (replacePair '~' '1' '/' cs) := by
  fun_induction unescape cs with
  | case1 => rfl
  | case2 cs ih =>
      have hslash : '/' ≠ '~' := by decide
      rw [replacePair_pair, replacePair_cons fun h => absurd h hslash, ih]
  | case3 cs ih =>
      have hzero : '0' ≠ '~' := by decide
      rw [replacePair_cons fun _ => by simp, replacePair_cons fun h => absurd h hzero,
        replacePair_pair, ih]
  | case4 c cs hslash htilde ih =>
      have hone : c = '~' → cs.head? ≠ some '1' := by
        rintro rfl hhead
        obtain ⟨ds, rfl⟩ := List.head?_eq_some_iff.1 hhead
        exact hslash ds rfl rfl
      have hzero : c = '~' → cs.head? ≠ some '0' := by
        rintro rfl hhead
        obtain ⟨ds, rfl⟩ := List.head?_eq_some_iff.1 hhead
        exact htilde ds rfl rfl
      rw [replacePair_cons hone, replacePair_cons, ih]
      intro hc
      rcases head?_replacePair cs with heq | heq
      · rw [heq]
        exact hzero hc
      · rw [heq]
        decide

/-- In the other order the key `~1` would be read as a slash. -/
example :
    replacePair '~' '0' '~' (replacePair '~' '1' '/' (escape ['~', '1'])) = ['~', '1'] ∧
      replacePair '~' '1' '/' (replacePair '~' '0' '~' (escape ['~', '1'])) = ['/'] := by
  decide

end TypedClient.Pointer

/-! ## The references inside a schema -/

namespace TypedClient

namespace Schema

/-- A reference stands in the schema, at any depth. -/
inductive Mentions : Schema → String → Prop
  | ref (s ref) : s.ref = some ref → Mentions s ref
  | child (s t ref) : s.Child t → Mentions t ref → Mentions s ref

/-- Taking wrappers off adds no reference. -/
theorem mentions_of_unwrap {n : Nat} {s : Schema} {ref : String} (h : (s.unwrap n).Mentions ref) :
    s.Mentions ref := by
  induction n generalizing s with
  | zero => exact h
  | succ n ih =>
      cases hs : s.wrapped? with
      | none => rwa [unwrap_of_not_wrapped _ hs] at h
      | some inner =>
          rw [unwrap_succ_of_wrapped n hs] at h
          exact .child s inner ref (child_of_wrapped hs) (ih h)

/-- What the properties alone mention, one of them mentions. -/
theorem exists_property_of_ownSchema {s : Schema} {ref : String} (h : s.ownSchema.Mentions ref) :
    ∃ name p, (name, p) ∈ s.properties ∧ p.Mentions ref := by
  cases h with
  | ref _ _ href => cases href
  | child _ t _ hchild ht =>
      cases hchild with
      | property name _ hmem => exact ⟨name, t, hmem, ht⟩
      | items _ hitems => cases hitems
      | anyOf _ _ hms => cases hms
      | oneOf _ _ hms => cases hms
      | allOf _ _ hms => cases hms
      | additional _ hvalue => cases hvalue

/-- What a part mentions, the schema mentions. -/
theorem mentions_of_mem_partsOf {shape : Shape} {n : Nat} {s t : Schema} {part : Part}
    {ref : String} (h : part ∈ partsOf shape (s.unwrap n)) (ht : part.schema? = some t)
    (hmentions : t.Mentions ref) : s.Mentions ref := by
  apply mentions_of_unwrap (n := n)
  rcases child_of_mem_partsOf h ht with hchild | ⟨_, rfl⟩
  · exact .child _ t ref hchild hmentions
  · obtain ⟨name, p, hmem, hp⟩ := exists_property_of_ownSchema hmentions
    exact .child _ p ref (.property name p hmem) hp

theorem ownOutline_of_reference {s : Schema} {items value : Option Outline}
    (h : (ownOutline s items value).shape = .reference) :
    ∃ ref, s.ref = some ref ∧ (ownOutline s items value).base = Pointer.typeName ref := by
  cases hs : s.ref with
  | some ref => exact ⟨ref, rfl, by simp [ownOutline, hs]⟩
  | none =>
      simp only [ownOutline, hs, plainOutline, arrayOutline, dictionaryOutline, withElement] at h
      split at h <;> grind

/-- An outline that is a reference names a type which the schema mentions. -/
theorem exists_mentions_of_reference {s : Schema} (h : s.outline.shape = .reference) :
    ∃ ref, s.Mentions ref ∧ s.outline.base = Pointer.typeName ref := by
  induction hn : s.weight using Nat.strongRecOn generalizing s with
  | ind n ih =>
      cases hs : s.wrapped? with
      | none =>
          rw [outline_of_not_wrapped hs] at h ⊢
          obtain ⟨ref, href, hbase⟩ := ownOutline_of_reference h
          exact ⟨ref, .ref s ref href, hbase⟩
      | some inner =>
          rw [outline_of_wrapped hs] at h ⊢
          have hlt : inner.weight < n := hn ▸ weight_lt_of_wrapped hs
          obtain ⟨ref, hmentions, hbase⟩ := ih inner.weight hlt h rfl
          exact ⟨ref, .child s inner ref (child_of_wrapped hs) hmentions, hbase⟩

end Schema

end TypedClient
