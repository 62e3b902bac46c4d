import Mathlib.Data.List.Forall2
import TypedClient.Decode.Basic

/-!
# Reading records apart from one field

Two records are read alike as far as no reader tells them apart (`Respects`). So it makes no
difference to the other fields of a record what is read for one of them: if a record can be read
once the member of a field is set to some value, then the record itself fails at most because of
the value that it has there, or because it has none (`record_of_setMember`).
-/

namespace TypedClient.Decode

variable {α β σ : Type}

theorem bind_eq_ok_iff {x : Result α} {f : α → Result β} {b : β} :
    (x >>= f) = .ok b ↔ ∃ a, x = .ok a ∧ f a = .ok b := by
  cases x with
  | error e => simp [bind, Except.bind]
  | ok a => simp [bind, Except.bind]

/-- A list is read item by item. -/
theorem mapM_eq_ok_iff {read : α → Result β} {items : List α} {found : List β} :
    items.mapM read = .ok found ↔ List.Forall₂ (fun a b => read a = .ok b) items found := by
  induction items generalizing found with
  | nil => simp [pure, Except.pure, eq_comm]
  | cons a rest ih =>
      simp only [List.mapM_cons, bind_eq_ok_iff, List.forall₂_cons_left_iff, ih]
      constructor
      · rintro ⟨b, hb, others, hothers, hfound⟩
        exact ⟨b, others, hb, hothers, (Except.ok.inj hfound).symm⟩
      · rintro ⟨b, others, hb, hothers, rfl⟩
        exact ⟨b, hb, others, hothers, rfl⟩

/-! ## Members -/

/-- Reads one member. -/
def member (fields : List (FieldReader σ)) (s : σ) (key : String) (value : Json) : Result σ :=
  match fields.find? (·.name == key) with
  | some field => field.read s value
  | none => .ok s

variable {fields : List (FieldReader σ)}

theorem members_cons (s : σ) (key : String) (value : Json) (ms : List (String × Json)) :
    members fields s ((key, value) :: ms) =
      (member fields s key value >>= fun t => members fields t ms) :=
  List.foldlM_cons

/-- Whatever can be read into a record can be read into one that `R` relates to it, and the outcomes
are related again. -/
def Respects (R : σ → σ → Prop) (fields : List (FieldReader σ)) : Prop :=
  ∀ field ∈ fields, ∀ s s' t' value, R s s' → field.read s' value = .ok t' →
    ∃ t, field.read s value = .ok t ∧ R t t'

namespace Respects

variable {R : σ → σ → Prop} (h : Respects R fields)
include h

theorem member {s s' t' : σ} (hs : R s s') {key : String} {value : Json}
    (hread : member fields s' key value = .ok t') :
    ∃ t, Decode.member fields s key value = .ok t ∧ R t t' := by
  unfold Decode.member at hread ⊢
  cases hfind : fields.find? (·.name == key) with
  | none =>
      rw [hfind] at hread
      exact ⟨s, rfl, Except.ok.inj hread ▸ hs⟩
  | some field =>
      rw [hfind] at hread
      exact h field (List.mem_of_find?_eq_some hfind) s s' t' value hs hread

theorem members {s s' t' : σ} (hs : R s s') {ms : List (String × Json)}
    (hread : members fields s' ms = .ok t') :
    ∃ t, Decode.members fields s ms = .ok t ∧ R t t' := by
  induction ms generalizing s s' with
  | nil => exact ⟨s, rfl, Except.ok.inj hread ▸ hs⟩
  | cons m ms ih =>
      obtain ⟨key, value⟩ := m
      rw [members_cons, bind_eq_ok_iff] at hread
      obtain ⟨u', hmember, hrest⟩ := hread
      obtain ⟨u, hu, hrelated⟩ := h.member hs hmember
      obtain ⟨t, ht, htrelated⟩ := ih hrelated hrest
      exact ⟨t, by rw [members_cons, bind_eq_ok_iff]; exact ⟨u, hu, ht⟩, htrelated⟩

end Respects

/-! ## One field -/

/-- The field is read from its value alone, and `R` takes no notice of what was read. -/
structure Unnoticed (R : σ → σ → Prop) (field : FieldReader σ) (read : Json → Result α)
    (set : σ → α → σ) : Prop where
  read_eq : ∀ s value, field.read s value = (read value).map (set s)
  left : ∀ {s s'} (a : α), R s s' → R (set s a) s'
  right : ∀ {s s'} (a : α), R s s' → R s (set s' a)

variable {R : σ → σ → Prop} {field : FieldReader σ} {read : Json → Result α} {set : σ → α → σ}
  {key : String}

theorem member_eq (hfield : Unnoticed R field read set)
    (hfind : fields.find? (·.name == key) = some field) (s : σ) (value : Json) :
    member fields s key value = (read value).map (set s) := by
  rw [member, hfind]
  exact hfield.read_eq s value

/-- If members can be read once the value of one field is set, then they are read up to what is in
its place. -/
theorem members_of_setMember (h : Respects R fields) (hfield : Unnoticed R field read set)
    (hfind : fields.find? (·.name == key) = some field) {value : Json}
    {ms : List (String × Json)} {s s' t' : σ} (hs : R s s')
    (hread : members fields s' (Json.setMember key value ms) = .ok t') :
    (∀ w, ms.lookup key = some w → ∀ e, read w = .error e → members fields s ms = .error e) ∧
      ((∀ w, ms.lookup key = some w → ∃ a, read w = .ok a) →
        ∃ t, members fields s ms = .ok t ∧ R t t') := by
  -- The two runs are related up to the member that is set. There they read different values, which
  -- `R` takes no notice of, and behind it the members are the same again.
  induction ms generalizing s s' with
  | nil =>
      rw [Json.setMember, members_cons, member_eq hfield hfind, bind_eq_ok_iff] at hread
      obtain ⟨u', hmember, hrest⟩ := hread
      obtain rfl : u' = t' := Except.ok.inj hrest
      cases ha : read value with
      | error e => simp [ha, Except.map] at hmember
      | ok a =>
          obtain rfl : set s' a = u' := by simpa [ha, Except.map] using hmember
          exact ⟨fun _ hlookup => (nomatch hlookup), fun _ => ⟨s, rfl, hfield.right a hs⟩⟩
  | cons m ms ih =>
      obtain ⟨found, w⟩ := m
      by_cases hkey : found = key
      · subst hkey
        rw [Json.setMember, if_pos rfl, members_cons, member_eq hfield hfind,
          bind_eq_ok_iff] at hread
        obtain ⟨u', hmember, hrest⟩ := hread
        rw [members_cons, member_eq hfield hfind]
        simp only [List.lookup_cons_self, Option.some.injEq, forall_eq']
        refine ⟨fun e he => by rw [he]; rfl, fun ⟨b, hb⟩ => ?_⟩
        cases ha : read value with
        | error e => simp [ha, Except.map] at hmember
        | ok a =>
            obtain rfl : set s' a = u' := by simpa [ha, Except.map] using hmember
            rw [hb]
            exact h.members (hfield.left b (hfield.right a hs)) hrest
      · rw [Json.setMember, if_neg hkey, members_cons, bind_eq_ok_iff] at hread
        obtain ⟨u', hmember, hrest⟩ := hread
        obtain ⟨u, hu, hrelated⟩ := h.member hs hmember
        have hlookup : ((found, w) :: ms).lookup key = ms.lookup key := by
          rw [List.lookup_cons, beq_false_of_ne (Ne.symm hkey)]
        rw [hlookup, members_cons, hu]
        exact ih hrelated hrest

/-- Setting the value of a field adds no member of another name. -/
theorem any_setMember {name : String} {value : Json} {ms : List (String × Json)}
    (hname : name ≠ key) :
    (Json.setMember key value ms).any (·.1 == name) = ms.any (·.1 == name) := by
  induction ms with
  | nil => simp [Json.setMember, Ne.symm hname]
  | cons m ms ih =>
      obtain ⟨found, w⟩ := m
      by_cases hkey : found = key
      · simp [Json.setMember, hkey]
      · simp [Json.setMember, hkey, ih]

theorem any_eq_isSome_lookup (key : String) (ms : List (String × Json)) :
    ms.any (·.1 == key) = (ms.lookup key).isSome := by
  induction ms with
  | nil => rfl
  | cons m ms ih =>
      obtain ⟨found, w⟩ := m
      by_cases hkey : found = key
      · simp [hkey]
      · simp [List.lookup_cons, beq_false_of_ne hkey, beq_false_of_ne (Ne.symm hkey), ih]

/-- No field is missing if each one that is needed has a member. -/
theorem missing?_eq_none_iff {ms : List (String × Json)} :
    missing? fields ms = none ↔
      ∀ f ∈ fields, f.presence = .needed → ms.any (·.1 == f.name) = true := by
  rw [missing?, Option.map_eq_none_iff, List.find?_eq_none]
  refine forall₂_congr fun f _ => ?_
  cases ms.any (·.1 == f.name) <;> simp

/-- If no field is missing once a needed one is set, then it is the only one that may be missing. -/
theorem missing?_of_setMember (hfind : fields.find? (·.name == key) = some field)
    (hneeded : field.presence = .needed) {value : Json} {ms : List (String × Json)}
    (hset : missing? fields (Json.setMember key value ms) = none) :
    missing? fields ms = if (ms.lookup key).isSome then none else some key := by
  have hothers : ∀ f ∈ fields, f.presence = .needed → f.name ≠ key →
      ms.any (·.1 == f.name) = true := fun f hf hpresence hname =>
    any_setMember hname ▸ missing?_eq_none_iff.1 hset f hf hpresence
  split
  · rename_i hlookup
    refine missing?_eq_none_iff.2 fun f hf hpresence => ?_
    by_cases hname : f.name = key
    · rw [hname, any_eq_isSome_lookup, hlookup]
    · exact hothers f hf hpresence hname
  · rename_i hlookup
    cases hmissing : missing? fields ms with
    | none =>
        have hname : field.name = key := by simpa using List.find?_some hfind
        have hmember := missing?_eq_none_iff.1 hmissing field (List.mem_of_find?_eq_some hfind)
          hneeded
        rw [hname, any_eq_isSome_lookup] at hmember
        exact absurd hmember hlookup
    | some name =>
        obtain ⟨f, hf, rfl⟩ := Option.map_eq_some_iff.1 hmissing
        have hcondition := List.find?_some hf
        simp only [Bool.and_eq_true, beq_iff_eq, Bool.not_eq_true'] at hcondition
        obtain ⟨hpresence, hmember⟩ := hcondition
        by_contra hname
        have hpresent := hothers f (List.mem_of_find?_eq_some hf) hpresence fun heq =>
          hname (congrArg some heq)
        rw [hmember] at hpresent
        cases hpresent

variable {type : String} {start : σ} {ms : List (String × Json)}

/-- Without missing fields a record is read member by member. -/
theorem record_of_missing?_eq_none (h : missing? fields ms = none) :
    record type fields start (.object ms) = members fields start ms := by
  simp only [record, h]
  cases members fields start ms <;> rfl

/-- A missing field is reported after the members are read. -/
theorem record_of_missing?_eq_some {name : String} (h : missing? fields ms = some name) :
    record type fields start (.object ms) =
      (members fields start ms >>= fun _ => .error (.missingField name)) := by
  simp only [record, h]

/-- If a record can be read once the value of a needed field is set, then the record itself is
read exactly if it has a value in its place that can be read. -/
theorem record_of_setMember (h : Respects R fields) (hfield : Unnoticed R field read set)
    (hfind : fields.find? (·.name == key) = some field) (hneeded : field.presence = .needed)
    (hstart : R start start) {value : Json} {t' : σ}
    (hread : record type fields start (.object (Json.setMember key value ms)) = .ok t') :
    (ms.lookup key = none →
      record type fields start (.object ms) = .error (.missingField key)) ∧
    ∀ w, ms.lookup key = some w →
      (∀ e, read w = .error e → record type fields start (.object ms) = .error e) ∧
      ∀ a, read w = .ok a → ∃ t, record type fields start (.object ms) = .ok t ∧ R t t' := by
  cases hset : missing? fields (Json.setMember key value ms) with
  | some name =>
      rw [record_of_missing?_eq_some hset, bind_eq_ok_iff] at hread
      obtain ⟨_, _, hfailed⟩ := hread
      cases hfailed
  | none =>
      rw [record_of_missing?_eq_none hset] at hread
      have hmissing := missing?_of_setMember hfind hneeded hset
      obtain ⟨herror, hok⟩ := members_of_setMember h hfield hfind hstart hread
      refine ⟨fun hlookup => ?_, fun w hlookup => ?_⟩
      · rw [hlookup] at hmissing
        obtain ⟨t, ht, _⟩ := hok fun w hw => by cases hlookup.symm.trans hw
        rw [record_of_missing?_eq_some hmissing, ht]
        rfl
      · rw [hlookup] at hmissing
        rw [record_of_missing?_eq_none hmissing]
        refine ⟨herror w hlookup, fun a ha => hok fun w' hw' => ?_⟩
        obtain rfl : w = w' := Option.some.inj (hlookup.symm.trans hw')
        exact ⟨a, ha⟩

end TypedClient.Decode
