import TypedClient.Proofs.Document.Core

/-!
# Added members that are read

The object of the paths and the object of responses read each of their members. If a tree with an
extension member there is a document, then the value of the new member can be read
(`readable_of_document`). The way from the document to such an object leads through paths, path items
and operations only: `Role.level` rises along it, and `Inserts.level_le` says that the new member
stands no higher than the value that it is inserted into. A new member among the paths makes a
further path (`exists_added_path`).
-/

namespace TypedClient

namespace Decode

variable {σ : Type} {fields : List (FieldReader σ)} {field : FieldReader σ}

/-- A fold that succeeds takes every step. -/
theorem exists_step_of_foldlM {ι : Type} {step : σ → ι → Result σ} {s r : σ} {entries : List ι}
    (h : entries.foldlM step s = .ok r) {i : ι} (hi : i ∈ entries) : ∃ s t, step s i = .ok t := by
  induction entries generalizing s with
  | nil => cases hi
  | cons j entries ih =>
      rw [List.foldlM_cons, bind_eq_ok_iff] at h
      obtain ⟨t, hstep, hrest⟩ := h
      rcases List.mem_cons.1 hi with rfl | hi
      · exact ⟨s, t, hstep⟩
      · exact ih hrest hi

/-- What is read into a record is read from each member of a field. -/
theorem exists_read_of_members {s r : σ} {ms : List (String × Json)}
    (h : members fields s ms = .ok r) {name : String} {v : Json} (hmem : (name, v) ∈ ms)
    (hfind : fields.find? (·.name == name) = some field) : ∃ s t, field.read s v = .ok t := by
  obtain ⟨s, t, hstep⟩ := exists_step_of_foldlM h hmem
  simp only [hfind] at hstep
  exact ⟨s, t, hstep⟩

/-- What is read into a record is read from each item. -/
theorem exists_read_of_items {tooFew : Nat → DecodeError} {index i : Nat} {s r : σ}
    {values : List Json} (h : items tooFew index fields s values = .ok r) {v : Json}
    (hv : values[i]? = some v) (hfield : fields[i]? = some field) :
    ∃ s t, field.read s v = .ok t := by
  induction fields generalizing index i s values with
  | nil => cases hfield
  | cons f fields ih =>
      cases values with
      | nil => cases hv
      | cons w values =>
          rw [items, bind_eq_ok_iff] at h
          obtain ⟨t, hread, hrest⟩ := h
          cases i with
          | zero =>
              obtain rfl := Option.some.inj hv
              obtain rfl := Option.some.inj hfield
              exact ⟨s, t, hread⟩
          | succ i => exact ih hrest hv hfield

/-- A record that is read from an object is read from its members. -/
theorem members_of_record {type : String} {start r : σ} {ms : List (String × Json)}
    (h : record type fields start (.object ms) = .ok r) : members fields start ms = .ok r := by
  rw [record_object, bind_eq_ok_iff] at h
  obtain ⟨s, hs, hmissing⟩ := h
  cases hname : missing? fields ms with
  | none =>
      rw [hname] at hmissing
      exact Except.ok.inj hmissing ▸ hs
  | some name => rw [hname] at hmissing; cases hmissing

/-- Members of other names leave what a record has for a field. -/
theorem get_eq_of_members {α : Type} {name : String} (get : σ → α)
    (hothers : ∀ f ∈ fields, f.name ≠ name → ∀ s v t, f.read s v = .ok t → get t = get s)
    {s r : σ} {ms : List (String × Json)} (h : members fields s ms = .ok r)
    (hname : name ∉ ms.map (·.1)) : get r = get s := by
  induction ms generalizing s with
  | nil => exact congrArg get (Except.ok.inj h).symm
  | cons m ms ih =>
      rw [List.map_cons, List.mem_cons, not_or] at hname
      rw [members_cons, bind_eq_ok_iff] at h
      obtain ⟨t, hmember, hrest⟩ := h
      rw [ih hrest hname.2]
      unfold member at hmember
      cases hfind : fields.find? (·.name == m.1) with
      | none =>
          rw [hfind] at hmember
          exact congrArg get (Except.ok.inj hmember).symm
      | some f =>
          rw [hfind] at hmember
          have hf : f.name = m.1 := by simpa using List.find?_some hfind
          exact hothers f (List.mem_of_find?_eq_some hfind) (hf ▸ Ne.symm hname.1) s m.2 t hmember

/-- What is read for a field of a record is read from the only member of its name. -/
theorem get_of_members {α : Type} {read : Json → Result α} {name : String} (get : σ → α)
    (hfind : fields.find? (·.name == name) = some field)
    (hfield : ∀ s v t, field.read s v = .ok t → read v = .ok (get t))
    (hothers : ∀ f ∈ fields, f.name ≠ name → ∀ s v t, f.read s v = .ok t → get t = get s)
    {s r : σ} {ms : List (String × Json)} (h : members fields s ms = .ok r)
    (hnodup : (ms.map (·.1)).Nodup) {v : Json} (hmem : (name, v) ∈ ms) :
    read v = .ok (get r) := by
  induction ms generalizing s with
  | nil => cases hmem
  | cons m ms ih =>
      rw [List.map_cons, List.nodup_cons] at hnodup
      rw [members_cons, bind_eq_ok_iff] at h
      obtain ⟨t, hmember, hrest⟩ := h
      rcases List.mem_cons.1 hmem with rfl | hmem
      · rw [member, hfind] at hmember
        rw [get_eq_of_members get hothers hrest hnodup.1]
        exact hfield s v t hmember
      · exact ih hrest hnodup.2 hmem

theorem map_eq_ok_iff {α β : Type} {x : Result α} {f : α → β} {b : β} :
    x.map f = .ok b ↔ ∃ a, x = .ok a ∧ f a = b := by
  cases x <;> simp [Except.map]

end Decode

namespace Document

open Decode

/-- How far a role stands below the document, on the way to responses. -/
def Role.level : Role → Nat
  | .document => 0
  | .paths => 1
  | .pathItem => 2
  | .operation => 3
  | .responses => 4
  | .list item => item.level
  | .map value => value.level
  | .orRef component => component.level
  | _ => 5

namespace Role

/-- No field of a record stands above the record. -/
theorem level_le_of_mem_fields {role inner : Role} {entry : String × Option Role}
    (hentry : entry ∈ role.fields) (hinner : entry.2 = some inner) : role.level ≤ inner.level := by
  have hall : ∀ entry ∈ role.fields, ∀ inner ∈ entry.2, role.level ≤ inner.level := by
    cases role with
    | unread | paths | pathItem | responses | list | map | orRef => nofun
    | _ => decide
  exact hall entry hentry inner hinner

theorem mem_of_lookup {entries : List (String × Option Role)} {name : String}
    {role? : Option Role} (h : entries.lookup name = some role?) : (name, role?) ∈ entries := by
  obtain ⟨before, after, rfl, _⟩ := List.lookup_eq_some_iff.1 h
  simp

theorem level_le_five (role : Role) : role.level ≤ 5 := by
  induction role with
  | list item ih => exact ih
  | map value ih => exact ih
  | orRef component ih => exact ih
  | _ => decide

theorem level_le_of_member? {role inner : Role} {name : String}
    (h : role.member? name = some inner) : role.level ≤ inner.level := by
  by_cases hfields : role.fields = []
  · cases role with
    | unread | paths | responses | map =>
        obtain rfl := Option.some.inj h
        simp [level]
    | pathItem =>
        obtain rfl := Option.some.inj h
        unfold ofPathItemKey
        split
        · simp [level]
        · split <;> simp [level]
    | list | orRef => cases h
    | _ => exact absurd hfields (by decide)
  · rw [(isRecord_of_fields_ne_nil hfields).member?_eq] at h
    cases hlookup : role.fields.lookup name with
    | none =>
        rw [hlookup] at h
        obtain rfl := Option.some.inj h
        exact role.level_le_five
    | some role? =>
        rw [hlookup] at h
        exact level_le_of_mem_fields (mem_of_lookup hlookup) h

/-- The object of the paths is the only member of a document that stands so high. -/
theorem eq_paths_of_level_le {name : String} {inner : Role}
    (h : Role.document.member? name = some inner) (hlevel : inner.level ≤ 1) :
    name = "paths" ∧ inner = .paths := by
  have hinner : (Role.document.fields.lookup name).getD (some .unread) = some inner := h
  cases hlookup : Role.document.fields.lookup name with
  | none =>
      rw [hlookup] at hinner
      obtain rfl := Option.some.inj hinner
      exact absurd hlevel (by decide)
  | some role? =>
      rw [hlookup, Option.getD_some] at hinner
      subst hinner
      have hall : ∀ entry ∈ Role.document.fields, ∀ inner ∈ entry.2, inner.level ≤ 1 →
          entry.1 = "paths" ∧ inner = .paths := by
        decide
      exact hall _ (mem_of_lookup hlookup) inner rfl hlevel

theorem level_le_of_item? {role inner : Role} {index : Nat}
    (h : role.item? index = some inner) : role.level ≤ inner.level := by
  by_cases hfields : role.fields = []
  · cases role with
    | unread | list =>
        obtain rfl := Option.some.inj h
        simp [level]
    | paths | pathItem | responses | map | orRef => cases h
    | _ => exact absurd hfields (by decide)
  · rw [(isRecord_of_fields_ne_nil hfields).item?_eq] at h
    obtain ⟨entry, hentry, hinner⟩ := Option.bind_eq_some_iff.1 h
    exact level_le_of_mem_fields (List.mem_of_getElem? hentry) hinner

end Role

variable {key : String} {value : Json} {site : Role}

/-- The new member stands no higher than the value that it is inserted into. -/
theorem Inserts.level_le {role : Role} {v v' : Json} (h : Inserts key value site role v v') :
    role.level ≤ site.level := by
  induction h with
  | here before after hsite => exact Nat.le_refl _
  | member name before after hrole hinner ih =>
      exact Nat.le_trans (Role.level_le_of_member? hrole) ih
  | item before after hrole hinner ih => exact Nat.le_trans (Role.level_le_of_item? hrole) ih
  | orRef hinner ih => exact ih

/-- Whether the value of a new member can be read if the object of its role reads it. -/
def Readable (site : Role) (value : Json) : Prop :=
  match site with
  | .paths => ∃ item, PathItem.decode value = .ok item
  | .responses => ∃ response, RefOr.decode Response.decode value = .ok response
  | _ => True

/-- Below responses no new member is read. -/
theorem Inserts.readable_of_level {role : Role} {v v' : Json}
    (h : Inserts key value site role v v') (hrole : role.level = 5) : Readable site value := by
  have hlevel := h.level_le
  rw [hrole] at hlevel
  unfold Readable
  split
  · exact absurd hlevel (by decide)
  · exact absurd hlevel (by decide)
  · trivial

/-- A field reads new members: if its value can be read with a new member inside, then the value of
the new member can be read. -/
structure ReadsNew (key : String) (value : Json) (site : Role) {σ : Type}
    (entry : String × Option Role) (field : FieldReader σ) : Prop where
  name_eq : field.name = entry.1
  readable : ∀ inner, entry.2 = some inner → ∀ s t v v', Inserts key value site inner v v' →
    field.read s v' = .ok t → Readable site value

section Record

variable {σ α : Type} {name : String} {role : Role} {presence : Presence}

theorem readsNew_of_none {read : σ → Json → Result σ} :
    ReadsNew key value site (name, none) ⟨name, presence, read⟩ :=
  ⟨rfl, nofun⟩

theorem readsNew_of_level {read : σ → Json → Result σ} (hrole : role.level = 5) :
    ReadsNew key value site (name, some role) ⟨name, presence, read⟩ := by
  refine ⟨rfl, fun inner hinner s t v v' hins _ => ?_⟩
  obtain rfl := Option.some.inj hinner
  exact hins.readable_of_level hrole

theorem readsNew_of_set {read : Json → Result α} {set : σ → α → σ}
    (h : ∀ v v' a, Inserts key value site role v v' → read v' = .ok a → Readable site value) :
    ReadsNew key value site (name, some role)
      ⟨name, presence, fun s v => do return set s (← read v)⟩ := by
  refine ⟨rfl, fun inner hinner s t v v' hins hread => ?_⟩
  obtain rfl := Option.some.inj hinner
  obtain ⟨a, ha, _⟩ := bind_eq_ok_iff.1 hread
  exact h v v' a hins ha

/-- The value of a new member can be read if a record can be read with it, as far as this is so for
the fields. -/
theorem readable_of_record {type : String} {fields : List (FieldReader σ)} {start r : σ}
    (hrole : role.fields ≠ []) (hfields : List.Forall₂ (ReadsNew key value site) role.fields fields)
    {v v' : Json} (h : Inserts key value site role v v')
    (hread : record type fields start v' = .ok r) : Readable site value := by
  have hrecord := Role.isRecord_of_fields_ne_nil hrole
  cases h with
  | here before after hsite =>
      -- The paths and responses are no records.
      unfold Readable
      split
      · exact absurd rfl hrole
      · exact absurd rfl hrole
      · trivial
  | @member _ inner w w' name before after hmember hinner =>
      rw [hrecord.member?_eq] at hmember
      rcases lookup_find? (fun _ _ hnew => hnew.name_eq) hfields name with ⟨hnone, _⟩ | hfound
      · rw [hnone] at hmember
        obtain rfl := Option.some.inj hmember
        exact hinner.readable_of_level rfl
      · obtain ⟨role?, field, hlookup, hfind, hnew⟩ := hfound
        rw [hlookup, Option.getD_some] at hmember
        have hmem : (name, w') ∈ before ++ (name, w') :: after :=
          List.mem_append_right _ List.mem_cons_self
        obtain ⟨s, t, hst⟩ := exists_read_of_members (members_of_record hread) hmem hfind
        exact hnew.readable inner hmember s t w w' hinner hst
  | @item _ inner w w' before after hitem hinner =>
      rw [hrecord.item?_eq] at hitem
      obtain ⟨entry, hentry, hinnerRole⟩ := Option.bind_eq_some_iff.1 hitem
      have hlt : before.length < fields.length := by
        rw [← hfields.length_eq]
        exact (List.getElem?_eq_some_iff.1 hentry).1
      have hfield := List.getElem?_eq_getElem hlt
      have hw : (before ++ w' :: after)[before.length]? = some w' := by simp
      obtain ⟨s, t, hst⟩ := exists_read_of_items hread hw hfield
      exact (rel_of_getElem? hfields hentry hfield).readable inner hinnerRole s t w w' hinner hst
  | orRef hinner => exact absurd rfl (hrecord.ne_orRef _)

end Record

/-- An entry of a map that is read is read itself. -/
theorem exists_read_of_map {α : Type} {read : Json → Result α} {ms : List (String × Json)}
    {entries : List (String × α)} (h : Decode.map read (.object ms) = .ok entries) {name : String}
    {v : Json} (hmem : (name, v) ∈ ms) : ∃ a, read v = .ok a := by
  obtain ⟨index, hlt, hindex⟩ := List.getElem_of_mem hmem
  obtain ⟨hlength, hall⟩ := List.forall₂_iff_get.1 (mapM_eq_ok_iff.1 h)
  have hread := hall index hlt (hlength ▸ hlt)
  rw [List.get_eq_getElem, hindex] at hread
  obtain ⟨a, ha, _⟩ := map_eq_ok_iff.1 hread
  exact ⟨a, ha⟩

theorem readable_of_responses (v v' : Json) (rs : List (String × RefOr Response))
    (h : Inserts key value site .responses v v')
    (hread : Decode.map (RefOr.decode Response.decode) v' = .ok rs) : Readable site value := by
  cases h with
  | here before after hsite =>
      exact exists_read_of_map hread (List.mem_append_right _ List.mem_cons_self)
  | member name before after hrole hinner =>
      obtain rfl := Option.some.inj hrole
      exact hinner.readable_of_level rfl
  | item before after hrole hinner => cases hrole

theorem readable_of_operation {v v' : Json} {o : Operation}
    (h : Inserts key value site .operation v v') (hread : Operation.decode v' = .ok o) :
    Readable site value :=
  readable_of_record (by decide)
    (.cons readsNew_of_none (.cons readsNew_of_none (.cons readsNew_of_none
      (.cons readsNew_of_none (.cons readsNew_of_none (.cons (readsNew_of_level rfl)
        (.cons (readsNew_of_level rfl) (.cons (readsNew_of_set readable_of_responses) .nil))))))))
    h hread

theorem readable_of_pathItem {v v' : Json} {item : PathItem}
    (h : Inserts key value site .pathItem v v') (hread : PathItem.decode v' = .ok item) :
    Readable site value := by
  cases h with
  | here before after hsite => trivial
  | @member _ inner w w' name before after hrole hinner =>
      obtain ⟨s, t, hst⟩ := exists_step_of_foldlM hread
        (List.mem_append_right before (List.mem_cons_self (a := (name, w')) (l := after)))
      obtain rfl := Option.some.inj hrole
      simp only [PathItem.member] at hst
      unfold Role.ofPathItemKey at hinner
      split at hinner
      · exact hinner.readable_of_level rfl
      · rename_i hname
        rw [if_neg hname] at hst
        split at hinner
        · rename_i hmethod
          obtain ⟨method, hmethod⟩ := Option.isSome_iff_exists.1 hmethod
          rw [hmethod] at hst
          obtain ⟨o, ho, _⟩ := bind_eq_ok_iff.1 hst
          exact readable_of_operation hinner ho
        · exact hinner.readable_of_level rfl
  | item before after hrole hinner => cases hrole

theorem readable_of_paths (v v' : Json) (paths : List (String × PathItem))
    (h : Inserts key value site .paths v v')
    (hread : Decode.map PathItem.decode v' = .ok paths) : Readable site value := by
  cases h with
  | here before after hsite =>
      exact exists_read_of_map hread (List.mem_append_right _ List.mem_cons_self)
  | @member _ inner w w' name before after hrole hinner =>
      obtain rfl := Option.some.inj hrole
      obtain ⟨item, hitem⟩ := exists_read_of_map hread
        (List.mem_append_right before (List.mem_cons_self (a := (name, w')) (l := after)))
      exact readable_of_pathItem hinner hitem
  | item before after hrole hinner => cases hrole

/-- If a document can be read with the new member, then so can the value of that member, wherever
the object of its role reads it. -/
theorem readable_of_document {v v' : Json} {d : Document}
    (h : Inserts key value site .document v v') (hread : decode v' = .ok d) :
    Readable site value :=
  readable_of_record (by decide)
    (.cons readsNew_of_none (.cons (readsNew_of_level rfl) (.cons (readsNew_of_level rfl)
      (.cons (readsNew_of_set readable_of_paths) (.cons (readsNew_of_level rfl) .nil)))))
    h hread

/-! ## Members among the paths -/

variable {d : Document} {tree' : Json}

/-- The field of the paths. -/
def pathsField : FieldReader Document :=
  ⟨"paths", .defaulted, fun d v => return { d with paths := ← Decode.map PathItem.decode v }⟩

theorem find?_pathsField : fields.find? (·.name == "paths") = some pathsField := rfl

/-- The object of the paths is the member of its name, if there is one. -/
theorem paths_of_decode {ms : List (String × Json)} (hnodup : (ms.map (·.1)).Nodup) {v : Json}
    (hmem : ("paths", v) ∈ ms) (h : decode (.object ms) = .ok d) :
    Decode.map PathItem.decode v = .ok d.paths := by
  refine get_of_members Document.paths find?_pathsField ?_ ?_
    (members_of_record h) hnodup hmem
  · intro s v t hread
    obtain ⟨paths, hpaths, hset⟩ := bind_eq_ok_iff.1 hread
    obtain rfl := Except.ok.inj hset
    exact hpaths
  · intro f hf hname s v t hread
    simp only [fields, List.mem_cons, List.not_mem_nil, or_false] at hf
    rcases hf with rfl | rfl | rfl | rfl | rfl
    case inr.inr.inr.inl => exact absurd rfl hname
    all_goals
      obtain ⟨a, _, hset⟩ := bind_eq_ok_iff.1 hread
      obtain rfl := Except.ok.inj hset
      rfl

/-- The object of the paths, with a further member, is a member of the document. -/
theorem exists_paths_of_inserts {ms : List (String × Json)}
    (h : Inserts key value .paths .document (.object ms) tree') :
    ∃ before after paths others,
      ms = before ++ ("paths", .object (paths ++ others)) :: after ∧
      tree' = .object (before ++ ("paths", .object (paths ++ (key, value) :: others)) :: after) := by
  generalize htree : Json.object ms = tree at h
  cases h with
  | @member _ inner v v' name before after hrole hinner =>
      obtain ⟨rfl, rfl⟩ := Role.eq_paths_of_level_le hrole hinner.level_le
      cases hinner with
      | here paths others hsite =>
          exact ⟨before, after, paths, others, Json.object.inj htree, rfl⟩
      | @member _ inner w w' name paths others hrole hinner =>
          -- The paths stand above their items.
          obtain rfl := Option.some.inj hrole
          exact absurd hinner.level_le (by decide)
      | item paths others hrole hinner => cases hrole
  | item before after hrole hinner => cases htree

/-- A further member among the paths makes a further path. -/
theorem exists_added_path {ms : List (String × Json)} (hnodup : (ms.map (·.1)).Nodup)
    (h : Inserts key value .paths .document (.object ms) tree') {d' : Document}
    (hd : decode (.object ms) = .ok d) (hd' : decode tree' = .ok d') :
    ∃ before item after, PathItem.decode value = .ok item ∧ d.paths = before ++ after ∧
      d'.paths = before ++ (key, item) :: after := by
  obtain ⟨before, after, paths, others, rfl, rfl⟩ := exists_paths_of_inserts h
  have hnodup' : ((before ++ ("paths", Json.object (paths ++ (key, value) :: others)) :: after).map
      (·.1)).Nodup := by
    simpa using hnodup
  have hread := paths_of_decode hnodup (List.mem_append_right _ List.mem_cons_self) hd
  have hread' := paths_of_decode hnodup' (List.mem_append_right _ List.mem_cons_self) hd'
  obtain ⟨ps, qs, hps, hqs, hpaths⟩ := mapM_append_eq_ok_iff.1 hread
  obtain ⟨ps', rs, hps', hrs, hpaths'⟩ := mapM_append_eq_ok_iff.1 hread'
  obtain rfl := Except.ok.inj (hps.symm.trans hps')
  rw [List.mapM_cons, bind_eq_ok_iff] at hrs
  obtain ⟨entry, hentry, hrest⟩ := hrs
  obtain ⟨item, hitem, rfl⟩ := map_eq_ok_iff.1 hentry
  obtain ⟨qs', hqs', hrs⟩ := bind_eq_ok_iff.1 hrest
  obtain rfl := Except.ok.inj (hqs.symm.trans hqs')
  obtain rfl := Except.ok.inj hrs
  exact ⟨ps, item, qs, hitem, hpaths, hpaths'⟩

end Document

end TypedClient
