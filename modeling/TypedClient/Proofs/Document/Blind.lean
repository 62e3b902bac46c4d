import TypedClient.Proofs.Decode.View
import TypedClient.Proofs.Document.Role

/-!
# Readers that take no notice of added members

`Blind role read` says that a reader gives the same for a value of the role and for the value with
one extension member more in an object inside. Readers of lists, maps, optional values and
references are blind if the readers inside them are, and so are readers of records whose fields fit
the role (`blind_record`).
-/

namespace TypedClient.Document

open Decode

variable {key : String} {value : Json} {site : Role} {α β σ τ : Type}

/-- The reader gives the same without the new member and with it. -/
def Blind (key : String) (value : Json) (site role : Role) (read : Json → α) : Prop :=
  ∀ v v', Inserts key value site role v v' → read v' = read v

/-! ## Lists, maps and references -/

theorem blind_string (role : Role) : Blind key value site role string := by
  intro v v' h
  rcases h.containers with ⟨_, _, rfl, rfl⟩ | ⟨_, _, rfl, rfl⟩ <;> rfl

theorem Blind.optional {role : Role} {read : Json → Result α}
    (h : Blind key value site role read) : Blind key value site role (Decode.optional read) := by
  intro v v' hins
  have hread := h _ _ hins
  rcases hins.containers with ⟨_, _, rfl, rfl⟩ | ⟨_, _, rfl, rfl⟩
  · exact congrArg (Except.map some) hread
  · exact congrArg (Except.map some) hread

theorem Blind.list {role : Role} {read : Json → Result α}
    (h : Blind key value site role read) :
    Blind key value site (.list role) (Decode.list read) := by
  intro v v' hins
  cases hins with
  | here before after hsite => cases hsite
  | member name before after hrole hinner => cases hrole
  | item before after hrole hinner =>
      cases hrole
      exact mapM_replace read (h _ _ hinner) before after

theorem Blind.map {role : Role} {read : Json → Result α}
    (h : Blind key value site role read) :
    Blind key value site (.map role) (Decode.map read) := by
  intro v v' hins
  cases hins with
  | here before after hsite => cases hsite
  | member name before after hrole hinner =>
      cases hrole
      refine mapM_replace _ ?_ before after
      exact congrArg (Except.map (name, ·)) (h _ _ hinner)
  | item before after hrole hinner => cases hrole

/-! ## Records -/

/-- The field of a record fits what the role of the record says of it, as far as the view `e` shows
what is read. -/
structure Fits (key : String) (value : Json) (site : Role) (e : σ → τ)
    (entry : String × Option Role) (field : FieldReader σ) : Prop where
  name_eq : field.name = entry.1
  respects : ∀ s t v, e s = e t → (field.read s v).map e = (field.read t v).map e
  blind : ∀ inner, entry.2 = some inner → ∀ s,
    Blind key value site inner fun v => (field.read s v).map e

variable {e : σ → σ} {name : String} {presence : Presence} {role : Role} {read : Json → Result α}
  {set : σ → α → σ}

/-- A field that is set after its value is read respects every view that commutes with setting. -/
theorem respects_of_set {h : α → α} (hset : ∀ s a, e (set s a) = set (e s) (h a)) (s t : σ)
    (v : Json) (hst : e s = e t) :
    (do return set s (← read v) : Result σ).map e = (do return set t (← read v) : Result σ).map e :=
  map_bind_congr_right fun a => congrArg Except.ok (by rw [hset, hset, hst])

/-- A field of a plain value fits. -/
theorem fits_of_set (hset : ∀ s a, e (set s a) = set (e s) a) :
    Fits key value site e (name, none)
      ⟨name, presence, fun s v => do return set s (← read v)⟩ where
  name_eq := rfl
  respects := respects_of_set (h := id) hset
  blind := nofun

/-- A field fits if it is read by a reader which is blind as far as a view `h` shows, and if what
is set is seen through `e` as far as it is seen through `h`. -/
theorem Blind.fits_of_set {h : α → α} (hread : Blind key value site role fun v => (read v).map h)
    (hset : ∀ s a, e (set s a) = set (e s) (h a)) :
    Fits key value site e (name, some role)
      ⟨name, presence, fun s v => do return set s (← read v)⟩ where
  name_eq := rfl
  respects := respects_of_set hset
  blind inner hinner s v v' hins := by
    obtain rfl := Option.some.inj hinner
    exact map_bind_congr (hread v v' hins) fun a b hab =>
      congrArg Except.ok (by rw [hset, hset, hab])

theorem Blind.map_id (h : Blind key value site role read) :
    Blind key value site role fun v => (read v).map id :=
  fun v v' hins => congrArg (Except.map id) (h v v' hins)

theorem Blind.of_map_id (h : Blind key value site role fun v => (read v).map id) :
    Blind key value site role read := by
  intro v v' hins
  have hread : (read v').map id = (read v).map id := h v v' hins
  rwa [map_id_eq, map_id_eq] at hread

theorem fits_plain :
    Fits key value site id (name, none)
      ⟨name, presence, fun s v => do return set s (← read v)⟩ :=
  Document.fits_of_set fun _ _ => rfl

theorem Blind.fits (h : Blind key value site role read) :
    Fits key value site id (name, some role)
      ⟨name, presence, fun s v => do return set s (← read v)⟩ :=
  h.map_id.fits_of_set fun _ _ => rfl

section Record

variable {e : σ → τ} {entries : List (String × Option Role)} {fields : List (FieldReader σ)}

/-- A name has an entry exactly if it has a field, and then the two are related. -/
theorem lookup_find? {R : String × Option Role → FieldReader σ → Prop}
    (hname : ∀ entry field, R entry field → field.name = entry.1)
    (h : List.Forall₂ R entries fields) (name : String) :
    (entries.lookup name = none ∧ fields.find? (·.name == name) = none) ∨
      ∃ role? field, entries.lookup name = some role? ∧
        fields.find? (·.name == name) = some field ∧ R (name, role?) field := by
  induction h with
  | nil => exact .inl ⟨rfl, rfl⟩
  | @cons entry field entries fields hrel hrest ih =>
      have hfield := hname entry field hrel
      by_cases heq : field.name = name
      · have hentry : entry = (name, entry.2) := Prod.ext (hfield.symm.trans heq) rfl
        rw [List.find?_cons_of_pos (by simpa using heq)]
        rw [hentry] at hrel ⊢
        exact .inr ⟨entry.2, field, List.lookup_cons_self, rfl, hrel⟩
      · rw [List.find?_cons_of_neg (by simpa using heq)]
        rw [hfield] at heq
        rw [List.lookup_cons, beq_false_of_ne (Ne.symm heq)]
        exact ih

/-- The field and the entry at the same place are related. -/
theorem rel_of_getElem? {R : String × Option Role → FieldReader σ → Prop}
    (h : List.Forall₂ R entries fields) {index : Nat} {entry : String × Option Role}
    {field : FieldReader σ} (hentry : entries[index]? = some entry)
    (hfield : fields[index]? = some field) : R entry field := by
  obtain ⟨hlt, rfl⟩ := List.getElem?_eq_some_iff.1 hentry
  obtain ⟨hlt', rfl⟩ := List.getElem?_eq_some_iff.1 hfield
  exact (List.forall₂_iff_get.1 h).2 _ hlt hlt'

theorem names_eq_of_fits (h : List.Forall₂ (Fits key value site e) entries fields) :
    fields.map (·.name) = entries.map (·.1) := by
  induction h with
  | nil => rfl
  | cons hfits hrest ih => rw [List.map_cons, List.map_cons, hfits.name_eq, ih]

theorem respectsView_of_fits (h : List.Forall₂ (Fits key value site e) entries fields) :
    RespectsView e fields := by
  induction h with
  | nil => nofun
  | cons hfits hrest ih => exact List.forall_mem_cons.2 ⟨hfits.respects, ih⟩

/-- A record takes no notice of the new member if its fields do, wherever they are read. -/
theorem blind_record_of_fields {role : Role} {type : String} {start : σ}
    (hrespects : RespectsView e fields) (hnames : ∀ f ∈ fields, f.name ≠ key)
    (hrole : ∀ component, role ≠ .orRef component)
    (hmember : ∀ name f inner, fields.find? (·.name == name) = some f →
      role.member? name = some inner → ∀ s, Blind key value site inner fun v => (f.read s v).map e)
    (hitem : ∀ index f inner, fields[index]? = some f → role.item? index = some inner →
      ∀ s, Blind key value site inner fun v => (f.read s v).map e) :
    Blind key value site role fun v => (record type fields start v).map e := by
  intro v v' hins
  cases hins with
  | here before after hsite => exact record_insert hrespects hnames value before after
  | member name before after hrole hinner =>
      refine record_replace hrespects (fun f hfind s => ?_) before after
      exact hmember name f _ hfind hrole s _ _ hinner
  | item before after hrole hinner =>
      refine items_replace hrespects before after (fun f hf s => ?_) start 0
      exact hitem _ f _ hf hrole s _ _ hinner
  | orRef hinner => exact absurd rfl (hrole _)

/-- A record whose fields fit its role takes no notice of the new member. -/
theorem blind_record {role : Role} {type : String} {start : σ} (hkey : IsExtensionKey key)
    (hrole : role.fields ≠ []) (h : List.Forall₂ (Fits key value site e) role.fields fields) :
    Blind key value site role fun v => (record type fields start v).map e := by
  have hrecord := Role.isRecord_of_fields_ne_nil hrole
  refine blind_record_of_fields (respectsView_of_fits h) ?_ hrecord.ne_orRef ?_ ?_
  · rintro f hf rfl
    refine hkey.not_mem_fields role ?_
    rw [← names_eq_of_fits h]
    exact List.mem_map_of_mem hf
  · intro name f inner hfind hmember
    rcases lookup_find? (fun _ _ hfits => hfits.name_eq) h name with ⟨_, hnone⟩ | hfound
    · cases hnone.symm.trans hfind
    · obtain ⟨role?, g, hlookup, hfind', hfits⟩ := hfound
      obtain rfl := Option.some.inj (hfind.symm.trans hfind')
      rw [hrecord.member?_eq, hlookup, Option.getD_some] at hmember
      exact hfits.blind inner hmember
  · intro index f inner hf hitem
    rw [hrecord.item?_eq] at hitem
    obtain ⟨entry, hentry, hinner⟩ := Option.bind_eq_some_iff.1 hitem
    exact (rel_of_getElem? h hentry hf).blind inner hinner

/-- The same for all that is read. -/
theorem blind_plainRecord {role : Role} {type : String} {start : σ} (hkey : IsExtensionKey key)
    (hrole : role.fields ≠ []) (h : List.Forall₂ (Fits key value site id) role.fields fields) :
    Blind key value site role (record type fields start) :=
  (blind_record hkey hrole h).of_map_id

end Record

/-! ## References -/

/-- A reference is read from its target alone, and this is a text. -/
theorem blind_decodeReference {role : Role} (hkey : IsExtensionKey key)
    (hrole : ∀ component, role ≠ .orRef component) :
    Blind key value site role decodeReference := by
  refine Blind.of_map_id (blind_record_of_fields ?_ ?_ hrole ?_ ?_)
  · intro f hf s t v hst
    rw [id_eq, id_eq] at hst
    rw [hst]
  · intro f hf
    obtain rfl := List.mem_singleton.1 hf
    exact (hkey.ne_of_not_starts (by decide)).symm
  · intro name f inner hfind _ s
    obtain rfl := List.mem_singleton.1 (List.mem_of_find?_eq_some hfind)
    exact (blind_string inner).map_id
  · intro index f inner hf _ s
    obtain rfl := List.mem_singleton.1 (List.mem_of_getElem? hf)
    exact (blind_string inner).map_id

theorem Blind.orRef {component : Role} {read : Json → Result α} (hkey : IsExtensionKey key)
    (hrole : component.fields ≠ []) (h : Blind key value site component read) :
    Blind key value site (.orRef component) (RefOr.decode read) := by
  have hrecord := Role.isRecord_of_fields_ne_nil hrole
  intro v v' hins
  cases hins with
  | here before after hsite => cases hsite
  | member name before after hmember hinner => cases hmember
  | item before after hitem hinner => cases hitem
  | orRef hinner =>
      have href := blind_decodeReference hkey hrecord.ne_orRef v v' hinner
      have hread := h v v' hinner
      simp only [RefOr.decode, firstOf, List.findSome?_cons, List.findSome?_nil, href, hread]

end TypedClient.Document
