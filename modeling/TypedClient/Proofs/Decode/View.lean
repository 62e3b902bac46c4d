import TypedClient.Proofs.Decode.Record

/-!
# Reading seen through a view

Two outcomes of reading look alike through a view `e` if `x.map e = y.map e`: both fail in the same
way, or both give records of which the view shows the same. Records are read by folds over members
or items, and a fold whose steps take no notice of what the view hides gives outcomes that look
alike when one entry is replaced by another one that reads alike (`record_replace`,
`items_replace`), or when one is inserted that adds nothing to see (`record_insert`).
-/

namespace TypedClient.Decode

variable {α β γ σ τ ι : Type}

/-- Outcomes that look alike are continued alike. -/
theorem map_bind_congr {x y : Result α} {f g : α → Result β} {h : α → γ} {e : β → τ}
    (hxy : x.map h = y.map h) (hfg : ∀ a b, h a = h b → (f a).map e = (g b).map e) :
    (x >>= f).map e = (y >>= g).map e := by
  cases x with
  | error ex =>
      cases y with
      | error ey =>
          obtain rfl : ex = ey := by simpa [Except.map] using hxy
          rfl
      | ok b => simp [Except.map] at hxy
  | ok a =>
      cases y with
      | error ey => simp [Except.map] at hxy
      | ok b => exact hfg a b (by simpa [Except.map] using hxy)

/-- One outcome is continued alike by continuations that look alike. -/
theorem map_bind_congr_right {x : Result α} {f g : α → Result β} {e : β → τ}
    (hfg : ∀ a, (f a).map e = (g a).map e) : (x >>= f).map e = (x >>= g).map e := by
  cases x with
  | error err => rfl
  | ok a => exact hfg a

/-- Outcomes that look alike do so through a view that shows less. -/
theorem map_eq_of_map_eq {x y : Result α} {e : α → β} {f : α → τ} (hxy : x.map e = y.map e)
    (hf : ∀ a b, e a = e b → f a = f b) : x.map f = y.map f := by
  have hbind := map_bind_congr (f := fun a => .ok (f a)) (g := fun a => .ok (f a)) (e := id) hxy
    fun a b hab => congrArg Except.ok (hf a b hab)
  cases x <;> cases y <;> exact hbind

@[simp]
theorem map_id_eq (x : Result α) : x.map id = x := by
  cases x <;> rfl

/-! ## Folds -/

section Fold

variable {e : σ → τ} {step : σ → ι → Result σ}
  (hstep : ∀ s t i, e s = e t → (step s i).map e = (step t i).map e)
include hstep

/-- A fold takes no notice of what the view hides of its start. -/
theorem foldlM_respects {s t : σ} (h : e s = e t) (entries : List ι) :
    (entries.foldlM step s).map e = (entries.foldlM step t).map e := by
  induction entries generalizing s t with
  | nil => exact congrArg Except.ok h
  | cons i entries ih =>
      rw [List.foldlM_cons, List.foldlM_cons]
      exact map_bind_congr (hstep s t i h) fun s' t' h' => ih h'

/-- An entry may be replaced by one that reads alike. -/
theorem foldlM_replace {i j : ι} (hij : ∀ s, (step s j).map e = (step s i).map e)
    (s : σ) (before after : List ι) :
    ((before ++ j :: after).foldlM step s).map e =
      ((before ++ i :: after).foldlM step s).map e := by
  rw [List.foldlM_append, List.foldlM_append]
  refine map_bind_congr_right fun t => ?_
  rw [List.foldlM_cons, List.foldlM_cons]
  exact map_bind_congr (hij t) fun s' t' h' => foldlM_respects hstep h' after

/-- An entry may be inserted that adds nothing to see. -/
theorem foldlM_insert {i : ι} (hi : ∀ s, (step s i).map e = .ok (e s)) (s : σ)
    (before after : List ι) :
    ((before ++ i :: after).foldlM step s).map e = ((before ++ after).foldlM step s).map e := by
  rw [List.foldlM_append, List.foldlM_append]
  refine map_bind_congr_right fun t => ?_
  rw [List.foldlM_cons]
  cases hstep' : step t i with
  | error err =>
      have hok := hi t
      rw [hstep'] at hok
      cases hok
  | ok u =>
      have hok := hi t
      rw [hstep'] at hok
      exact foldlM_respects hstep (Except.ok.inj hok) after

end Fold

/-! ## The items of a record -/

/-- What the view hides of a record makes no difference to what it shows once a field is read. -/
def RespectsView (e : σ → τ) (fields : List (FieldReader σ)) : Prop :=
  ∀ f ∈ fields, ∀ s t v, e s = e t → (f.read s v).map e = (f.read t v).map e

section Items

variable {e : σ → τ} {fields : List (FieldReader σ)}

theorem RespectsView.items {tooFew : Nat → DecodeError} (hfields : RespectsView e fields)
    {s t : σ} (h : e s = e t) (index : Nat) (values : List Json) :
    (Decode.items tooFew index fields s values).map e =
      (Decode.items tooFew index fields t values).map e := by
  induction fields generalizing s t index values with
  | nil =>
      cases values with
      | nil => exact congrArg Except.ok h
      | cons v values => rfl
  | cons f fields ih =>
      obtain ⟨hfirst, hrest⟩ := List.forall_mem_cons.1 hfields
      cases values with
      | nil =>
          simp only [Decode.items]
          split
          · exact ih hrest h _ _
          · rfl
      | cons v values =>
          simp only [Decode.items]
          exact map_bind_congr (hfirst s t v h) fun s' t' h' => ih hrest h' _ _

/-- An item may be replaced by one that its field reads alike. -/
theorem items_replace {tooFew : Nat → DecodeError} (hfields : RespectsView e fields)
    (before after : List Json) {v v' : Json}
    (hv : ∀ f, fields[before.length]? = some f → ∀ s, (f.read s v').map e = (f.read s v).map e)
    (s : σ) (index : Nat) :
    (items tooFew index fields s (before ++ v' :: after)).map e =
      (items tooFew index fields s (before ++ v :: after)).map e := by
  induction before generalizing fields s index with
  | nil =>
      cases fields with
      | nil => rfl
      | cons f fields =>
          simp only [List.nil_append, items]
          refine map_bind_congr (hv f rfl s) fun s' t' h' => ?_
          exact RespectsView.items (List.forall_mem_cons.1 hfields).2 h' _ _
  | cons w before ih =>
      cases fields with
      | nil => simp [items]
      | cons f fields =>
          simp only [List.cons_append, items]
          refine map_bind_congr_right fun t => ?_
          exact ih (List.forall_mem_cons.1 hfields).2 hv t _

end Items

/-! ## Lists and maps -/

theorem mapM_append_eq_ok_iff {read : ι → Result α} {xs ys : List ι} {found : List α} :
    (xs ++ ys).mapM read = .ok found ↔
      ∃ as bs, xs.mapM read = .ok as ∧ ys.mapM read = .ok bs ∧ found = as ++ bs := by
  rw [List.mapM_append]
  simp only [bind_eq_ok_iff]
  constructor
  · rintro ⟨as, has, bs, hbs, hfound⟩
    exact ⟨as, bs, has, hbs, (Except.ok.inj hfound).symm⟩
  · rintro ⟨as, bs, has, hbs, rfl⟩
    exact ⟨as, has, bs, hbs, rfl⟩

theorem mapM_replace (read : ι → Result α) {i j : ι} (hij : read j = read i)
    (before after : List ι) :
    (before ++ j :: after).mapM read = (before ++ i :: after).mapM read := by
  rw [List.mapM_append, List.mapM_append, List.mapM_cons, List.mapM_cons, hij]

section View

variable {e : List α → List τ} (happend : ∀ as bs, e (as ++ bs) = e as ++ e bs)
include happend

/-- A list is seen entry by entry. -/
theorem mapM_cons_view (read : ι → Result α) (i : ι) (entries : List ι) :
    ((i :: entries).mapM read).map e =
      ((read i).map fun a => e [a]) >>= fun seen => (entries.mapM read).map fun as =>
        seen ++ e as := by
  rw [List.mapM_cons]
  cases read i with
  | error err => rfl
  | ok a =>
      cases entries.mapM read with
      | error err => rfl
      | ok as => exact congrArg Except.ok (happend [a] as)

/-- An entry may be replaced by one that reads alike. -/
theorem mapM_replace_view (read : ι → Result α) {i j : ι}
    (hij : ((read j).map fun a => e [a]) = (read i).map fun a => e [a]) (before after : List ι) :
    ((before ++ j :: after).mapM read).map e = ((before ++ i :: after).mapM read).map e := by
  induction before with
  | nil =>
      rw [List.nil_append, List.nil_append, mapM_cons_view happend, mapM_cons_view happend, hij]
  | cons k before ih =>
      rw [List.cons_append, List.cons_append, mapM_cons_view happend, mapM_cons_view happend]
      refine congrArg _ (funext fun seen => ?_)
      exact map_eq_of_map_eq ih fun as bs has => by rw [has]

/-- An entry may be inserted that adds nothing to see. -/
theorem mapM_insert_view (read : ι → Result α) {i : ι}
    (hi : ((read i).map fun a => e [a]) = .ok []) (before after : List ι) :
    ((before ++ i :: after).mapM read).map e = ((before ++ after).mapM read).map e := by
  induction before with
  | nil =>
      rw [List.nil_append, List.nil_append, mapM_cons_view happend, hi]
      rfl
  | cons k before ih =>
      rw [List.cons_append, List.cons_append, mapM_cons_view happend, mapM_cons_view happend]
      refine congrArg _ (funext fun seen => ?_)
      exact map_eq_of_map_eq ih fun as bs has => by rw [has]

end View

/-! ## Records -/

section Record

variable {e : σ → τ} {fields : List (FieldReader σ)} {key : String} {type : String} {start : σ}

theorem RespectsView.member (hfields : RespectsView e fields) (s t : σ) (m : String × Json)
    (h : e s = e t) :
    (Decode.member fields s m.1 m.2).map e = (Decode.member fields t m.1 m.2).map e := by
  unfold Decode.member
  cases hfind : fields.find? (·.name == m.1) with
  | none => exact congrArg Except.ok h
  | some f => exact hfields f (List.mem_of_find?_eq_some hfind) s t m.2 h

theorem find?_name_eq_none (hkey : ∀ f ∈ fields, f.name ≠ key) :
    fields.find? (·.name == key) = none :=
  List.find?_eq_none.2 fun f hf => by simpa using hkey f hf

/-- Whether a field is missing depends on the keys alone. -/
theorem missing?_congr {ms ms' : List (String × Json)}
    (h : ∀ f ∈ fields, ms'.any (·.1 == f.name) = ms.any (·.1 == f.name)) :
    missing? fields ms' = missing? fields ms := by
  rw [missing?, missing?, ← List.head?_filter, ← List.head?_filter]
  congr 2
  exact List.filter_congr fun f hf => by rw [h f hf]

/-- The members of a record are read, and then missing ones are looked for. -/
theorem record_object (start : σ) (ms : List (String × Json)) :
    record type fields start (.object ms) = members fields start ms >>= fun s =>
      match missing? fields ms with
      | some name => .error (.missingField name)
      | none => .ok s := rfl

/-- Members that read alike make records that look alike, if the same fields are missing. -/
theorem record_congr {ms ms' : List (String × Json)}
    (hread : (members fields start ms').map e = (members fields start ms).map e)
    (hkeys : ∀ f ∈ fields, ms'.any (·.1 == f.name) = ms.any (·.1 == f.name)) :
    (record type fields start (.object ms')).map e =
      (record type fields start (.object ms)).map e := by
  rw [record_object, record_object, missing?_congr hkeys]
  refine map_bind_congr hread fun s t hst => ?_
  cases missing? fields ms with
  | none => exact congrArg Except.ok hst
  | some name => rfl

/-- A member that is no field may be inserted. -/
theorem record_insert (hfields : RespectsView e fields) (hkey : ∀ f ∈ fields, f.name ≠ key)
    (value : Json) (before after : List (String × Json)) :
    (record type fields start (.object (before ++ (key, value) :: after))).map e =
      (record type fields start (.object (before ++ after))).map e := by
  refine record_congr (foldlM_insert hfields.member (fun s => ?_) start before after)
    fun f hf => ?_
  · rw [Decode.member, find?_name_eq_none hkey]
    rfl
  · simp [beq_false_of_ne (Ne.symm (hkey f hf))]

/-- A member may be replaced by one that reads alike. -/
theorem record_replace (hfields : RespectsView e fields) {name : String} {v v' : Json}
    (hv : ∀ f, fields.find? (·.name == name) = some f → ∀ s,
      (f.read s v').map e = (f.read s v).map e) (before after : List (String × Json)) :
    (record type fields start (.object (before ++ (name, v') :: after))).map e =
      (record type fields start (.object (before ++ (name, v) :: after))).map e := by
  refine record_congr (foldlM_replace hfields.member (fun s => ?_) start before after)
    fun f hf => by simp
  unfold Decode.member
  cases hfind : fields.find? (·.name == name) with
  | none => rfl
  | some f => exact hv f hfind s

end Record

end TypedClient.Decode
