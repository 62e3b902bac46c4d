import TypedClient.Proofs.Client.Drafted
import TypedClient.Proofs.Client.Reading
import TypedClient.Proofs.Client.Renaming

/-!
# When the definitions of inline objects keep their bindings

A client keeps the bindings of a document if the reference at the position of every inline
object names a definition that is built from this very object, and the references at
different positions name different definitions. The provisional name of a definition is the
key under which references to it are redirected, and two positions may share one: a slash
in the name of a property reads like a step into an object. `keepsBindings_iff` is the exact
condition. `petDocument name` keeps its bindings or breaks them with the name of a property.
-/

namespace TypedClient

open Model (IsProvisionalName)

/-- The definition is built from the object: it is what is lifted out of it, under a final name and
with the references to other lifted definitions redirected. -/
def Spot.Defines (spot : Spot) (m : Model) : Prop :=
  ∃ target : String → String, (∀ name, ¬ IsProvisionalName name → target name = name) ∧
    m = Client.finishModel target { spot.definition with name := m.name }

/-- No two inline objects share a key. -/
def Document.KeysDistinct (d : Document) (promote : Bool) : Prop :=
  ∀ p q spot other, d.object? promote p = some spot → d.object? promote q = some other →
    spot.key = other.key → p = q

namespace Client

/-- The references at the positions of inline objects name their own definitions. -/
structure KeepsBindings (c : Client) (d : Document) (promote : Bool) : Prop where
  /-- The reference names a definition that is built from the object at the position. -/
  bound : ∀ p spot, d.object? promote p = some spot → ∃ ref m, c.modelAt? p = some ref ∧
    ref.kind = .reference ∧ m ∈ c.models ∧ m.name = ref.base ∧ spot.Defines m
  /-- At different positions different definitions are named. -/
  distinct : ∀ p q spot other ref ref', d.object? promote p = some spot →
    d.object? promote q = some other → c.modelAt? p = some ref → c.modelAt? q = some ref' →
    ref.base = ref'.base → p = q

variable {d : Document} {promote : Bool}

/-! ## Where a key leads -/

/-- A provisional name leads to a lifted definition that carries it. -/
theorem exists_named_of_mem_provisionalNames {models : List Model} {name : String}
    (h : name ∈ provisionalNames models) :
    ∃ m ∈ liftedModels models, m.name = name ∧
      withName m (finalName (renames models) name) ∈ namedModels models := by
  have hzip := mem_zip_finalName_renames h
  rw [provisionalNames, List.zip_map_left] at hzip
  obtain ⟨⟨m, final⟩, hpair, heq⟩ := List.mem_map.1 hzip
  obtain ⟨rfl, rfl⟩ := Prod.mk.inj heq
  refine ⟨m, (List.of_mem_zip hpair).1, rfl, (namedModels_perm models).mem_iff.2 ?_⟩
  exact List.mem_append_right _ (List.mem_map.2 ⟨_, hpair, rfl⟩)

/-- The key of an object is the provisional name of its definition. -/
theorem key_mem_provisionalNames (hnodup : (d.declaredNames promote).Nodup) {p : Position}
    {spot : Spot} (h : d.object? promote p = some spot) :
    spot.key ∈ provisionalNames (drafted d promote).models :=
  List.mem_map.2 ⟨spot.definition, (mem_lifted_iff hnodup).2 ⟨p, spot, h, rfl⟩,
    Model.name_liftedDefinition _ _ _⟩

/-- The final name of an object's key is that of a definition, built from an object with that
key. -/
theorem exists_definition_of_object? (hnodup : (d.declaredNames promote).Nodup) {p : Position}
    {spot : Spot} (h : d.object? promote p = some spot) :
    ∃ q other, d.object? promote q = some other ∧ other.key = spot.key ∧
      finishModel (drafted d promote).target
        (withName other.definition ((drafted d promote).target spot.key)) ∈
          (drafted d promote).finished.models := by
  obtain ⟨m, hm, hname, hnamed⟩ :=
    exists_named_of_mem_provisionalNames (key_mem_provisionalNames hnodup h)
  obtain ⟨q, other, hq, rfl⟩ := (mem_lifted_iff hnodup).1 hm
  refine ⟨q, other, hq, (Model.name_liftedDefinition _ _ _).symm.trans hname, ?_⟩
  exact (models_finished_perm _).mem_iff.2 (List.mem_map_of_mem hnamed)

/-- The key of the object leads to a definition with the object's own parts. -/
def Leads (c : Client) (target : String → String) (spot : Spot) : Prop :=
  ∃ m, c.model? (target spot.key) = some m ∧
    m.parts = spot.definition.parts.map (finishModel target)

/-- A key that no other object shares leads to the definition of its object. -/
theorem leads_of_unique (hnodup : (d.declaredNames promote).Nodup) {p : Position} {spot : Spot}
    (h : d.object? promote p = some spot)
    (hunique : ∀ q other, d.object? promote q = some other → other.key = spot.key → q = p) :
    Leads (drafted d promote).finished (drafted d promote).target spot := by
  obtain ⟨q, other, hq, hkey, hmem⟩ := exists_definition_of_object? hnodup h
  obtain rfl := hunique q other hq hkey
  obtain rfl : other = spot := Option.some.inj (hq.symm.trans h)
  have hmodel := model?_finished (by rwa [fixedNames_drafted]) hmem
  rw [name_finishModel, name_withName] at hmodel
  refine ⟨_, hmodel, ?_⟩
  rw [parts_finishModel, parts_withName]

/-! ## Reading up to an object -/

/-- At an object stands a reference to where its key leads. -/
theorem reference_of_alike {target : String → String} {m : Model} {spot : Spot}
    (hm : Model.Alike m (finishModel target spot.built.1))
    (hs : spot.schema.outline.shape = .object) :
    m.kind = .reference ∧ m.base = target spot.key := by
  have hbuilt : spot.built.1 = Model.standIn spot.scope "" spot.place spot.schema := by
    rw [Spot.built, Model.embed_of_object _ _ _ hs]
  rw [hm.kind_eq, hm.base_eq, hbuilt]
  simp [finishModel, Model.standIn, Model.reference, Spot.key]

/-- A schema that has parts and is no object leaves a model that is no reference. -/
theorem kind_ne_reference_of_alike {target : String → String} {m : Model} {spot : Spot}
    (hm : Model.Alike m (finishModel target spot.built.1))
    (hs : spot.schema.outline.shape ≠ .object) (hparts : spot.schema.parts ≠ []) :
    m.kind ≠ .reference := by
  have hkind : m.kind = Model.kindOf spot.schema.outline.shape := by
    rw [hm.kind_eq, finishModel, Model.kind_refreshImports, Model.kind_redirect, Spot.built,
      Model.embed_of_not_object _ _ _ hs]
    rfl
  rw [hkind]
  intro hreference
  have hshape := Model.kindOf_eq_reference_iff.1 hreference
  exact hparts (by rw [Schema.parts, hshape]; rfl)

/-- The model that is left at a spot leads to the parts of the spot's schema: by itself, or through
the definition of an object. -/
theorem exists_resolve?_of_alike {c : Client} {target : String → String} {m : Model} {spot : Spot}
    (hm : Model.Alike m (finishModel target spot.built.1))
    (hleads : spot.schema.outline.shape = .object → Leads c target spot)
    (hparts : spot.schema.parts ≠ []) :
    ∃ n, c.resolve? m = some n ∧ n.parts =
      spot.schema.parts.map fun part =>
        finishModel target (Model.ofPart spot.scope spot.place part) := by
  by_cases hs : spot.schema.outline.shape = .object
  · obtain ⟨n, hn, hnparts⟩ := hleads hs
    obtain ⟨hkind, hbase⟩ := reference_of_alike hm hs
    exact ⟨n, by rw [resolve?, if_pos hkind, hbase, hn],
      hnparts.trans (map_parts_definition target hs)⟩
  · have hkind := kind_ne_reference_of_alike hm hs hparts
    refine ⟨m, by rw [resolve?, if_neg hkind], ?_⟩
    rw [hm.parts_eq, parts_finishModel, Spot.built, Model.parts_embed_of_not_object _ _ _ hs,
      List.map_map]
    rfl

/-- Reading up to an object ends at a reference to where its key leads, if the keys of the objects
on the way lead to their own definitions. -/
theorem exists_read?_of_leads {c : Client} {target : String → String} {m : Model}
    {spot found : Spot} {route : List Nat}
    (hm : Model.Alike m (finishModel target spot.built.1))
    (hfound : spot.object? route = some found)
    (hleads : ∀ before after mid, route = before ++ after → after ≠ [] →
      spot.object? before = some mid → Leads c target mid) :
    ∃ ref, c.read? m route = some ref ∧ ref.kind = .reference ∧ ref.base = target found.key := by
  induction route generalizing m spot with
  | nil =>
      obtain ⟨_, s, hs, hobject, rfl⟩ := Spot.object?_eq_some_iff.1 hfound
      obtain ⟨rfl, rfl⟩ := Prod.mk.inj (Option.some.inj hs)
      rw [List.append_nil]
      exact ⟨m, rfl, reference_of_alike hm hobject⟩
  | cons index route ih =>
      obtain ⟨segment, name, isRequired, s, hpart, hrest⟩ := Spot.exists_of_object?_cons hfound
      have hparts : spot.schema.parts ≠ [] := List.ne_nil_of_mem (List.mem_of_getElem? hpart)
      -- If an object stands here, reading goes on in its definition.
      have hself : spot.schema.outline.shape = .object → Leads c target spot := fun hs =>
        hleads [] (index :: route) spot rfl (List.cons_ne_nil _ _) (Spot.object?_nil hs)
      obtain ⟨n, hresolve, hnparts⟩ := exists_resolve?_of_alike hm hself hparts
      have hinner := finish_alike target
        (Spot.alike_ofPart spot.scope segment name spot.place isRequired s)
      obtain ⟨ref, href, hreference⟩ := ih hinner hrest fun before after mid heq hafter hmid =>
        hleads (index :: before) after mid (by rw [heq, List.cons_append]) hafter
          (by rw [Spot.object?_cons before hpart, hmid])
      refine ⟨ref, ?_, hreference⟩
      have hread : n.parts[index]? = some (finishModel target
          (Model.ofPart spot.scope spot.place (.inner segment name isRequired s))) := by
        rw [hnparts, List.getElem?_map, hpart]
        rfl
      rw [read?, hresolve]
      simp only [bind, Option.bind_some, hread]
      exact href

/-- If no key that is shorter is shared, then the reference at the position of an object names the
definition to which the key leads. -/
theorem exists_modelAt?_of_shorter (hnodup : (d.declaredNames promote).Nodup) {p : Position}
    {spot : Spot} (h : d.object? promote p = some spot)
    (hshorter : ∀ q r other another, d.object? promote q = some other →
      d.object? promote r = some another → other.key.length < spot.key.length →
      other.key = another.key → q = r) :
    ∃ ref, (drafted d promote).finished.modelAt? p = some ref ∧ ref.kind = .reference ∧
      ref.base = (drafted d promote).target spot.key := by
  obtain ⟨a, route⟩ := p
  obtain ⟨start, hstart, hroute⟩ := Option.bind_eq_some_iff.1 h
  have hattached := Document.attached_of_spot? hstart
  obtain ⟨m, hm, halike⟩ := exists_anchored?_finished hnodup hattached
  have hleads : ∀ before after mid, route = before ++ after → after ≠ [] →
      start.object? before = some mid →
        Leads (drafted d promote).finished (drafted d promote).target mid := by
    intro before after mid heq hafter hmid
    subst heq
    have hlength := Spot.length_key_lt hattached.place_ne_nil hmid hroute hafter
    have hposition : d.object? promote ⟨a, before⟩ = some mid :=
      Option.bind_eq_some_iff.2 ⟨start, hstart, hmid⟩
    refine leads_of_unique hnodup hposition fun q other hother hkey => ?_
    exact hshorter q _ other mid hother hposition (by rwa [hkey]) hkey
  obtain ⟨ref, href, hreference⟩ := exists_read?_of_leads halike hroute hleads
  refine ⟨ref, ?_, hreference⟩
  rw [modelAt?, hm]
  exact href

/-! ## The condition -/

/-- Distinct keys keep the bindings. -/
theorem keepsBindings_of_keysDistinct (hnodup : (d.declaredNames promote).Nodup)
    (hkeys : d.KeysDistinct promote) :
    (drafted d promote).finished.KeepsBindings d promote where
  bound := by
    intro p spot h
    obtain ⟨ref, href, hkind, hbase⟩ := exists_modelAt?_of_shorter hnodup h
      fun q r other another hq hr _ => hkeys q r other another hq hr
    obtain ⟨q, other, hq, hkey, hmem⟩ := exists_definition_of_object? hnodup h
    obtain rfl := hkeys q p other spot hq h hkey
    obtain rfl : other = spot := Option.some.inj (hq.symm.trans h)
    refine ⟨ref, _, href, hkind, hmem, ?_, (drafted d promote).target, ?_, ?_⟩
    · rw [name_finishModel, name_withName, hbase]
    · intro name hname
      exact finalName_renames_of_not_isProvisionalName hname
    · rw [name_finishModel, name_withName]
      rfl
  distinct := by
    intro p q spot other ref ref' hp hq href href' heq
    obtain ⟨m, hm, _, hbase⟩ := exists_modelAt?_of_shorter hnodup hp
      fun q r other another hq hr _ => hkeys q r other another hq hr
    obtain ⟨m', hm', _, hbase'⟩ := exists_modelAt?_of_shorter hnodup hq
      fun q r other another hq hr _ => hkeys q r other another hq hr
    obtain rfl : m = ref := Option.some.inj (hm.symm.trans href)
    obtain rfl : m' = ref' := Option.some.inj (hm'.symm.trans href')
    have htarget : (drafted d promote).target spot.key = (drafted d promote).target other.key := by
      rw [← hbase, ← hbase', heq]
    -- Both keys are names of definitions, and these stay apart.
    have hname := mem_names_of_mem_provisionalNames (key_mem_provisionalNames hnodup hp)
    have hname' := mem_names_of_mem_provisionalNames (key_mem_provisionalNames hnodup hq)
    exact hkeys p q spot other hp hq (injOn_target _ hname hname' htarget)

/-- Two objects that share a key are one if no shorter key is shared and the bindings are kept. -/
theorem eq_of_key_eq (hnodup : (d.declaredNames promote).Nodup)
    (hkeeps : (drafted d promote).finished.KeepsBindings d promote) {p q : Position}
    {spot other : Spot} (hp : d.object? promote p = some spot)
    (hq : d.object? promote q = some other) (hkey : spot.key = other.key) : p = q := by
  -- The induction is on the length of the shared key, as the way to an object leads through
  -- objects with shorter keys only.
  induction hn : spot.key.length using Nat.strongRecOn generalizing p q spot other with
  | ind n ih =>
      obtain ⟨ref, href, _, hbase⟩ := exists_modelAt?_of_shorter hnodup hp
        fun q' r' other' another' hq' hr' hlength heq =>
          ih _ (hn ▸ hlength) hq' hr' heq rfl
      obtain ⟨ref', href', _, hbase'⟩ := exists_modelAt?_of_shorter hnodup hq
        fun q' r' other' another' hq' hr' hlength heq =>
          ih _ (by rwa [← hn, hkey]) hq' hr' heq rfl
      refine hkeeps.distinct p q spot other ref ref' hp hq href href' ?_
      rw [hbase, hbase', hkey]

/-- A client keeps the bindings of its document exactly if no two inline objects share a key. -/
theorem keepsBindings_iff {c : Client} (h : (draft d promote >>= finish) = .ok c) :
    c.KeepsBindings d promote ↔ d.KeysDistinct promote := by
  obtain ⟨hnodup, rfl⟩ := draft_bind_finish_eq_ok_iff.1 h
  constructor
  · intro hkeeps p q spot other hp hq hkey
    exact eq_of_key_eq hnodup hkeeps hp hq hkey
  · intro hkeys
    exact keepsBindings_of_keysDistinct hnodup hkeys

/-! ## A name with a slash -/

/-- An object with one property. -/
def labelled (name : String) : Schema :=
  { properties := [(name, { type := some (.single "string") })] }

/-- A document with an object under the given name, and one at the property `b` of the object under
the name `a`. -/
def petDocument (name : String) : Document where
  openapi := "3.0.0"
  components := some { schemas :=
    [("Pet", { properties :=
      [(name, labelled "kind"), ("a", { properties := [("b", labelled "age")] })] })] }

/-- An object with one property holds no other object. -/
theorem eq_of_object?_labelled {scope label : String} {place : List String} {route : List Nat}
    {found : Spot} (h : (Spot.mk scope place (labelled label)).object? route = some found) :
    route = [] ∧ found = ⟨scope, place, labelled label⟩ := by
  cases route with
  | nil => exact ⟨rfl, (Option.some.inj ((Spot.object?_nil rfl).symm.trans h)).symm⟩
  | cons index route =>
      obtain ⟨segment, name, isRequired, s, hpart, hrest⟩ := Spot.exists_of_object?_cons h
      have hstring : s = { type := some (.single "string") } := by
        have hmem : _ ∈ [_] := List.mem_of_getElem? hpart
        injection List.mem_singleton.1 hmem
      subst hstring
      cases route with
      | nil => cases hrest
      | cons index route =>
          obtain ⟨_, _, _, _, hpart, _⟩ := Spot.exists_of_object?_cons hrest
          cases hpart

/-- The positions of its objects and their keys. -/
def petKeys (name : String) : List (Position × String) :=
  [(⟨.definition "Pet" 0, []⟩, Model.provisionalName "schemas" ["Pet", name]),
    (⟨.definition "Pet" 1, []⟩, Model.provisionalName "schemas" ["Pet", "a"]),
    (⟨.definition "Pet" 1, [0]⟩, Model.provisionalName "schemas" ["Pet", "a", "b"])]

/-- There are no other objects. -/
theorem mem_petKeys_of_object? {name : String} {p : Position} {spot : Spot}
    (h : (petDocument name).object? false p = some spot) : (p, spot.key) ∈ petKeys name := by
  obtain ⟨a, route⟩ := p
  obtain ⟨start, hstart, hroute⟩ := Option.bind_eq_some_iff.1 h
  have hnone : ∀ service number, (petDocument name).declaration? service number = none :=
    fun _ _ => rfl
  cases a with
  | definition definition index =>
      obtain ⟨n, hn, hpart⟩ := Option.bind_eq_some_iff.1 hstart
      obtain rfl : n.name = definition := by simpa using List.find?_some hn
      obtain rfl := List.mem_singleton.1 (List.mem_of_find?_eq_some hn)
      match index, hpart with
      | 0, hpart =>
          obtain rfl := Option.some.inj hpart
          obtain ⟨rfl, rfl⟩ := eq_of_object?_labelled hroute
          exact .head _
      | 1, hpart =>
          obtain rfl := Option.some.inj hpart
          match route, hroute with
          | [], hroute =>
              obtain rfl := Option.some.inj hroute
              exact .tail _ (.head _)
          | index :: route, hroute =>
              obtain ⟨segment, inner, isRequired, s, hpart, hrest⟩ :=
                Spot.exists_of_object?_cons hroute
              match index, hpart with
              | 0, hpart =>
                  obtain ⟨rfl, rfl, rfl, rfl⟩ := Schema.Part.inner.inj (Option.some.inj hpart)
                  obtain ⟨rfl, rfl⟩ := eq_of_object?_labelled hrest
                  exact .tail _ (.tail _ (.head _))
  | argument service number identifier => simp [Document.spot?, hnone] at hstart
  | body service number => simp [Document.spot?, hnone] at hstart
  | response service number index => simp [Document.spot?, hnone] at hstart

theorem keepsBindings_petDocument :
    (drafted (petDocument "c") false).finished.KeepsBindings (petDocument "c") false := by
  have hclient : (draft (petDocument "c") false >>= finish) =
      .ok (drafted (petDocument "c") false).finished :=
    draft_bind_finish_eq_ok_iff.2 ⟨by decide, rfl⟩
  have hnodup : ((petKeys "c").map Prod.snd).Nodup := by decide
  refine (keepsBindings_iff hclient).2 fun p q spot other hp hq hkey => ?_
  have hp := mem_petKeys_of_object? hp
  have hq := mem_petKeys_of_object? hq
  exact congrArg Prod.fst (List.inj_on_of_nodup_map hnodup hp hq hkey)

/-- The property `a/b` reads like the property `b` of the property `a`. -/
theorem not_keepsBindings_petDocument :
    ∃ c, (draft (petDocument "a/b") false >>= finish) = .ok c ∧
      ¬ c.KeepsBindings (petDocument "a/b") false := by
  have hnodup : ((petDocument "a/b").declaredNames false).Nodup := by decide
  refine ⟨_, draft_bind_finish_eq_ok_iff.2 ⟨hnodup, rfl⟩, fun hkeeps => ?_⟩
  have hsame := eq_of_key_eq hnodup hkeeps (p := ⟨.definition "Pet" 0, []⟩)
    (q := ⟨.definition "Pet" 1, [0]⟩) rfl rfl (by decide)
  exact absurd hsame (by decide)

end Client

end TypedClient
