import Mathlib.Data.List.Perm.Subperm
import Mathlib.Logic.Relation
import TypedClient.Document.Reference

/-!
# Chains of references

An item stands for a value itself, or it names a component that stands for one. `Leads` keeps the
keys of the components on the way. Following references finds the values to which an item leads
over at most fifteen components, and no others: `followIn_eq_some_iff`.

An item that leads to no value has a reference on its way that names no component (`Breaks`), or
its references run in a circle (`Circles`). There is no third case, since a table is finite
(`exists_leads_or_breaks_or_circles`), and so `references_followed` says of each kind of component
when following references finds a value, and when it finds none.
-/

namespace TypedClient.Document

variable {α : Type}

/-- The item leads to the value over the components with these keys. -/
inductive Leads (table : List (String × RefOr α)) : RefOr α → List String → α → Prop
  | here (value : α) : Leads table (.inline value) [] value
  | through {target : String} {item : RefOr α} {keys : List String} {value : α} :
      table.lookup (Pointer.key target) = some item → Leads table item keys value →
        Leads table (.ref target) (Pointer.key target :: keys) value

/-- Following references finds what an item leads to, if there are not too many on the way. -/
theorem followIn_eq_some_iff {table : Option (List (String × RefOr α))} {places : Nat}
    {item : RefOr α} {value : α} :
    followIn table places item = some value ↔
      ∃ keys, Leads (table.getD []) item keys value ∧ keys.length < places := by
  have hlookup : ∀ key, table.bind (·.lookup key) = (table.getD []).lookup key := by
    intro key
    cases table <;> rfl
  induction places generalizing item with
  | zero => simp [followIn]
  | succ places ih =>
      cases item with
      | inline other =>
          rw [followIn, Option.some.injEq]
          constructor
          · rintro rfl
            exact ⟨[], .here other, Nat.succ_pos _⟩
          · rintro ⟨keys, hleads, -⟩
            cases hleads
            rfl
      | ref target =>
          rw [followIn, hlookup]
          constructor
          · intro hfollow
            cases hitem : (table.getD []).lookup (Pointer.key target) with
            | none => simp [hitem] at hfollow
            | some next =>
                simp only [hitem] at hfollow
                obtain ⟨keys, hleads, hlength⟩ := ih.1 hfollow
                exact ⟨_, .through hitem hleads, Nat.succ_lt_succ hlength⟩
          · rintro ⟨_, hleads, hlength⟩
            cases hleads with
            | through hitem hleads =>
                simp only [hitem]
                exact ih.2 ⟨_, hleads, Nat.lt_of_succ_lt_succ hlength⟩

/-- A reference leads over the component that it names itself. -/
theorem Leads.key_eq {table : List (String × RefOr α)} {target key : String} {keys : List String}
    {value : α} (h : Leads table (.ref target) (key :: keys) value) : Pointer.key target = key := by
  cases h
  rfl

/-- A reference leads to a component that is listed with the value. -/
theorem Leads.lookup_getLast? {table : List (String × RefOr α)} {item : RefOr α}
    {keys : List String} {value : α} (h : Leads table item keys value) {component : String}
    (hlast : keys.getLast? = some component) : table.lookup component = some (.inline value) := by
  induction h with
  | here value => cases hlast
  | through hitem hleads ih =>
      cases hleads with
      | here value =>
          obtain rfl := Option.some.inj hlast
          exact hitem
      | through hnext hleads =>
          rw [List.getLast?_cons_cons] at hlast
          exact ih hlast

/-- A reference that does not name the last component itself names a further reference. -/
theorem Leads.exists_next {table : List (String × RefOr α)} {target : String}
    {keys : List String} {value : α} (h : Leads table (.ref target) keys value) {component : String}
    (hlast : keys.getLast? = some component) (hne : keys ≠ [component]) :
    ∃ next, table.lookup (Pointer.key target) = some (.ref next) := by
  cases h with
  | through hitem hleads =>
      cases hleads with
      | here value =>
          obtain rfl := Option.some.inj hlast
          exact absurd rfl hne
      | through hnext hleads => exact ⟨_, hitem⟩

/-- The parameters that the document shares. -/
def sharedParameters (d : Document) : List (String × RefOr Parameter) :=
  (d.components.map (·.parameters)).getD []

/-- The request bodies that the document shares. -/
def sharedRequestBodies (d : Document) : List (String × RefOr RequestBody) :=
  (d.components.map (·.requestBodies)).getD []

/-- The responses that the document shares. -/
def sharedResponses (d : Document) : List (String × RefOr Response) :=
  (d.components.map (·.responses)).getD []

theorem parameter?_eq_some_iff {d : Document} {item : RefOr Parameter} {p : Parameter} :
    d.parameter? item = some p ↔
      ∃ keys, Leads d.sharedParameters item keys p ∧ keys.length < maxPlaces :=
  followIn_eq_some_iff

theorem response?_eq_some_iff {d : Document} {item : RefOr Response} {response : Response} :
    d.response? item = some response ↔
      ∃ keys, Leads d.sharedResponses item keys response ∧ keys.length < maxPlaces :=
  followIn_eq_some_iff

/-! ## Items that lead nowhere -/

section Hops

variable {table : List (String × RefOr α)} {item next last : RefOr α} {keys : List String}
  {value : α}

/-- A reference names a component, and the other item is what is listed under its key. -/
inductive Hop (table : List (String × RefOr α)) : RefOr α → RefOr α → Prop
  | lookup {target : String} {next : RefOr α} :
      table.lookup (Pointer.key target) = some next → Hop table (.ref target) next

/-- On the way of the item there is a reference that names no component. -/
def Breaks (table : List (String × RefOr α)) (item : RefOr α) : Prop :=
  ∃ target, Relation.ReflTransGen (Hop table) item (.ref target) ∧
    table.lookup (Pointer.key target) = none

/-- On the way of the item there is one to which its own references lead back. -/
def Circles (table : List (String × RefOr α)) (item : RefOr α) : Prop :=
  ∃ again, Relation.ReflTransGen (Hop table) item again ∧ Relation.TransGen (Hop table) again again

theorem Breaks.of_hop (hhop : Hop table item next) (h : Breaks table next) :
    Breaks table item := by
  obtain ⟨target, hreach, hnone⟩ := h
  exact ⟨target, hreach.head hhop, hnone⟩

theorem Circles.of_hop (hhop : Hop table item next) (h : Circles table next) :
    Circles table item := by
  obtain ⟨again, hreach, hcircle⟩ := h
  exact ⟨again, hreach.head hhop, hcircle⟩

/-- An item leads to one value, over one list of components. -/
theorem Leads.unique {others : List String} {other : α} (h : Leads table item keys value)
    (h' : Leads table item others other) : keys = others ∧ value = other := by
  induction h generalizing others with
  | here value =>
      cases h'
      exact ⟨rfl, rfl⟩
  | through hitem _ ih =>
      cases h' with
      | through hitem' h' =>
          obtain rfl := Option.some.inj (hitem.symm.trans hitem')
          obtain ⟨rfl, rfl⟩ := ih h'
          exact ⟨rfl, rfl⟩

/-- Each hop takes one component off the way to the value. -/
theorem Leads.of_hop (h : Leads table item keys value) (hhop : Hop table item next) :
    ∃ key rest, keys = key :: rest ∧ Leads table next rest value := by
  cases hhop with
  | lookup hnext =>
      cases h with
      | through hitem hleads =>
          obtain rfl := Option.some.inj (hitem.symm.trans hnext)
          exact ⟨_, _, rfl, hleads⟩

theorem Leads.of_reach (h : Leads table item keys value)
    (hreach : Relation.ReflTransGen (Hop table) item next) :
    ∃ rest, rest.length ≤ keys.length ∧ Leads table next rest value := by
  induction hreach with
  | refl => exact ⟨keys, Nat.le_refl _, h⟩
  | tail _ hhop ih =>
      obtain ⟨others, hle, hleads⟩ := ih
      obtain ⟨key, rest, rfl, hnext⟩ := hleads.of_hop hhop
      exact ⟨rest, Nat.le_of_succ_le hle, hnext⟩

theorem Leads.not_breaks (h : Leads table item keys value) : ¬ Breaks table item := by
  rintro ⟨target, hreach, hnone⟩
  obtain ⟨rest, _, hleads⟩ := h.of_reach hreach
  cases hleads with
  | through hitem _ => exact Option.some_ne_none _ (hitem.symm.trans hnone)

/-- The way back to the same item would be shorter than itself. -/
theorem Leads.not_circles (h : Leads table item keys value) : ¬ Circles table item := by
  rintro ⟨again, hreach, hcircle⟩
  obtain ⟨rest, _, hleads⟩ := h.of_reach hreach
  obtain ⟨next, hhop, hback⟩ := Relation.TransGen.head'_iff.1 hcircle
  obtain ⟨key, later, rfl, hnext⟩ := hleads.of_hop hhop
  obtain ⟨shorter, hle, hagain⟩ := hnext.of_reach hback
  obtain ⟨rfl, -⟩ := hagain.unique hleads
  exact Nat.not_succ_le_self _ hle

/-- The references of an item are followed over the components with these keys, up to another
item. -/
inductive Walks (table : List (String × RefOr α)) : RefOr α → List String → RefOr α → Prop
  | stay (item : RefOr α) : Walks table item [] item
  | through {target : String} {next last : RefOr α} {keys : List String} :
      table.lookup (Pointer.key target) = some next → Walks table next keys last →
        Walks table (.ref target) (Pointer.key target :: keys) last

/-- Unless it ends at a value or breaks off, a walk can be made as long as one likes. -/
theorem exists_leads_or_walks (hbreaks : ¬ Breaks table item) (length : Nat) :
    (∃ keys value, Leads table item keys value) ∨
      ∃ keys last, Walks table item keys last ∧ keys.length = length := by
  induction length generalizing item with
  | zero => exact .inr ⟨[], item, .stay item, rfl⟩
  | succ length ih =>
      cases item with
      | inline value => exact .inl ⟨[], value, .here value⟩
      | ref target =>
          cases hnext : table.lookup (Pointer.key target) with
          | none => exact absurd ⟨target, .refl, hnext⟩ hbreaks
          | some next =>
              obtain ⟨keys, value, hleads⟩ | ⟨keys, last, hwalks, hlength⟩ :=
                ih fun h => hbreaks (h.of_hop (.lookup hnext))
              · exact .inl ⟨_, value, .through hnext hleads⟩
              · exact .inr ⟨_, last, .through hnext hwalks, congrArg Nat.succ hlength⟩

/-- A walk goes over components of the table. -/
theorem Walks.subset (h : Walks table item keys last) : keys ⊆ table.map (·.1) := by
  induction h with
  | stay item => exact List.nil_subset _
  | through hnext _ ih =>
      obtain ⟨before, after, rfl, _⟩ := List.lookup_eq_some_iff.1 hnext
      exact List.cons_subset.2 ⟨by simp, ih⟩

/-- Over each of its components a walk goes on to what is listed there. -/
theorem Walks.reach (h : Walks table item keys last) {key : String} (hkey : key ∈ keys) :
    ∃ next, table.lookup key = some next ∧ Relation.TransGen (Hop table) item next := by
  induction h with
  | stay item => cases hkey
  | through hnext _ ih =>
      rcases List.mem_cons.1 hkey with rfl | hkey
      · exact ⟨_, hnext, .single (.lookup hnext)⟩
      · obtain ⟨later, hlookup, hreach⟩ := ih hkey
        exact ⟨later, hlookup, hreach.head (.lookup hnext)⟩

/-- A walk that goes twice over one component runs in a circle. -/
theorem Walks.circles (h : Walks table item keys last) (hrepeats : ¬ keys.Nodup) :
    Circles table item := by
  induction h with
  | stay item => exact absurd List.nodup_nil hrepeats
  | @through target next last keys hnext hwalks ih =>
      have hhop : Hop table (.ref target) next := .lookup hnext
      by_cases hmem : Pointer.key target ∈ keys
      · -- The component is passed again, and what is listed there is the same.
        obtain ⟨again, hagain, hreach⟩ := hwalks.reach hmem
        obtain rfl := Option.some.inj (hnext.symm.trans hagain)
        exact ⟨next, .single hhop, hreach⟩
      · exact (ih fun hnodup => hrepeats (List.nodup_cons.2 ⟨hmem, hnodup⟩)).of_hop hhop

/-- An item leads to a value, or breaks off, or runs in a circle: a walk over more components than
the table has goes over one of them twice. -/
theorem exists_leads_or_breaks_or_circles (table : List (String × RefOr α)) (item : RefOr α) :
    (∃ keys value, Leads table item keys value) ∨ Breaks table item ∨ Circles table item := by
  by_cases hbreaks : Breaks table item
  · exact .inr (.inl hbreaks)
  · obtain hleads | ⟨keys, last, hwalks, hlength⟩ :=
      exists_leads_or_walks hbreaks (table.length + 1)
    · exact .inl hleads
    · refine .inr (.inr (hwalks.circles fun hnodup => ?_))
      have hle := (hnodup.subperm hwalks.subset).length_le
      rw [List.length_map, hlength] at hle
      omega

/-- Without components a reference breaks off. -/
theorem breaks_nil (target : String) : Breaks ([] : List (String × RefOr α)) (.ref target) :=
  ⟨target, .refl, rfl⟩

end Hops

/-! ## What following references finds -/

/-- References to the components of a table are followed, over at most so many of them. -/
structure Follows (bound : Nat) (table : List (String × RefOr α))
    (resolve : RefOr α → Option α) : Prop where
  some_iff : ∀ item value,
    resolve item = some value ↔ ∃ keys, Leads table item keys value ∧ keys.length ≤ bound
  none_iff : ∀ item, resolve item = none ↔
    Breaks table item ∨ Circles table item ∨
      ∃ keys value, Leads table item keys value ∧ bound < keys.length

theorem follows_followIn (table : Option (List (String × RefOr α))) (bound : Nat) :
    Follows bound (table.getD []) (followIn table (bound + 1)) := by
  have hsome : ∀ item value, followIn table (bound + 1) item = some value ↔
      ∃ keys, Leads (table.getD []) item keys value ∧ keys.length ≤ bound := by
    intro item value
    simp only [followIn_eq_some_iff, Nat.lt_succ_iff]
  refine ⟨hsome, fun item => ?_⟩
  rw [Option.eq_none_iff_forall_not_mem]
  constructor
  · intro hnone
    obtain ⟨keys, value, hleads⟩ | hfails :=
      exists_leads_or_breaks_or_circles (table.getD []) item
    · have hlong : ¬ keys.length ≤ bound := fun hle =>
        hnone value ((hsome item value).2 ⟨keys, hleads, hle⟩)
      exact .inr (.inr ⟨keys, value, hleads, Nat.lt_of_not_le hlong⟩)
    · exact hfails.imp_right .inl
  · intro hfails value hvalue
    obtain ⟨keys, hleads, hle⟩ := (hsome item value).1 hvalue
    obtain hbreaks | hcircles | ⟨others, other, hleads', hlt⟩ := hfails
    · exact hleads.not_breaks hbreaks
    · exact hleads.not_circles hcircles
    · obtain ⟨rfl, -⟩ := hleads.unique hleads'
      omega

/-- Parameters, request bodies and responses are found in the components of their own kind. An item
stands for what its references lead to, over at most fifteen components. It stands for nothing
exactly if they lead over more, break off or run in a circle, and so does every reference where
there are no components. -/
theorem references_followed (d : Document) :
    Follows 15 d.sharedParameters d.parameter? ∧
      Follows 15 d.sharedRequestBodies d.requestBody? ∧
        Follows 15 d.sharedResponses d.response? ∧
          (d.components = none → ∀ target, d.parameter? (.ref target) = none ∧
            d.requestBody? (.ref target) = none ∧ d.response? (.ref target) = none) := by
  have hparameters : Follows 15 d.sharedParameters d.parameter? := follows_followIn _ 15
  have hbodies : Follows 15 d.sharedRequestBodies d.requestBody? := follows_followIn _ 15
  have hresponses : Follows 15 d.sharedResponses d.response? := follows_followIn _ 15
  refine ⟨hparameters, hbodies, hresponses, fun hnone target => ?_⟩
  rw [hparameters.none_iff, hbodies.none_iff, hresponses.none_iff]
  simp only [sharedParameters, sharedRequestBodies, sharedResponses, hnone, Option.map_none,
    Option.getD_none]
  exact ⟨.inl (breaks_nil target), .inl (breaks_nil target), .inl (breaks_nil target)⟩

/-- Fifteen components are passed, but not sixteen. -/
example :
    let table := ("16", RefOr.inline ()) ::
      (List.range 16).map fun n => (toString n, RefOr.ref (toString (n + 1)))
    followIn (some table) maxPlaces (.ref "#/components/responses/2") = some () ∧
      followIn (some table) maxPlaces (.ref "#/components/responses/1") = none := by
  decide

end TypedClient.Document
