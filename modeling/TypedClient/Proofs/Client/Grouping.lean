import TypedClient.Proofs.Client.Drafted
import TypedClient.Proofs.Client.Renaming
import TypedClient.Proofs.Operation.Declared

/-!
# Services hold the declared operations

`HoldsAll R xs services` says that the services hold the declarations `xs`, each in the service of
its first tag and in order, where `R` says which operation stands for a declaration. Grouping does
that with the operations as they are built (`holdsAll_group`), and finishing keeps it
(`HoldsAll.finished`). `operations_grouped` puts this together, from the tree of the paths to the
finished client.
-/

namespace TypedClient

/-- The name that a tag gives to a service; empty if there is no letter in it. -/
def Naming.tagName (tag : String) : String :=
  pascalCase (String.ofList (tag.toList.dropWhile (!·.isAlpha)))

theorem Naming.serviceName_eq (tag : String) :
    serviceName tag = if (tagName tag).isEmpty then "Default" else tagName tag := rfl

/-- An operation belongs to the service of its first tag, or to the default one without a tag and if
the tag gives no name. -/
theorem Operation.serviceOf_eq (tags : List String) :
    serviceOf tags = ((tags.head?.map Naming.tagName).filter (!·.isEmpty)).getD "Default" := by
  cases tags with
  | nil => rfl
  | cons tag tags =>
      rw [serviceOf, Naming.serviceName_eq, List.head?_cons, Option.map_some]
      cases hname : (Naming.tagName tag).isEmpty <;> simp [Option.filter_some, hname]

namespace Client

open Operation (Declaration declarations)

/-- The services hold the declarations: their names are different and are those of the services that
declarations belong to, and each has the operations for the declarations that belong to it, in
order. -/
structure HoldsAll (R : Declaration → Operation → Prop) (xs : List Declaration)
    (services : List Service) : Prop where
  nodup_names : (services.map (·.name)).Nodup
  mem_names_iff : ∀ name, name ∈ services.map (·.name) ↔ ∃ x ∈ xs, x.service = name
  operations : ∀ s ∈ services, List.Forall₂ R (xs.filter (·.service == s.name)) s.operations

theorem HoldsAll.mono {R S : Declaration → Operation → Prop} {xs : List Declaration}
    {services : List Service} (h : HoldsAll R xs services) (himp : ∀ x op, R x op → S x op) :
    HoldsAll S xs services :=
  ⟨h.nodup_names, h.mem_names_iff, fun s hs => (h.operations s hs).imp himp⟩

/-- The services that the operations of a document are grouped into. -/
def grouped (d : Document) (promotions : Model.Promotions) : List Service :=
  group ((operations d promotions).map (·.1))

theorem map_service_operations (d : Document) (promotions : Model.Promotions) :
    ((operations d promotions).map (·.1)).map (·.service) =
      (declarations d).map (·.service) := by
  rw [Operation.operations_eq, List.map_map, List.map_map]
  rfl

/-- Grouping puts the operation for each declaration into the service that it belongs to. -/
theorem holdsAll_group (d : Document) (promotions : Model.Promotions) :
    HoldsAll (fun x op => op = (x.build d promotions).1) (declarations d)
      (grouped d promotions) where
  nodup_names := (grouped_group _).nodup_names
  mem_names_iff name := by
    rw [grouped, names_group, map_service_operations, List.mem_eraseDups, List.mem_map]
  operations s hs := by
    have hoperations : s.operations =
        ((declarations d).filter (·.service == s.name)).map fun x => (x.build d promotions).1 := by
      rw [(grouped_group _).operations_eq s hs, Operation.operations_eq, List.map_map,
        List.filter_map]
      rfl
    rw [hoperations, List.forall₂_map_right_iff, List.forall₂_same]
    exact fun _ _ => rfl

/-- Two relations item by item, one after the other. -/
theorem forall₂_trans {α β γ : Type} {R : α → β → Prop} {S : β → γ → Prop} {T : α → γ → Prop}
    (h : ∀ a b c, R a b → S b c → T a c) {as : List α} {bs : List β} {cs : List γ}
    (hfirst : List.Forall₂ R as bs) (hsecond : List.Forall₂ S bs cs) : List.Forall₂ T as cs := by
  induction hfirst generalizing cs with
  | nil =>
      cases hsecond
      exact .nil
  | cons hab _ ih =>
      cases hsecond with
      | cons hbc hrest => exact .cons (h _ _ _ hab hbc) (ih hrest)

/-- Finishing keeps every operation in its service and at its place. -/
theorem HoldsAll.finished {R S : Declaration → Operation → Prop} {xs : List Declaration}
    {c : Client} (h : HoldsAll R xs c.services)
    (hrewritten : ∀ x before op, R x before → Operation.Rewritten c.target before op → S x op) :
    HoldsAll S xs c.finished.services := by
  -- Finishing sorts the services but changes no name of one, so that all but their order is kept.
  have hnames := (services_finished_perm c).map (·.name)
  rw [List.map_map] at hnames
  refine ⟨hnames.nodup_iff.2 h.nodup_names,
    fun name => hnames.mem_iff.trans (h.mem_names_iff name), fun s hs => ?_⟩
  obtain ⟨before, hbefore, rfl⟩ := List.mem_map.1 ((services_finished_perm c).mem_iff.1 hs)
  exact forall₂_trans hrewritten (h.operations before hbefore)
    (rewritten_finishService c.target before).operations

/-- In the client of a document the services hold its declarations. -/
theorem holdsAll_finished (d : Document) (promote : Bool) :
    HoldsAll (fun x op => Operation.Rewritten (drafted d promote).target
        (x.build d (d.promotions promote)).1 op)
      (declarations d) (drafted d promote).finished.services :=
  HoldsAll.finished (holdsAll_group d (d.promotions promote)) fun _ _ _ hbuild hrewritten =>
    hbuild ▸ hrewritten

/-- The operations of a document are what its tree declares under known methods. Grouping takes them
into services with different names, in the order of their first operations; it loses none and
repeats none; and each service has those that belong to it by their first tag, in the order in
which they are declared. Finishing sorts the services and keeps what is in them, in this order. -/
theorem operations_grouped (d : Document) :
    (∀ tree, Decode.map Document.PathItem.decode tree = .ok d.paths →
      List.Forall₂ Declaration.ReadFrom (Operation.declaredIn tree) (declarations d)) ∧
    (∀ x : Declaration, x.service =
      ((x.op.tags.head?.map Naming.tagName).filter (!·.isEmpty)).getD "Default") ∧
    (∀ promotions, (grouped d promotions).map (·.name) =
        ((declarations d).map (·.service)).eraseDups ∧
      ((grouped d promotions).flatMap (·.operations)).Perm
        ((declarations d).map fun x => (x.build d promotions).1) ∧
      HoldsAll (fun x op => op = (x.build d promotions).1) (declarations d)
        (grouped d promotions)) ∧
    ∀ promote c, (draft d promote >>= finish) = .ok c →
      HoldsAll (fun x op => Operation.Rewritten (drafted d promote).target
        (x.build d (d.promotions promote)).1 op) (declarations d) c.services := by
  refine ⟨fun tree htree => Operation.forall₂_declarations htree,
    fun x => Operation.serviceOf_eq x.op.tags, fun promotions => ⟨?_, ?_, ?_⟩, ?_⟩
  · rw [grouped, names_group, map_service_operations]
  · refine (flatMap_operations_group _).trans (.of_eq ?_)
    rw [Operation.operations_eq, List.map_map]
    rfl
  · exact holdsAll_group d promotions
  · intro promote c hclient
    obtain ⟨_, rfl⟩ := draft_bind_finish_eq_ok_iff.1 hclient
    exact holdsAll_finished d promote

/-- Paths with operations of two services in turn, with a member that declares none, and with a tag
that gives no name. -/
def petPaths : Json :=
  .object
    [("/pets", .object
      [("get", .object [("tags", .array [.string "pets"])]),
       ("summary", .string "Pets"),
       ("post", .object [("tags", .array [.string "1"])])]),
     ("/pets/{id}", .object [("put", .object [("tags", .array [.string "Pets", .string "x"])])])]

/-- The document with the operations of `petPaths`. -/
def petPathsDocument : Document where
  openapi := "3.0.0"
  paths :=
    [("/pets", { operations := [(.get, { tags := ["pets"] }), (.post, { tags := ["1"] })] }),
     ("/pets/{id}", { operations := [(.put, { tags := ["Pets", "x"] })] })]

theorem operations_grouped_petPathsDocument :
    List.Forall₂ Declaration.ReadFrom (Operation.declaredIn petPaths)
        (declarations petPathsDocument) ∧
      ∃ c, (draft petPathsDocument true >>= finish) = .ok c ∧
        HoldsAll (fun x op => Operation.Rewritten (drafted petPathsDocument true).target
          (x.build petPathsDocument (petPathsDocument.promotions true)).1 op)
          (declarations petPathsDocument) c.services := by
  obtain ⟨hread, _, _, hfinished⟩ := operations_grouped petPathsDocument
  have htree : Decode.map Document.PathItem.decode petPaths = .ok petPathsDocument.paths := rfl
  have hclient : (draft petPathsDocument true >>= finish) =
      .ok (drafted petPathsDocument true).finished :=
    draft_bind_finish_eq_ok_iff.2 ⟨by decide, rfl⟩
  exact ⟨hread petPaths htree, _, hclient, hfinished true _ hclient⟩

end Client

end TypedClient
