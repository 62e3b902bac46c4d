import TypedClient.Emission.Category
import TypedClient.Proofs.Client.ModelSet
import TypedClient.Proofs.Naming.TypeName
import TypedClient.Proofs.Naming.Words

/-!
# The names of models and services

Models and services give their names to files. In the client of a document these names are
pairwise different and hold no slash, whatever the keys and tags of the document are:
`fileNames_of_ofTree`.

A model is declared under its name. `names_of_ofTree` says that each of these names has the form of
an identifier, and when none of them is a reserved word. Promoted responses and numbered names are
free words by themselves. Names of component schemas and of inline objects are taken over as they
are: a key such as `class` makes a model of that name (`reserved_names_of_key_and_place`).
-/

namespace TypedClient.Client

variable {d : Document} {promote : Bool}

/-! ## Names of files -/

/-- The names that files are named after are different within each category and hold no slash. -/
structure FileNames (c : Client) : Prop where
  models_nodup : (c.models.map (·.name)).Nodup
  services_nodup : (c.services.map (·.name)).Nodup
  models_slash : ∀ m ∈ c.models, '/' ∉ m.name.toList
  services_slash : ∀ s ∈ c.services, '/' ∉ s.name.toList

/-- A client is built from a tree exactly if the tree is a document of the right version whose
client is not refused. -/
theorem ofTree_eq_ok_iff {tree : Json} {c : Client} :
    ofTree tree promote = .ok c ↔
      Document.checkVersion tree = .ok () ∧
        ∃ d, Document.decode tree = .ok d ∧ (draft d promote >>= finish) = .ok c := by
  unfold ofTree
  cases hversion : Document.checkVersion tree with
  | error e => simp [bind, Except.bind]
  | ok u =>
      cases hdecode : Document.decode tree with
      | error e => simp [bind, Except.bind, Except.mapError]
      | ok d => simp [bind, Except.bind, Except.mapError]

/-- A tree of the right version whose document declares different names has a client. The models in it
have these names and those that are given out to lifted definitions. -/
theorem exists_names_perm (tree : Json) (promote : Bool) (declared lifted : List String)
    (hversion : Document.checkVersion tree = .ok ())
    (hnames : (Document.decode tree).toOption.map (fun d =>
      (d.declaredNames promote, liftedNames (drafted d promote).models)) = some (declared, lifted))
    (hnodup : declared.Nodup) :
    ∃ c, ofTree tree promote = .ok c ∧ (c.models.map (·.name)).Perm (declared ++ lifted) := by
  cases hdecode : Document.decode tree with
  | error e => rw [hdecode] at hnames; cases hnames
  | ok d =>
      rw [hdecode] at hnames
      obtain ⟨rfl, rfl⟩ := Prod.ext_iff.1 (Option.some.inj hnames)
      refine ⟨(drafted d promote).finished, ?_, ?_⟩
      · exact ofTree_eq_ok_iff.2 ⟨hversion, d, hdecode,
          draft_bind_finish_eq_ok_iff.2 ⟨hnodup, rfl⟩⟩
      · show List.Perm _ (d.declaredNames promote ++ _)
        rw [← fixedNames_drafted]
        exact names_finished_perm _

/-- What an operation belongs to is named after one of its tags. -/
theorem isAlphanum_of_mem_serviceOf {tags : List String} {ch : Char}
    (h : ch ∈ (Operation.serviceOf tags).toList) : ch.isAlphanum = true := by
  cases tags with
  | nil =>
      have hdefault : Naming.defaultService.toList.all Char.isAlphanum = true := by decide
      rw [Operation.serviceOf] at h
      exact List.all_eq_true.1 hdefault ch h
  | cons tag tags =>
      rw [Operation.serviceOf] at h
      exact Naming.isAlphanum_of_mem_serviceName h

/-- Every service is that of an operation. -/
theorem exists_of_mem_names_group {ops : List Operation} {name : String}
    (h : name ∈ (group ops).map (·.name)) : ∃ op ∈ ops, op.service = name := by
  rw [names_group, List.mem_eraseDups] at h
  exact List.mem_map.1 h

/-- The models of a finished client are named after declared names and places. -/
theorem isTypeName_of_mem_finished {m : Model} (h : m ∈ (drafted d promote).finished.models) :
    Naming.IsTypeName m.name := by
  have hname := (names_finished_perm (drafted d promote)).mem_iff.1 (List.mem_map_of_mem h)
  rcases List.mem_append.1 hname with hname | hname
  · rw [fixedNames_drafted] at hname
    exact isTypeName_of_mem_declaredNames hname
  · exact isTypeName_of_mem_liftedNames hname

/-- The services of a finished client are those of its operations. -/
theorem isAlphanum_of_mem_services_finished {s : Service}
    (h : s ∈ (drafted d promote).finished.services) {ch : Char} (hch : ch ∈ s.name.toList) :
    ch.isAlphanum = true := by
  obtain ⟨t, ht, rfl⟩ := List.mem_map.1 ((services_finished_perm _).mem_iff.1 h)
  have hname : t.name ∈ (drafted d promote).services.map (·.name) := List.mem_map_of_mem ht
  obtain ⟨op, hop, hservice⟩ := exists_of_mem_names_group hname
  rw [Operation.operations_eq, List.map_map] at hop
  obtain ⟨x, _, rfl⟩ := List.mem_map.1 hop
  change ch ∈ t.name.toList at hch
  rw [← hservice] at hch
  exact isAlphanum_of_mem_serviceOf hch

/-- The names in the client of a document fit files. -/
theorem fileNames_of_ofTree {tree : Json} {c : Client} (h : ofTree tree promote = .ok c) :
    c.FileNames := by
  obtain ⟨_, d, _, hclient⟩ := ofTree_eq_ok_iff.1 h
  obtain ⟨hnodup, rfl⟩ := draft_bind_finish_eq_ok_iff.1 hclient
  refine ⟨nodup_names_finished (by rwa [fixedNames_drafted]), ?_, fun m hm => ?_,
    fun s hs hslash => ?_⟩
  · have hsorted := services_finished_sorted d promote
    rw [← List.pairwise_map (f := Service.name) (R := (· < ·))] at hsorted
    exact hsorted.imp String.ne_of_lt
  · exact (isTypeName_of_mem_finished hm).not_mem (by decide)
  · exact absurd (isAlphanum_of_mem_services_finished hs hslash) (by decide)

/-! ## Reserved words -/

/-- The declared names are free words exactly if the keys of the component schemas are, as far as
they can be taken over. -/
theorem reserved_declaredNames_iff (d : Document) (promote : Bool) :
    (∀ name ∈ d.declaredNames promote, name ∉ Naming.reservedWords) ↔
      ∀ entry ∈ d.schemas, Naming.bare entry.1 ∉ Naming.reservedWords := by
  have hpromoted : ∀ p ∈ d.promoted promote, p.name ∉ Naming.reservedWords :=
    fun p _ => Naming.responseModelName_not_mem_reservedWords p.component p.mediaType
  rw [Document.declaredNames, List.forall_mem_append, List.forall_mem_map, List.forall_mem_map,
    and_iff_left hpromoted]
  exact forall₂_congr fun entry _ => not_congr Naming.typeName_mem_reservedWords_iff

/-- The names in a finished client are free words exactly if those are that are asked for: the
keys of the component schemas and the places of the inline objects. -/
theorem reserved_names_finished_iff (hnodup : (d.declaredNames promote).Nodup) :
    (∀ m ∈ (drafted d promote).finished.models, m.name ∉ Naming.reservedWords) ↔
      (∀ entry ∈ d.schemas, Naming.bare entry.1 ∉ Naming.reservedWords) ∧
        ∀ p spot, d.object? promote p = some spot →
          Naming.placeName spot.place ∉ Naming.reservedWords := by
  have hnames : ∀ name, name ∈ (drafted d promote).finished.models.map (·.name) ↔
      name ∈ (d.declaredNames promote).reverse ++ Naming.uniques wantedName
        (d.declaredNames promote).reverse (liftedModels (drafted d promote).models) := by
    intro name
    rw [(names_finished_perm _).mem_iff, liftedNames, finalNames_eq, fixedNames_drafted,
      List.mem_append, List.mem_append, List.mem_reverse]
  have hlifted : (∀ m ∈ liftedModels (drafted d promote).models,
      wantedName m ∉ Naming.reservedWords) ↔ ∀ p spot, d.object? promote p = some spot →
        Naming.placeName spot.place ∉ Naming.reservedWords := by
    constructor
    · intro h p spot hspot
      rw [← wantedName_definition]
      exact h _ ((mem_lifted_iff hnodup).2 ⟨p, spot, hspot, rfl⟩)
    · intro h m hm
      obtain ⟨p, spot, hspot, rfl⟩ := (mem_lifted_iff hnodup).1 hm
      rw [wantedName_definition]
      exact h p spot hspot
  calc (∀ m ∈ (drafted d promote).finished.models, m.name ∉ Naming.reservedWords)
      ↔ ∀ name ∈ (drafted d promote).finished.models.map (·.name),
          name ∉ Naming.reservedWords := by rw [List.forall_mem_map]
    _ ↔ ∀ name ∈ (d.declaredNames promote).reverse ++ Naming.uniques wantedName
          (d.declaredNames promote).reverse (liftedModels (drafted d promote).models),
          name ∉ Naming.reservedWords := forall_congr' fun name => imp_congr_left (hnames name)
    _ ↔ _ := by
      rw [Naming.reserved_uniques_iff, hlifted, ← reserved_declaredNames_iff d promote]
      simp only [List.mem_reverse]

/-- The names of the models in the client of a document have the form of identifiers. They are free
words exactly if no component schema has a reserved word for a key, but for characters in front
that cannot start a name, and no inline object a place that is named by one. -/
theorem names_of_ofTree {tree : Json} {c : Client} (h : ofTree tree promote = .ok c) :
    (∀ m ∈ c.models, Naming.IsTypeName m.name) ∧
      ∃ d, Document.decode tree = .ok d ∧
        ((∀ m ∈ c.models, m.name ∉ Naming.reservedWords) ↔
          (∀ entry ∈ d.schemas, Naming.bare entry.1 ∉ Naming.reservedWords) ∧
            ∀ p spot, d.object? promote p = some spot →
              Naming.placeName spot.place ∉ Naming.reservedWords) := by
  obtain ⟨_, d, hdecode, hclient⟩ := ofTree_eq_ok_iff.1 h
  obtain ⟨hnodup, rfl⟩ := draft_bind_finish_eq_ok_iff.1 hclient
  exact ⟨fun m hm => isTypeName_of_mem_finished hm, d, hdecode, reserved_names_finished_iff hnodup⟩

/-! ## Documents with and without reserved words -/

/-- The tree of a document that declares component schemas and nothing else. -/
def schemasTree (schemas : List (String × Json)) : Json :=
  .object [("openapi", .string "3.0.0"),
    ("info", .object [("title", .string "t"), ("version", .string "1")]),
    ("paths", .object []), ("components", .object [("schemas", .object schemas)])]

/-- The schema of strings. -/
def stringSchema : Json := .object [("type", .string "string")]

/-- A schema of objects with one property, which is of objects as well. -/
def nestedSchema (property : String) : Json :=
  .object [("type", .string "object"), ("properties", .object [(property,
    .object [("type", .string "object"), ("properties", .object [("x", stringSchema)])])])]

/-- The names of an object within an object, and that the place of the inner one makes a free
word. -/
theorem names_of_ofTree_nested :
    ∃ c, ofTree (schemasTree [("Pet", nestedSchema "owner")]) true = .ok c ∧
      (∀ m ∈ c.models, Naming.IsTypeName m.name) ∧
      ∃ d, Document.decode (schemasTree [("Pet", nestedSchema "owner")]) = .ok d ∧
        ∀ p spot, d.object? true p = some spot →
          Naming.placeName spot.place ∉ Naming.reservedWords := by
  obtain ⟨c, htree, hnames⟩ := exists_names_perm (schemasTree [("Pet", nestedSchema "owner")])
    true ["Pet"] ["PetOwner"] (by decide +kernel) (by decide +kernel) (by decide)
  obtain ⟨htypes, d, hdecode, hiff⟩ := names_of_ofTree htree
  have hfree : ∀ m ∈ c.models, m.name ∉ Naming.reservedWords := by
    intro m hm
    have hall : ∀ name ∈ ["Pet", "PetOwner"], name ∉ Naming.reservedWords := by decide
    exact hall _ (hnames.mem_iff.1 (List.mem_map_of_mem hm))
  exact ⟨c, htree, htypes, d, hdecode, (hiff.1 hfree).2⟩

/-- A reserved word becomes the name of a model as the key of a component schema, and as the name
of a place whose first characters cannot start a name. -/
theorem reserved_names_of_key_and_place :
    (∃ c, ofTree (schemasTree [("class", stringSchema)]) true = .ok c ∧
      ∃ m ∈ c.models, m.name ∈ Naming.reservedWords) ∧
    ∃ c, ofTree (schemasTree [("1", nestedSchema "2class")]) true = .ok c ∧
      ∃ m ∈ c.models, m.name ∈ Naming.reservedWords := by
  have hword : "class" ∈ Naming.reservedWords := by decide
  constructor
  · obtain ⟨c, htree, hnames⟩ := exists_names_perm (schemasTree [("class", stringSchema)]) true
      ["class"] [] (by decide +kernel) (by decide +kernel) (by decide)
    obtain ⟨m, hm, hname⟩ := List.mem_map.1 
      (hnames.mem_iff.2 (show "class" ∈ ["class"] ++ [] by decide))
    exact ⟨c, htree, m, hm, hname ▸ hword⟩
  · obtain ⟨c, htree, hnames⟩ := exists_names_perm (schemasTree [("1", nestedSchema "2class")])
      true ["_1"] ["class"] (by decide +kernel) (by decide +kernel) (by decide)
    obtain ⟨m, hm, hname⟩ := List.mem_map.1
      (hnames.mem_iff.2 (show "class" ∈ ["_1"] ++ ["class"] by decide))
    exact ⟨c, htree, m, hm, hname ▸ hword⟩

end TypedClient.Client
