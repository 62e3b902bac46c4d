import TypedClient.Proofs.Operation.Placeholders

/-!
# Path parameters get their names first

Arguments get their identifiers in turn: first those in the path, then the other parameters, and
last the body (`namingOrder`). An identifier is made from the wire name and is free among the
identifiers given before, so that the identifiers of the arguments in the path depend on nothing but
their wire names (`PathFirst.take_identifiers`). Every declared operation is of this kind
(`pathFirst_build`), and it stays so when its models change.
-/

namespace TypedClient.Operation

open Document (Parameter)

/-! ## Identifiers of both kinds -/

/-- The parameters in the path get the one list of identifiers, and the others the other one. -/
theorem filter_zip_interleave {ps : List Parameter} {inPath others : List String}
    (hinPath : inPath.length = (ps.filter isInPath).length)
    (hothers : others.length = (ps.filter (!isInPath ·)).length) :
    (ps.zip (interleave ps inPath others)).filter (fun pair => isInPath pair.1) =
        (ps.filter isInPath).zip inPath ∧
      (ps.zip (interleave ps inPath others)).filter (fun pair => !isInPath pair.1) =
        (ps.filter (!isInPath ·)).zip others := by
  induction ps generalizing inPath others with
  | nil => exact ⟨rfl, rfl⟩
  | cons p ps ih =>
      cases hp : isInPath p with
      | true =>
          simp only [List.filter_cons, hp, if_true, Bool.not_true, Bool.false_eq_true, if_false,
            List.length_cons] at hinPath hothers ⊢
          obtain ⟨name, inPath, rfl⟩ := List.exists_cons_of_length_eq_add_one hinPath
          obtain ⟨hfirst, hsecond⟩ := ih (Nat.succ_inj.1 hinPath) hothers
          simp only [interleave, hp, if_true, List.zip_cons_cons, List.filter_cons, Bool.not_true,
            Bool.false_eq_true, if_false, hfirst, hsecond, and_self]
      | false =>
          simp only [List.filter_cons, hp, Bool.false_eq_true, if_false, Bool.not_false, if_true,
            List.length_cons] at hinPath hothers ⊢
          obtain ⟨name, others, rfl⟩ := List.exists_cons_of_length_eq_add_one hothers
          obtain ⟨hfirst, hsecond⟩ := ih hinPath (Nat.succ_inj.1 hothers)
          simp only [interleave, hp, Bool.false_eq_true, if_false, List.zip_cons_cons,
            List.filter_cons, Bool.not_false, if_true, hfirst, hsecond, and_self]

/-- The names of the parameters with their identifiers, those in the path first. -/
def parameterLabels (ps : List Parameter) : List (String × String) :=
  ((ps.zip (identifiers ps)).filter (fun pair => isInPath pair.1) ++
    (ps.zip (identifiers ps)).filter (fun pair => !isInPath pair.1)).map (Prod.map (·.name) id)

/-- The parameters get their identifiers in turn. -/
theorem inTurn_parameterLabels (ps : List Parameter) :
    Naming.InTurn Naming.valueName [] (parameterLabels ps) := by
  set inPath := assignIdentifiers [] ((ps.filter isInPath).map (·.name)) with hinPath
  set others := assignIdentifiers inPath.reverse ((ps.filter (!isInPath ·)).map (·.name))
    with hothers
  have hidentifiers : identifiers ps = interleave ps inPath others := rfl
  rw [assignIdentifiers_eq] at hinPath hothers
  have hinPathLength : inPath.length = (ps.filter isInPath).length := by
    rw [hinPath, Naming.length_uniques, List.length_map]
  have hothersLength : others.length = (ps.filter (!isInPath ·)).length := by
    rw [hothers, Naming.length_uniques, List.length_map]
  obtain ⟨hfirst, hsecond⟩ := filter_zip_interleave hinPathLength hothersLength
  rw [parameterLabels, hidentifiers, hfirst, hsecond, List.map_append, ← List.zip_map_left,
    ← List.zip_map_left]
  have hnames : (((ps.filter isInPath).map (·.name)).zip inPath).map (·.2) = inPath :=
    List.map_snd_zip (Nat.le_of_eq (by rw [hinPath, Naming.length_uniques]))
  refine Naming.InTurn.append ?_ ?_
  · rw [hinPath]
    exact Naming.inTurn_uniques [] _
  · rw [hnames, List.append_nil, hothers]
    exact (Naming.inTurn_uniques inPath.reverse _).congr fun name => List.mem_reverse.symm

/-- The identifiers in the labels are those of the parameters. -/
theorem map_snd_parameterLabels_perm (ps : List Parameter) :
    ((parameterLabels ps).map (·.2)).Perm (identifiers ps) := by
  have hperm := List.filter_append_perm (fun pair : Parameter × String => isInPath pair.1)
    (ps.zip (identifiers ps))
  rw [parameterLabels, List.map_map]
  refine (hperm.map _).trans (List.Perm.of_eq ?_)
  exact List.map_snd_zip (length_identifiers_le ps)

/-! ## The order of naming -/

/-- The wire name of an argument, and its identifier. -/
def Argument.label (a : Argument) : String × String := (a.wireName, a.identifier)

/-- The arguments in the path, then the other parameters, and then the body. -/
def namingOrder (declared : List Argument) : List Argument :=
  declared.filter (·.place == .path) ++
    declared.filter (fun a => a.place != .path && a.place != .body) ++
    declared.filter (·.place == .body)

/-- The arguments get their names in turn, those in the path first. Each is made from the wire name,
they are different, and the wire names are those that the document declares. -/
structure PathFirst (op : Operation) (x : Declaration) (d : Document) (declared : List Argument) :
    Prop where
  views : op.Views x d declared
  body : ∀ a ∈ op.bodyArgument, a.wireName = "requestBody"
  turns : Naming.InTurn Naming.valueName [] ((namingOrder declared).map (·.label))
  distinct : (op.arguments.map (·.identifier)).Nodup
  numbered : ∀ a ∈ op.arguments, a.identifier = Naming.valueName a.wireName ∨
    ∃ n, 2 ≤ n ∧ a.identifier = Naming.numbered (Naming.valueName a.wireName) n

/-- Every argument is named once. -/
theorem namingOrder_perm (declared : List Argument) : (namingOrder declared).Perm declared := by
  have hothers : (declared.filter (!·.place == .path)).filter (·.place != .body) =
      declared.filter (fun a => a.place != .path && a.place != .body) := by
    rw [List.filter_filter]
    exact List.filter_congr fun a _ => Bool.and_comm _ _
  have hbody : (declared.filter (!·.place == .path)).filter (!·.place != .body) =
      declared.filter (·.place == .body) := by
    rw [List.filter_filter]
    refine List.filter_congr fun a _ => ?_
    cases a.place <;> rfl
  have hrest := List.filter_append_perm (fun a : Argument => a.place != .body)
    (declared.filter (!·.place == .path))
  rw [hothers, hbody] at hrest
  rw [namingOrder, List.append_assoc]
  exact (hrest.append_left _).trans (List.filter_append_perm _ _)

/-- The arguments of an operation are those that are named. -/
theorem namingOrder_perm_arguments {op : Operation} {x : Declaration} {d : Document}
    {declared : List Argument} (h : op.Views x d declared) :
    (namingOrder declared).Perm op.arguments := by
  rw [h.arguments]
  exact (namingOrder_perm declared).trans (List.mergeSort_perm declared mayPrecede).symm

/-- A changed model changes no label, and no place in the order. -/
theorem map_label_namingOrder_map (f : Model → Model) (declared : List Argument) :
    (namingOrder (declared.map (·.mapModel f))).map (·.label) =
      (namingOrder declared).map (·.label) := by
  simp only [namingOrder, List.filter_map, ← List.map_append, List.map_map]
  rfl

namespace PathFirst

variable {op : Operation} {x : Declaration} {d : Document} {declared : List Argument}

/-- Names that are given in turn are different and made from the wire names. -/
theorem of_turns (hviews : op.Views x d declared)
    (hbody : ∀ a ∈ op.bodyArgument, a.wireName = "requestBody")
    (hturns : Naming.InTurn Naming.valueName [] ((namingOrder declared).map (·.label))) :
    op.PathFirst x d declared := by
  have hperm := namingOrder_perm_arguments hviews
  refine ⟨hviews, hbody, hturns, ?_, fun a ha => ?_⟩
  · have hnodup := hturns.nodup
    rw [List.map_map] at hnodup
    exact (hperm.map _).nodup_iff.1 hnodup
  · have hlabel : a.label ∈ (namingOrder declared).map (·.label) :=
      List.mem_map_of_mem (hperm.mem_iff.2 ha)
    exact hturns.eq_or_numbered hlabel

/-- The identifiers of the arguments in the path are given in turn by themselves. -/
theorem map_identifier_pathArguments (h : op.PathFirst x d declared) :
    op.pathArguments.map (·.identifier) =
      Naming.uniques Naming.valueName [] (op.pathArguments.map (·.wireName)) := by
  have hturns := h.turns
  rw [namingOrder, List.append_assoc, List.map_append, ← h.views.pathArguments] at hturns
  have heq := hturns.left.map_snd_eq
  rw [List.map_map, List.map_map] at heq
  exact heq

/-- So they depend on their wire names only, and each on those before it. -/
theorem take_identifiers (h : op.PathFirst x d declared) {other : Operation} {y : Declaration}
    {e : Document} {declared' : List Argument} (h' : other.PathFirst y e declared') {n : Nat}
    (hnames : (op.pathArguments.map (·.wireName)).take n =
      (other.pathArguments.map (·.wireName)).take n) :
    (op.pathArguments.map (·.identifier)).take n =
      (other.pathArguments.map (·.identifier)).take n := by
  rw [h.map_identifier_pathArguments, h'.map_identifier_pathArguments, Naming.take_uniques,
    Naming.take_uniques, hnames]

/-- An identifier without a digit at its end is there exactly if an argument asks for it. -/
theorem mem_identifiers_iff (h : op.PathFirst x d declared) {name : String}
    (hname : ¬ Naming.EndsInDigit name) :
    name ∈ op.arguments.map (·.identifier) ↔
      name ∈ op.arguments.map fun a => Naming.valueName a.wireName := by
  have hperm := namingOrder_perm_arguments h.views
  have hturns := h.turns.mem_map_snd_iff hname
  rw [List.map_map, List.map_map] at hturns
  rw [← (hperm.map (·.identifier)).mem_iff,
    ← (hperm.map fun a => Naming.valueName a.wireName).mem_iff]
  exact hturns

/-- The names stay when models change. -/
theorem mapModels (h : op.PathFirst x d declared) {f : Model → Model}
    (hf : ∀ m, (f m).isRequired = m.isRequired) :
    (op.mapModels f).PathFirst x d (declared.map (·.mapModel f)) := by
  refine of_turns (h.views.mapModels hf) (fun a ha => ?_) ?_
  · obtain ⟨b, hb, rfl⟩ := Option.map_eq_some_iff.1 ha
    exact h.body b hb
  · rw [map_label_namingOrder_map]
    exact h.turns

theorem refreshImports (h : op.PathFirst x d declared) :
    op.refreshImports.PathFirst x d (declared.map (·.mapModel Model.refreshImports)) := by
  have hmapped := h.mapModels Model.isRequired_refreshImports
  exact of_turns h.views.refreshImports hmapped.body hmapped.turns

end PathFirst

/-! ## The operation that is built -/

namespace Declaration

variable (x : Declaration) (d : Document) (promotions : Model.Promotions)

/-- The labels of the parameters that are sent in the path, or of those that are not. -/
theorem map_label_filter_sent (want : Bool → Bool) :
    (((x.sent d).map (·.1)).filter fun a => want (a.place == .path)).map (·.label) =
      (((x.parameters d).zip (identifiers (x.parameters d))).filter
        fun pair => want (isInPath pair.1)).map (Prod.map (·.name) id) := by
  have hplace : ∀ pair : Parameter × String,
      want ((argumentOf x.scope x.root pair.1 pair.2).1.place == .path) =
        want (isInPath pair.1) := fun pair => by rw [place_argumentOf]
  rw [sent, List.map_map, List.filter_map, List.map_map]
  exact congrArg _ (List.filter_congr fun pair _ => hplace pair)

/-- What is sent neither in the path nor in the body are parameters, too. -/
theorem filter_others_arguments :
    (x.arguments d).filter (fun a => a.place != .path && a.place != .body) =
      ((x.sent d).map (·.1)).filter (!·.place == .path) := by
  have hsent : ((x.sent d).map (·.1)).filter (fun a => a.place != .path && a.place != .body) =
      ((x.sent d).map (·.1)).filter (!·.place == .path) := by
    refine List.filter_congr fun a ha => ?_
    rw [bne_iff_ne.2 (x.place_ne_body d ha), Bool.and_true]
    rfl
  have hbody : ((x.body? d).map (·.1)).toList.filter
      (fun a => a.place != .path && a.place != .body) = [] := by
    rw [List.filter_eq_nil_iff]
    intro a ha
    simp [x.place_eq_body d ha]
  rw [arguments, List.filter_append, hsent, hbody, List.append_nil]

/-- The arguments of a declared operation get their names in turn. -/
theorem inTurn_arguments :
    Naming.InTurn Naming.valueName [] ((namingOrder (x.arguments d)).map (·.label)) := by
  have hsent : (x.sentIn d .path ++ ((x.sent d).map (·.1)).filter (!·.place == .path)).map
      (·.label) = parameterLabels (x.parameters d) := by
    rw [parameterLabels, List.map_append, List.map_append]
    exact congrArg₂ _ (x.map_label_filter_sent d id) (x.map_label_filter_sent d not)
  rw [namingOrder, x.filter_place_arguments d (by decide), x.filter_others_arguments d,
    x.filter_body_arguments d, List.map_append, hsent]
  refine (inTurn_parameterLabels (x.parameters d)).append ?_
  rw [List.append_nil, body?_eq]
  cases x.bodySource? d with
  | none => exact .nil _
  | some source =>
      -- The body asks for the name under which it is listed, which is an identifier already.
      have hfree : Naming.FreeName (Naming.valueName "requestBody")
          (identifiers (x.parameters d)) (x.bodyArgument d source).1.identifier :=
        Naming.freeName_unique "requestBody" _
      exact .cons (hfree.congr fun name => (map_snd_parameterLabels_perm _).mem_iff) (.nil _)

theorem pathFirst_build :
    (x.build d promotions).1.PathFirst x d
      ((x.arguments d).map (·.mapModel Model.refreshImports)) := by
  refine .of_turns (x.views_build d promotions) (fun a ha => ?_) ?_
  · have hbody : (x.build d promotions).1.bodyArgument =
        ((x.body? d).map (·.1)).map (·.mapModel Model.refreshImports) := rfl
    rw [hbody, body?_eq] at ha
    cases hsource : x.bodySource? d with
    | none => simp [hsource] at ha
    | some source =>
        rw [hsource] at ha
        obtain rfl := Option.some.inj ha
        rfl
  · rw [map_label_namingOrder_map]
    exact x.inTurn_arguments d

end Declaration

end TypedClient.Operation
