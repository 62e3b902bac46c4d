import TypedClient.Proofs.Client.Grouping
import TypedClient.Proofs.Client.ModelSet

/-!
# Appending paths renames nothing

Names are given greedily and in order, so that what comes later has no influence on what came
before. `Extends b b'` says that everything in a client that is not finished yet stands at the
beginning of another one, which adds lifted definitions and operations only. Then the first has the
same names in both once they are finished (`Extends.keepsDefinitions`, `Extends.calls`). A document
with further paths behind its own has such a client: `appendPaths_keeps_names`.
-/

namespace TypedClient

/-- The document with further paths behind its own. -/
def Document.appendPaths (d : Document) (more : List (String × Document.PathItem)) : Document :=
  { d with paths := d.paths ++ more }

/-- The declaration that an operation stands for, and the names by which it is called. -/
structure Operation.Call where
  method : Method
  path : String
  service : String
  name : String
  hookName : String
deriving DecidableEq

namespace Operation

def call (op : Operation) : Call := ⟨op.method, op.path, op.service, op.name, op.hookName⟩

/-- The operation stands for the declaration. -/
structure StandsFor (x : Declaration) (op : Operation) : Prop where
  method_eq : op.method = x.method
  path_eq : op.path = x.path
  service_eq : op.service = x.service

theorem standsFor_of_rewritten {rho : String → String} {x : Declaration} {d : Document}
    {promotions : Model.Promotions} {op : Operation}
    (h : Rewritten rho (x.build d promotions).1 op) : StandsFor x op := by
  have hrest := h.rest
  exact ⟨by rw [hrest]; rfl, by rw [hrest]; rfl, by rw [hrest]; rfl⟩

end Operation

namespace Client

open Operation (Declaration declarations StandsFor)

/-- The definitions of a client as finishing leaves them, in the order in which they are
produced. -/
def definitions (c : Client) : List Model := (namedModels c.models).map (finishModel c.target)

/-- Everything in a client stands at the beginning of another one, which has further lifted
definitions and further operations. -/
structure Extends (b b' : Client) : Prop where
  models : ∃ later, b'.models = b.models ++ later ∧ ∀ m ∈ later, m.isProvisional = true
  services : ∀ s ∈ b.services, ∃ s' ∈ b'.services, s'.name = s.name ∧
    s.operations <+: s'.operations

/-- The definitions produced for the first client are the first ones of the second, and they have
the same names when both are finished. -/
structure KeepsDefinitions (b b' c c' : Client) : Prop where
  produced : b.models <+: b'.models
  models_eq : c.models = sortModels b.definitions
  models_eq' : c'.models = sortModels b'.definitions
  /-- Each definition is finished at its place. -/
  finished : List.Forall₂ (fun m n => Model.Rewritten b.target (withName m n.name) n)
    b.models b.definitions
  finished' : List.Forall₂ (fun m n => Model.Rewritten b'.target (withName m n.name) n)
    b'.models b'.definitions
  names : b.definitions.map (·.name) <+: b'.definitions.map (·.name)

/-- Every operation declared by the first document has the same service and is called by the same
names in the client of the second. -/
structure KeepsCalls (d d' : Document) (c c' : Client) : Prop where
  declared : declarations d <+: declarations d'
  holdsAll : HoldsAll StandsFor (declarations d) c.services
  holdsAll' : HoldsAll StandsFor (declarations d') c'.services
  calls : ∀ s ∈ c.services, ∃ s' ∈ c'.services, s'.name = s.name ∧
    s.operations.map (·.call) <+: s'.operations.map (·.call)

/-! ## Names of definitions -/

/-- Each definition is named at its place. -/
theorem forall₂_nameModels (models : List Model) (names : List String) :
    List.Forall₂ (fun m n => n = withName m n.name) models (nameModels models names) := by
  induction models generalizing names with
  | nil => exact .nil
  | cons m rest ih =>
      by_cases hm : m.isProvisional = true
      · cases names with
        | nil => simpa [nameModels, hm] using ⟨(withName_self m).symm, ih []⟩
        | cons name names => simpa [nameModels, hm, withName] using ih names
      · simpa [nameModels, hm] using ⟨(withName_self m).symm, ih names⟩

theorem forall₂_definitions (c : Client) :
    List.Forall₂ (fun m n => Model.Rewritten c.target (withName m n.name) n)
      c.models c.definitions := by
  rw [definitions, List.forall₂_map_right_iff]
  refine (forall₂_nameModels c.models _).imp fun m n hname => ?_
  rw [name_finishModel, ← hname]
  exact rewritten_finishModel _ n

/-- Further definitions at the end take what is left of the names. -/
theorem nameModels_append (models later : List Model) {names others : List String}
    (h : names.length = (liftedModels models).length) :
    nameModels (models ++ later) (names ++ others) =
      nameModels models names ++ nameModels later others := by
  -- Every lifted definition takes one name, so that `names` runs out just before `later`.
  induction models generalizing names with
  | nil =>
      obtain rfl : names = [] := List.eq_nil_of_length_eq_zero h
      rfl
  | cons m rest ih =>
      by_cases hm : m.isProvisional = true
      · cases names with
        | nil => simp [liftedModels, hm] at h
        | cons name names =>
            have hrest : names.length = (liftedModels rest).length := by
              simpa [liftedModels, hm] using h
            simp [nameModels, hm, ih hrest]
      · have hrest : names.length = (liftedModels rest).length := by
          simpa [liftedModels, hm] using h
        simp [nameModels, hm, ih hrest]

/-- Further lifted definitions at the end change no name that is given before. -/
theorem prefix_namedModels (models : List Model) {later : List Model}
    (h : ∀ m ∈ later, m.isProvisional = true) :
    namedModels models <+: namedModels (models ++ later) := by
  have hfixed : fixedModels (models ++ later) = fixedModels models := by
    have hnone : later.filter (!·.isProvisional) = [] :=
      List.filter_eq_nil_iff.2 fun m hm => by simp [h m hm]
    rw [fixedModels, List.filter_append, hnone, List.append_nil, fixedModels]
  have hlifted : liftedModels (models ++ later) = liftedModels models ++ later := by
    rw [liftedModels, List.filter_append, List.filter_eq_self.2 h, liftedModels]
  have hnames : liftedNames models <+: liftedNames (models ++ later) := by
    rw [liftedNames, liftedNames, fixedNames, fixedNames, hfixed, hlifted, finalNames_eq,
      finalNames_eq]
    exact Naming.prefix_uniques _ (List.prefix_append _ _)
  obtain ⟨others, hothers⟩ := hnames
  have hlength : (liftedNames models).length = (liftedModels models).length := by
    simp [liftedNames, finalNames_eq]
  refine ⟨nameModels later others, ?_⟩
  calc namedModels models ++ nameModels later others
      = nameModels (models ++ later) (liftedNames models ++ others) :=
        (nameModels_append models later hlength).symm
    _ = namedModels (models ++ later) := by
        rw [hothers]
        rfl

/-! ## Names of operations -/

/-- Further operations at the end change no name that is given before. -/
theorem prefix_distinguish (seen : List String) {ops others : List Operation} (h : ops <+: others) :
    distinguish seen ops <+: distinguish seen others := by
  obtain ⟨later, rfl⟩ := h
  -- An operation is named by those in front of it, and these are the same in both lists.
  induction ops generalizing seen with
  | nil => exact List.nil_prefix
  | cons op rest ih => exact List.cons_prefix_cons.2 ⟨rfl, ih _⟩

/-- The names of operations do not depend on where references lead. -/
theorem map_call_distinguish (target : String → String) (seen : List String)
    (ops : List Operation) :
    (distinguish seen (ops.map (finishOperation target))).map (·.call) =
      (distinguish seen ops).map (·.call) := by
  induction ops generalizing seen with
  | nil => rfl
  | cons op rest ih =>
      have hname : (finishOperation target op).name = op.name := rfl
      have hcall : ∀ name, (renameOperation name (finishOperation target op)).call =
          (renameOperation name op).call := by
        intro name
        unfold renameOperation
        rw [hname]
        split <;> rfl
      rw [List.map_cons, distinguish, distinguish, List.map_cons, List.map_cons, hname, hcall, ih]

/-- The operations of a finished service are called by names that depend on theirs only. -/
theorem map_call_finishService (target : String → String) (s : Service) :
    (finishService target s).operations.map (·.call) =
      (distinguish [] s.operations).map (·.call) := by
  rw [operations_finishService, map_call_distinguish]

/-! ## Extended clients -/

/-- Services with further operations behind are grouped out of further operations. -/
theorem exists_mem_group_of_prefix {ops others : List Operation} (h : ops <+: others)
    {s : Service} (hs : s ∈ group ops) :
    ∃ s' ∈ group others, s'.name = s.name ∧ s.operations <+: s'.operations := by
  have hname : s.name ∈ (group others).map (·.name) := by
    have hmem : s.name ∈ (group ops).map (·.name) := List.mem_map_of_mem hs
    rw [names_group, List.mem_eraseDups] at hmem ⊢
    exact (h.map _).subset hmem
  obtain ⟨s', hs', heq⟩ := List.mem_map.1 hname
  refine ⟨s', hs', heq, ?_⟩
  rw [(grouped_group ops).operations_eq s hs, (grouped_group others).operations_eq s' hs', heq]
  exact h.filter _

namespace Extends

variable {b b' : Client} (h : Extends b b')
include h

theorem keepsDefinitions : KeepsDefinitions b b' b.finished b'.finished := by
  obtain ⟨later, hmodels, hlifted⟩ := h.models
  refine
    { produced := ⟨later, hmodels.symm⟩
      models_eq := rfl
      models_eq' := rfl
      finished := forall₂_definitions b
      finished' := forall₂_definitions b'
      names := ?_ }
  have hnames : ∀ c : Client, c.definitions.map (·.name) = (namedModels c.models).map (·.name) := by
    intro c
    rw [definitions, List.map_map]
    exact List.map_congr_left fun m _ => name_finishModel _ m
  rw [hnames, hnames, hmodels]
  exact (prefix_namedModels b.models hlifted).map _

theorem calls {s : Service} (hs : s ∈ b.finished.services) :
    ∃ s' ∈ b'.finished.services, s'.name = s.name ∧
      s.operations.map (·.call) <+: s'.operations.map (·.call) := by
  obtain ⟨t, ht, rfl⟩ := List.mem_map.1 ((services_finished_perm b).mem_iff.1 hs)
  obtain ⟨t', ht', hname, hoperations⟩ := h.services t ht
  refine ⟨finishService b'.target t',
    (services_finished_perm b').mem_iff.2 (List.mem_map_of_mem ht'), hname, ?_⟩
  rw [map_call_finishService, map_call_finishService]
  exact (prefix_distinguish [] hoperations).map _

end Extends

/-! ## Documents with further paths -/

variable (d : Document) (more : List (String × Document.PathItem)) (promote : Bool)

theorem prefix_declarations : declarations d <+: declarations (d.appendPaths more) :=
  ⟨_, List.flatMap_append.symm⟩

/-- What is built from a declaration does not depend on other paths. -/
theorem operations_appendPaths (promotions : Model.Promotions) :
    operations (d.appendPaths more) promotions =
      operations d promotions ++ operations { d with paths := more } promotions :=
  List.flatMap_append

/-- What is lifted out of operations has provisional names. -/
theorem isProvisional_of_mem_operations {m : Model}
    (hm : m ∈ (operations d (d.promotions promote)).flatMap (·.2)) : m.isProvisional = true := by
  have hlifted : m ∈ (sources d promote).flatMap (·.2) := by
    rw [sources, List.flatMap_append]
    apply List.mem_append_right
    rw [Operation.operations_eq, List.flatMap_map] at hm
    simpa only [Declaration.build_snd, List.flatMap_assoc] using hm
  exact Model.isProvisional_iff.2 (isProvisionalName_of_mem_lifted hlifted)

theorem extends_appendPaths :
    Extends (drafted d promote) (drafted (d.appendPaths more) promote) where
  models := by
    let added : Document := { d with paths := more }
    have hmodels : (drafted (d.appendPaths more) promote).models =
        (d.builtComponents promote).map (·.1) ++ (d.builtComponents promote).flatMap (·.2) ++
          (operations (d.appendPaths more) (d.promotions promote)).flatMap (·.2) := rfl
    refine ⟨(operations added (added.promotions promote)).flatMap (·.2), ?_,
      fun m hm => isProvisional_of_mem_operations added promote hm⟩
    rw [hmodels, operations_appendPaths, List.flatMap_append, ← List.append_assoc]
    rfl
  services s hs := by
    refine exists_mem_group_of_prefix ?_ hs
    have hoperations := operations_appendPaths d more (d.promotions promote)
    exact (hoperations ▸ List.prefix_append _ _ :
      operations d (d.promotions promote) <+: _).map _

/-- The names are kept for the clients of a document and of the document with further paths. -/
theorem keepsCalls_appendPaths :
    KeepsCalls d (d.appendPaths more) (drafted d promote).finished
      (drafted (d.appendPaths more) promote).finished where
  declared := prefix_declarations d more
  holdsAll := (holdsAll_finished d promote).mono fun _ _ => Operation.standsFor_of_rewritten
  holdsAll' := (holdsAll_finished _ promote).mono fun _ _ => Operation.standsFor_of_rewritten
  calls _ hs := (extends_appendPaths d more promote).calls hs

/-- Paths that are appended to a document do not decide whether it is drafted, nor whether its draft
can be finished. They change neither the final name of a definition nor the service and the names of
an operation that it had before. -/
theorem appendPaths_keeps_names (d : Document) (more : List (String × Document.PathItem))
    (promote : Bool) :
    ((∃ b, draft d promote = .ok b) ↔ ∃ b', draft (d.appendPaths more) promote = .ok b') ∧
    ∀ b b', draft d promote = .ok b → draft (d.appendPaths more) promote = .ok b' →
      ((∃ c, b.finish = .ok c) ↔ ∃ c', b'.finish = .ok c') ∧
      ∀ c c', b.finish = .ok c → b'.finish = .ok c' →
        KeepsDefinitions b b' c c' ∧ KeepsCalls d (d.appendPaths more) c c' := by
  have hpromoted : (d.appendPaths more).promoted promote = d.promoted promote := rfl
  have hschemas : (d.appendPaths more).schemas = d.schemas := rfl
  have hnames : (d.appendPaths more).declaredNames promote = d.declaredNames promote := rfl
  refine ⟨?_, fun b b' hdraft hdraft' => ?_⟩
  · simp only [draft_eq_ok_iff, exists_and_left, exists_eq, and_true, hpromoted, hschemas]
  · obtain ⟨_, rfl⟩ := draft_eq_ok_iff.1 hdraft
    obtain ⟨_, rfl⟩ := draft_eq_ok_iff.1 hdraft'
    refine ⟨?_, fun c c' hfinish hfinish' => ?_⟩
    · simp only [finish_eq_ok_iff, exists_and_left, exists_eq, and_true, fixedNames_drafted, hnames]
    · obtain ⟨_, rfl⟩ := finish_eq_ok_iff.1 hfinish
      obtain ⟨_, rfl⟩ := finish_eq_ok_iff.1 hfinish'
      exact ⟨(extends_appendPaths d more promote).keepsDefinitions,
        keepsCalls_appendPaths d more promote⟩

/-- The body of a request that is lifted out of its operation. -/
def ownerBody : Document.RequestBody where
  content :=
    [("application/json",
      { schema := some { properties := [("name", { type := some (.single "string") })] } })]

/-- A path with an operation, to be appended to `ownerDocument`. -/
def ownerPaths : List (String × Document.PathItem) :=
  [("/pets",
    { operations := [(.post, { tags := ["pets"], requestBody := some (.inline ownerBody) })] })]

theorem appendPaths_keeps_names_ownerDocument :
    ∃ c c', (drafted ownerDocument true).finish = .ok c ∧
      (drafted (ownerDocument.appendPaths ownerPaths) true).finish = .ok c' ∧
      KeepsDefinitions (drafted ownerDocument true)
        (drafted (ownerDocument.appendPaths ownerPaths) true) c c' ∧
      KeepsCalls ownerDocument (ownerDocument.appendPaths ownerPaths) c c' := by
  have hdraft : draft ownerDocument true = .ok (drafted ownerDocument true) :=
    draft_eq_ok_iff.2 ⟨by decide, rfl⟩
  obtain ⟨hdrafts, hkeeps⟩ := appendPaths_keeps_names ownerDocument ownerPaths true
  obtain ⟨b', hdraft'⟩ := hdrafts.1 ⟨_, hdraft⟩
  obtain ⟨_, rfl⟩ := draft_eq_ok_iff.1 hdraft'
  obtain ⟨hfinishes, hnames⟩ := hkeeps _ _ hdraft hdraft'
  have hfinish : (drafted ownerDocument true).finish = .ok (drafted ownerDocument true).finished :=
    finish_eq_ok_iff.2 ⟨by rw [fixedNames_drafted]; decide, rfl⟩
  obtain ⟨c', hfinish'⟩ := hfinishes.1 ⟨_, hfinish⟩
  exact ⟨_, c', hfinish, hfinish', hnames _ _ hfinish hfinish'⟩

end Client

end TypedClient
