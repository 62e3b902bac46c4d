import TypedClient.Proofs.Emission.Compiling
import TypedClient.Proofs.Emission.Regeneration

/-!
# The inputs of the validator compiler and its modules

The inputs stand in the directory where the compiler leaves its modules, and are told from these by
a mark in front of their names. As the name of a definition may start with the same mark, this keeps
them apart for some clients only: `inputs_distinct_iff` says for which. For these no two writes go
to the same file, and no module is removed along with the inputs.
-/

namespace TypedClient.Emission

open Files

/-- The files that are written for the validator compiler alone. -/
def inputFiles (c : Client) : List String := c.models.map Page.validatorInput ++ [generatorFile]

/-- No input is named like another one, or like the module of a validator. -/
structure InputsDistinct (c : Client) : Prop where
  inputs : (inputFiles c).Nodup
  modules : ∀ model ∈ c.models, validatorFile model ∉ inputFiles c

/-- No definition is named like another one with the mark in front, or like the generator script,
whether as an input or as a module. -/
structure NamesUnmarked (c : Client) : Prop where
  marked : ∀ model ∈ c.models, "$" ++ model.name ∉ c.models.map (·.name)
  script : "$generator" ∉ c.models.map (·.name)
  module : "$$generator" ∉ c.models.map (·.name)

variable {m : Machine} {options : Options} {c : Client} {dir : Path}

theorem map_file_validatorJobs (m : Machine) (options : Options) (c : Client) :
    (validatorJobs m options c).map (·.file) = inputFiles c := by
  rw [validatorJobs, List.map_append, List.map_map]
  rfl

/-! ## Names of files -/

theorem validatorInput_eq_generatorFile {model : Model} :
    Page.validatorInput model = generatorFile ↔ model.name = "$generator" := by
  have hfile : generatorFile = "$" ++ "$generator" ++ ".js" := by decide
  rw [Page.validatorInput, hfile, String.append_left_inj, String.append_right_inj]

theorem validatorFile_eq_generatorFile {model : Model} :
    validatorFile model = generatorFile ↔ model.name = "$$generator" := by
  have hfile : generatorFile = "$$generator" ++ ".js" := by decide
  rw [validatorFile, hfile, String.append_left_inj]

theorem validatorInput_eq_validatorFile {model other : Model} :
    Page.validatorInput model = validatorFile other ↔ "$" ++ model.name = other.name := by
  rw [Page.validatorInput, validatorFile, String.append_left_inj]

/-- Different definitions have different inputs, so only the script can share a name with one. -/
theorem nodup_inputFiles_iff (hnodup : (c.models.map (·.name)).Nodup) :
    (inputFiles c).Nodup ↔ "$generator" ∉ c.models.map (·.name) := by
  have hinputs : (c.models.map Page.validatorInput).Nodup := nodup_map_around hnodup "$" ".js"
  have hscript : generatorFile ∈ c.models.map Page.validatorInput ↔
      "$generator" ∈ c.models.map (·.name) := by
    simp only [List.mem_map, validatorInput_eq_generatorFile]
  rw [inputFiles, ← List.concat_eq_append, List.nodup_concat, hscript]
  exact and_iff_left hinputs

theorem validatorFile_mem_inputFiles_iff {model : Model} :
    validatorFile model ∈ inputFiles c ↔
      (∃ other ∈ c.models, "$" ++ other.name = model.name) ∨ model.name = "$$generator" := by
  rw [inputFiles, List.mem_append, List.mem_singleton, validatorFile_eq_generatorFile]
  simp only [List.mem_map, validatorInput_eq_validatorFile]

/-- The inputs are distinct exactly if no name of a definition has the mark of an input. -/
theorem inputsDistinct_iff (hnodup : (c.models.map (·.name)).Nodup) :
    InputsDistinct c ↔ NamesUnmarked c := by
  constructor
  · intro h
    constructor
    case marked =>
      intro model hmodel hmem
      obtain ⟨other, hother, heq⟩ := List.mem_map.1 hmem
      exact h.modules other hother
        (validatorFile_mem_inputFiles_iff.2 (.inl ⟨model, hmodel, heq.symm⟩))
    case script => exact (nodup_inputFiles_iff hnodup).1 h.inputs
    case module =>
      intro hmem
      obtain ⟨model, hmodel, heq⟩ := List.mem_map.1 hmem
      exact h.modules model hmodel (validatorFile_mem_inputFiles_iff.2 (.inr heq))
  · intro h
    refine ⟨(nodup_inputFiles_iff hnodup).2 h.script, fun model hmodel hmem => ?_⟩
    rcases validatorFile_mem_inputFiles_iff.1 hmem with ⟨other, hother, heq⟩ | heq
    · exact h.marked other hother (heq ▸ List.mem_map_of_mem hmodel)
    · exact h.module (heq ▸ List.mem_map_of_mem hmodel)

/-! ## Writes and removals -/

/-- The file that an act tries to write. -/
def Act.written? : Act → Option Path
  | .call (.write path _) _ => some path
  | _ => none

/-- The file that an act tries to remove. -/
def Act.removed? : Act → Option Path
  | .call (.remove path) _ => some path
  | _ => none

theorem Act.Writes.written? {outcome : Job × Option Error} {act : Act}
    (h : act.Writes dir outcome) : act.written? = some (dir.entry outcome.1.file) := by
  obtain ⟨text, _, rfl⟩ := h
  rfl

theorem Act.Writes.removed? {outcome : Job × Option Error} {act : Act}
    (h : act.Writes dir outcome) : act.removed? = none := by
  obtain ⟨text, _, rfl⟩ := h
  rfl

/-- Acts with the given outcomes write the files of these. -/
theorem filterMap_written? {outcomes : List (Job × Option Error)} {acts : List Act}
    (h : List.Forall₂ (Act.Writes dir) outcomes acts) :
    acts.filterMap Act.written? = (outcomes.map (·.1.file)).map dir.entry := by
  induction h with
  | nil => rfl
  | cons hact _ ih =>
      rw [List.filterMap_cons_some hact.written?, ih]
      rfl

/-- Acts that are told to remove files write none. -/
theorem filterMap_of_removals {acts : List Act} {files : List String}
    (h : acts.map Act.event = files.map fun file => .call (.remove (dir.entry file))) :
    acts.filterMap Act.written? = [] ∧ acts.filterMap Act.removed? = files.map dir.entry := by
  induction acts generalizing files with
  | nil =>
      cases files with
      | nil => exact ⟨rfl, rfl⟩
      | cons file files => cases h
  | cons act acts ih =>
      cases files with
      | nil => cases h
      | cons file files =>
          obtain ⟨hact, hrest⟩ := List.cons.inj h
          obtain ⟨hwritten, hremoved⟩ := ih hrest
          cases act with
          | look path => cases hact
          | run name directory outcome => cases hact
          | call call failure =>
              cases hact
              exact ⟨hwritten, congrArg (dir.entry file :: ·) hremoved⟩

variable {runtime : String} {inputs : List Job} {outcomes : List (Job × Option Error)}
  {writes runs removals : List Act} {result : Except Error Unit}

/-- The compiler is started at most. -/
theorem Cleared.filterMap_runs
    (h : Cleared m runtime dir inputs outcomes writes runs removals result) :
    runs.filterMap Act.written? = [] ∧ runs.filterMap Act.removed? = [] := by
  cases hfailed : outcomes.findSome? (·.2) with
  | some e =>
      obtain ⟨rfl, -⟩ := h.failed e hfailed
      exact ⟨rfl, rfl⟩
  | none =>
      obtain ⟨exit, rfl, -⟩ := h.compiled (List.findSome?_eq_none_iff.1 hfailed)
      exact ⟨rfl, rfl⟩

/-- In the end the inputs that were written are removed. -/
theorem Cleared.filterMap_removals
    (h : Cleared m runtime dir inputs outcomes writes runs removals result) :
    removals.filterMap Act.written? = [] ∧ removals.filterMap Act.removed? =
      ((outcomes.filter (·.2.isNone)).map (·.1.file)).map dir.entry := by
  refine filterMap_of_removals ?_
  rw [h.removals, List.map_map]
  rfl

/-- Each input is written once. -/
theorem Cleared.written_perm
    (h : Cleared m runtime dir inputs outcomes writes runs removals result) :
    ((writes ++ runs ++ removals).filterMap Act.written?).Perm
      ((inputs.map (·.file)).map dir.entry) := by
  obtain ⟨scheduled, hperm, -, hwrites⟩ := h.writes
  rw [List.filterMap_append, List.filterMap_append, h.filterMap_runs.1, h.filterMap_removals.1,
    List.append_nil, List.append_nil, filterMap_written? hwrites]
  have houtcomes : outcomes.map (·.1.file) = inputs.map (·.file) := by
    rw [← h.listed, List.map_map]
    rfl
  rw [← houtcomes]
  exact (hperm.map _).map _

/-- Nothing but inputs is removed. -/
theorem Cleared.mem_removed
    (h : Cleared m runtime dir inputs outcomes writes runs removals result) {path : Path}
    (hpath : path ∈ (writes ++ runs ++ removals).filterMap Act.removed?) :
    ∃ file ∈ inputs.map (·.file), path = dir.entry file := by
  obtain ⟨scheduled, -, -, hwrites⟩ := h.writes
  have hnone : writes.filterMap Act.removed? = [] := by
    clear * - hwrites
    induction hwrites with
    | nil => rfl
    | cons hact _ ih => rw [List.filterMap_cons_none hact.removed?, ih]
  rw [List.filterMap_append, List.filterMap_append, hnone, h.filterMap_runs.2, List.nil_append,
    List.nil_append, h.filterMap_removals.2] at hpath
  obtain ⟨file, hfile, rfl⟩ := List.mem_map.1 hpath
  obtain ⟨outcome, houtcome, rfl⟩ := List.mem_map.1 hfile
  refine ⟨_, ?_, rfl⟩
  rw [← h.listed, List.map_map]
  exact List.mem_map_of_mem (List.mem_of_mem_filter houtcome)

/-- A run that succeeds removes every input. -/
theorem removed_of_writeValidators {s t : State}
    (hrun : execute (writeValidators options c dir) m s = (.ok (), t)) {file : String}
    (hfile : file ∈ inputFiles c) : .call (.remove (dir.entry file)) ∈ t.events := by
  obtain ⟨acts, htrace, hacts⟩ := @goes_writeValidators m options c dir s
  rw [hrun] at htrace hacts
  unfold Compiles at hacts
  split at hacts
  · cases hacts.2
  · cases hacts.2
  · obtain ⟨outcomes, writes, runs, removals, rfl, hcleared⟩ := hacts
    have hwritten : ∀ outcome ∈ outcomes, outcome.2 = none := by
      cases hfailed : outcomes.findSome? (·.2) with
      | some e => cases (hcleared.failed e hfailed).2
      | none => exact List.findSome?_eq_none_iff.1 hfailed
    rw [← map_file_validatorJobs m options c, ← hcleared.listed, List.map_map,
      List.mem_map] at hfile
    obtain ⟨outcome, houtcome, rfl⟩ := hfile
    rw [htrace.events, List.map_append, hcleared.removals]
    refine List.mem_append_right _ (List.mem_append_right _ (List.mem_map.2 ⟨outcome, ?_, rfl⟩))
    exact List.mem_filter.2 ⟨houtcome, by simp [hwritten outcome houtcome]⟩

/-- However a run that compiles the validators goes, no two of its writes go to the same file, and
it removes no module of a validator. -/
structure WritesApart (c : Client) (dir : Path) (acts : List Act) : Prop where
  writes : (acts.filterMap Act.written?).Nodup
  modules : ∀ model ∈ c.models, dir.entry (validatorFile model) ∉ acts.filterMap Act.removed?

theorem writesApart_of_compiles (h : InputsDistinct c) {acts : List Act}
    (hacts : Compiles m options c dir acts result) : WritesApart c dir acts := by
  -- A run that ends before the inputs are written has not acted.
  have hnone : WritesApart c dir [] := ⟨List.nodup_nil, fun _ _ => List.not_mem_nil⟩
  unfold Compiles at hacts
  split at hacts
  · exact hacts.1 ▸ hnone
  · exact hacts.1 ▸ hnone
  · obtain ⟨outcomes, writes, runs, removals, rfl, hcleared⟩ := hacts
    constructor
    · rw [hcleared.written_perm.nodup_iff, map_file_validatorJobs]
      exact h.inputs.map (Path.entry_injective dir)
    · intro model hmodel hmem
      obtain ⟨file, hfile, heq⟩ := hcleared.mem_removed hmem
      rw [map_file_validatorJobs] at hfile
      exact h.modules model hmodel (Path.entry_injective dir heq ▸ hfile)

/-- In the client of a document the inputs of the validator compiler are distinct exactly if no name
of a definition has the mark of an input. If they are, no run writes a file twice or removes the
module of a validator. -/
theorem inputs_distinct_iff {tree : Json} {promote : Bool}
    (h : Client.ofTree tree promote = .ok c) :
    (InputsDistinct c ↔ NamesUnmarked c) ∧
      (NamesUnmarked c → ∀ (m : Machine) (options : Options) (dir : Path) (s : State),
        ∃ acts result t, execute (writeValidators options c dir) m s = (result, t) ∧
          Trace m s acts t ∧ WritesApart c dir acts) := by
  have hiff := inputsDistinct_iff (Client.fileNames_of_ofTree h).models_nodup
  refine ⟨hiff, fun hnames m options dir s => ?_⟩
  obtain ⟨acts, htrace, hacts⟩ := @goes_writeValidators m options c dir s
  exact ⟨acts, _, _, rfl, htrace, writesApart_of_compiles (hiff.2 hnames) hacts⟩

/-- A client of which something is known is the client of its document. -/
theorem exists_of_toOption {tree : Json} {promote : Bool} {α : Type} {f : Client → α} {a : α}
    (h : (Client.ofTree tree promote).toOption.map f = some a) :
    ∃ c, Client.ofTree tree promote = .ok c ∧ f c = a := by
  cases hclient : Client.ofTree tree promote with
  | error e => rw [hclient] at h; cases h
  | ok c =>
      rw [hclient] at h
      exact ⟨c, rfl, Option.some.inj h⟩

/-- The client of a document without marked names. -/
theorem inputs_distinct_kindDocument :
    ∃ c, Client.ofTree kindDocument true = .ok c ∧ c.models.map (·.name) = ["Kind"] ∧
      InputsDistinct c ∧
      ∀ (m : Machine) (options : Options) (dir : Path) (s : State),
        ∃ acts result t, execute (writeValidators options c dir) m s = (result, t) ∧
          Trace m s acts t ∧ WritesApart c dir acts := by
  have hknown : (Client.ofTree kindDocument true).toOption.map
      (fun c => c.models.map (·.name)) = some ["Kind"] := by decide +kernel
  obtain ⟨c, htree, hnames⟩ := exists_of_toOption hknown
  have hunmarked : NamesUnmarked c := by
    refine ⟨fun model hmodel => ?_, by rw [hnames]; decide, by rw [hnames]; decide⟩
    have hname : model.name = "Kind" := by
      simpa [hnames] using List.mem_map_of_mem (f := (·.name)) hmodel
    rw [hname, hnames]
    decide
  obtain ⟨hiff, hruns⟩ := inputs_distinct_iff htree
  exact ⟨c, htree, hnames, hiff.2 hunmarked, hruns hunmarked⟩

/-- A document with a definition that is named like another one with the mark in front. -/
def markedDocument : Json :=
  .object [("openapi", .string "3.0.0"), ("components", .object [("schemas",
    .object [("X", .object [("type", .string "string")]),
      ("$X", .object [("type", .string "string")])])])]

/-- A document that declares different names has a client, with definitions of these names. -/
theorem exists_of_declaredNames {tree : Json} {promote : Bool} {names : List String}
    (hversion : Document.checkVersion tree = .ok ())
    (hnames : (Document.decode tree).toOption.map (·.declaredNames promote) = some names)
    (hnodup : names.Nodup) :
    ∃ c, Client.ofTree tree promote = .ok c ∧ ∀ name ∈ names, ∃ m ∈ c.models, m.name = name := by
  cases hdecode : Document.decode tree with
  | error e => rw [hdecode] at hnames; cases hnames
  | ok d =>
      rw [hdecode] at hnames
      obtain rfl : d.declaredNames promote = names := Option.some.inj hnames
      refine ⟨_, Client.ofTree_eq_ok_iff.2
        ⟨hversion, d, hdecode, Client.draft_bind_finish_eq_ok_iff.2 ⟨hnodup, rfl⟩⟩, ?_⟩
      intro name hname
      rw [← List.mem_map, (Client.names_finished_perm _).mem_iff, Client.fixedNames_drafted]
      exact List.mem_append_left _ hname

/-- The module for the marked name has the name of an input, so that no run that succeeds leaves
it. -/
theorem not_inputs_distinct_markedDocument :
    ∃ c, Client.ofTree markedDocument true = .ok c ∧ ∃ model ∈ c.models,
      validatorFile model ∈ inputFiles c ∧
      ∀ (m : Machine) (options : Options) (dir : Path) (s t : State),
        execute (writeValidators options c dir) m s = (.ok (), t) →
          .call (.remove (dir.entry (validatorFile model))) ∈ t.events := by
  have hdeclared : (Document.decode markedDocument).toOption.map (·.declaredNames true) =
      some ["X", "$X"] := by decide +kernel
  obtain ⟨c, htree, hnames⟩ := exists_of_declaredNames (by decide +kernel) hdeclared (by decide)
  obtain ⟨plain, hplain, hplainName⟩ := hnames "X" (by decide)
  obtain ⟨marked, hmarked, hmarkedName⟩ := hnames "$X" (by decide)
  have hsame : "$" ++ plain.name = marked.name := by
    rw [hplainName, hmarkedName]
    decide
  have hinput : validatorFile marked ∈ inputFiles c :=
    validatorFile_mem_inputFiles_iff.2 (.inl ⟨plain, hplain, hsame⟩)
  exact ⟨c, htree, marked, hmarked, hinput, fun m options dir s t hrun =>
    removed_of_writeValidators hrun hinput⟩

end TypedClient.Emission
