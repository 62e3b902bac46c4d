import TypedClient.Proofs.Emission.Jobs
import TypedClient.Proofs.Emission.Run
import TypedClient.Script.Layout
import TypedClient.Template.Artifact

/-!
# The calls that write a client

A client is written by calls on its output directory, the directories of the categories, their
entries and the index (`Call.Confined`), and writing fails only when rendering, the disk or the
validator compiler does (`WritingFailure`). Both hold of each step, so that they hold of the whole:
`within_writeCategory` and `within_writeIndex`. Looking for the file that replaces the request
function comes before, and changes nothing (`within_findOverride`).
-/

namespace TypedClient.Emission

open Files

/-- The calls that write a client into a directory. -/
inductive Call.Confined (output : Path) : Call → Prop
  | exists (path : Path) : Confined output (.exists path)
  | makeOutput : Confined output (.makeDirectory output)
  | makeDirectory (category : Category) :
      Confined output (.makeDirectory (output.entry category.directory))
  | removeDirectory (category : Category) :
      Confined output (.removeDirectory (output.entry category.directory))
  | writeIndex (contents : Contents) : Confined output (.write (output.entry indexFile) contents)
  | write (category : Category) (file : String) (contents : Contents) : Path.IsPlain file →
      Confined output (.write ((output.entry category.directory).entry file) contents)
  | copy (source : Path) (category : Category) (file : String) : Path.IsPlain file →
      Confined output (.copy source ((output.entry category.directory).entry file))
  | remove (category : Category) (file : String) : Path.IsPlain file →
      Confined output (.remove ((output.entry category.directory).entry file))

/-- An event is confined if it is a confined call. What a program does is its own affair. -/
def Event.Confined (output : Path) : Event → Prop
  | .call c => c.Confined output
  | .start _ _ => True

/-- The events that only look at the disk. -/
def Event.IsLook (e : Event) : Prop := ∃ path, e = .call (.exists path)

/-- The failures of writing: what rendering or the disk reports, and a validator compiler that is
missing, cannot be started or fails. -/
inductive WritingFailure (m : Machine) : Error → Prop
  | render (artifact : Artifact) (context : Json) (e : Error) :
      m.render artifact context = .error e → WritingFailure m e
  | refused (n : Nat) (c : Call) (e : Error) : m.fault? n c = some e → WritingFailure m e
  | disk (c : Call) (fault : Fault) : WritingFailure m (c.failure fault)
  | missingExecutable (program : String) : WritingFailure m (.missingExecutable program)
  | notStarted (path : String) (fault : Fault) : WritingFailure m (.disk .run path fault)
  | validatorCompiler (code : Nat) : WritingFailure m (.validatorCompiler code)

variable {m : Machine} {options : Options} {c : Client} {output : Path} {override : Option Path}

/-- A step of writing into a directory: confined to it, with failures of writing only. -/
def Writes (m : Machine) (output : Path) {α : Type} (x : Run α) : Prop :=
  Within m (·.Confined output) (WritingFailure m) (fun _ => True) x

theorem writes_perform {call : Call} (h : call.Confined output) : Writes m output (perform call) :=
  .perform h (fun n e => .refused n call e) (.disk call)

theorem Job.Proper.writes {job : Job} (h : job.Proper m) (category : Category) :
    Writes m output (writeJob (output.entry category.directory) job) := by
  unfold writeJob
  split
  · exact writes_perform (.write category job.file _ h.plain)
  · rename_i e he
    obtain ⟨artifact, context, hrender⟩ := h.failure e he
    exact .throw (.render artifact context e hrender)

theorem mem_schedule {job : Job} {all : List Job} : job ∈ m.schedule all ↔ job ∈ all :=
  (m.schedule_perm all).mem_iff

theorem mem_of_mem_underWay {job : Job} {all : List Job} (h : job ∈ m.underWay all) :
    job ∈ all := by
  obtain ⟨others, hperm⟩ := m.underWay_perm all
  exact hperm.mem_iff.1 (List.mem_append_left _ h)

/-- Writing each file does not end the run; each failure is reported with its file. -/
theorem within_writeEach {category : Category} {all : List Job} {E : Error → Prop}
    (h : ∀ job ∈ all, job.Proper m) :
    Within m (·.Confined output) E
      (fun results => ∀ r ∈ results, ∀ e, r.2 = some e → WritingFailure m e)
      (writeEach (output.entry category.directory) all) :=
  .mapM fun job hjob => ((h job hjob).writes category).attempt.bind fun _ hfailure =>
    .pure hfailure

theorem writes_writeInTurn {category : Category} {all : List Job}
    (h : ∀ job ∈ all, job.Proper m) :
    Writes m output (writeInTurn (output.entry category.directory) all) := by
  induction all with
  | nil => exact .pure trivial
  | cons job rest ih =>
      have hrest : ∀ other ∈ rest, other.Proper m :=
        fun other hother => h other (List.mem_cons_of_mem _ hother)
      refine ((h job List.mem_cons_self).writes category).attempt.bind fun failure hfailure => ?_
      cases failure with
      | none => exact ih hrest
      | some e =>
          refine .read_bind ((within_writeEach fun other hother => ?_).bind fun _ _ => ?_)
          · exact hrest other (mem_of_mem_underWay hother)
          · exact .throw (hfailure e rfl)

theorem writes_writeJobs {category : Category} {all : List Job} (h : ∀ job ∈ all, job.Proper m) :
    Writes m output (writeJobs (output.entry category.directory) all) :=
  .read_bind <| writes_writeInTurn fun job hjob => h job (mem_schedule.1 hjob)

theorem writes_acquire (category : Category) :
    Writes m output (acquire (output.entry category.directory)) :=
  (writes_perform (.removeDirectory category)).bind fun _ _ =>
    writes_perform (.makeDirectory category)

/-! ## The validators -/

/-- Writing all inputs of the validator compiler does not end the run; each failure is reported
for one of them. -/
theorem within_writeAll {category : Category} {all : List Job} (h : ∀ job ∈ all, job.Proper m) :
    Within m (·.Confined output) (WritingFailure m)
      (fun outcomes => ∀ outcome ∈ outcomes,
        outcome.1 ∈ all ∧ ∀ e, outcome.2 = some e → WritingFailure m e)
      (writeAll (output.entry category.directory) all) := by
  refine .read_bind ((within_writeEach fun job hjob => ?_).bind fun results hresults => .pure ?_)
  · exact h job (mem_schedule.1 hjob)
  · intro outcome houtcome
    refine ⟨?_, fun e he => hresults _ (mem_of_mem_collect houtcome he) e rfl⟩
    rw [← map_fst_collect results all]
    exact List.mem_map_of_mem houtcome

theorem writes_removeAll {category : Category} {files : List String}
    (h : ∀ file ∈ files, Path.IsPlain file) :
    Writes m output (removeAll (output.entry category.directory) files) :=
  .forM fun file hfile =>
    (writes_perform (.remove category file (h file hfile))).attempt.bind fun _ _ => .pure trivial

theorem writes_compileValidators (name : String) (program : Program) (directory : Path) :
    Writes m output (compileValidators name program directory) := by
  have hstart : Writes m output (start name program directory) :=
    .start trivial fun fault => .notStarted _ fault
  refine hstart.bind fun code _ => ?_
  split
  · exact .throw (.validatorCompiler code)
  · exact .pure trivial

/-- Once the inputs are removed, the run ends as it has to. -/
theorem writes_clear {category : Category} {files : List String} {failure : Option Error}
    (hfiles : ∀ file ∈ files, Path.IsPlain file)
    (hfailure : ∀ e, failure = some e → WritingFailure m e) :
    Writes m output (do
      removeAll (output.entry category.directory) files
      match failure with
      | some e => throw e
      | none => pure ()) := by
  refine (writes_removeAll hfiles).bind fun _ _ => ?_
  cases failure with
  | some e => exact .throw (hfailure e rfl)
  | none => exact .pure trivial

theorem writes_writeValidators (hc : c.FileNames) :
    Writes m output
      (writeValidators options c (output.entry Category.validators.directory)) := by
  have hproper : ∀ job ∈ validatorJobs m options c, job.Proper m :=
    proper_of_mem_jobs hc .validators
  refine .read_bind ?_
  split
  · exact .throw (.missingExecutable _)
  · rename_i program _
    dsimp only
    split
    · rename_i e hunrendered
      obtain ⟨job, hjob, htext⟩ := List.exists_of_findSome?_eq_some hunrendered
      obtain ⟨artifact, context, hrender⟩ :=
        (hproper job hjob).failure e (Job.failure?_eq_some_iff.1 htext)
      exact .throw (.render artifact context e hrender)
    · refine (within_writeAll hproper).bind fun outcomes houtcomes => ?_
      have hfiles : ∀ file ∈ (outcomes.filter (·.2.isNone)).map (·.1.file),
          Path.IsPlain file := by
        intro file hfile
        obtain ⟨outcome, houtcome, rfl⟩ := List.mem_map.1 hfile
        exact (hproper _ (houtcomes outcome (List.mem_of_mem_filter houtcome)).1).plain
      split
      · rename_i e hfailed
        obtain ⟨outcome, houtcome, he⟩ := List.exists_of_findSome?_eq_some hfailed
        have hfailure : ∀ e', some e = some e' → WritingFailure m e' :=
          fun e' he' => (houtcomes outcome houtcome).2 e' (he.trans he')
        exact writes_clear hfiles hfailure
      · have hcompile : Writes m output (compileValidators options.validatorRuntime program
            (output.entry Category.validators.directory)) := writes_compileValidators _ _ _
        exact hcompile.attempt.bind fun failure hfailure => writes_clear hfiles hfailure

theorem writes_fill (hc : c.FileNames) (category : Category) :
    Writes m output (fill options c override (output.entry category.directory) category) := by
  have hfiles : Writes m output
      (writeJobs (output.entry category.directory) (jobs m options c category)) :=
    writes_writeJobs (proper_of_mem_jobs hc category)
  cases category with
  | core =>
      refine .read_bind (hfiles.bind fun _ _ => ?_)
      cases override with
      | some source =>
          have hplain : Path.IsPlain requestFile :=
            Path.isPlain_of_slash_not_mem (by decide) (by decide)
          exact writes_perform (.copy source .core requestFile hplain)
      | none => exact .pure trivial
  | validators => exact writes_writeValidators hc
  | services | schemas | models => exact .read_bind hfiles

theorem writes_writeCategory (hc : c.FileNames) (category : Category) :
    Writes m output (writeCategory options c override output category) :=
  (writes_acquire category).bind fun _ _ => writes_fill hc category

theorem writes_writeIndex : Writes m output (writeIndex options c output) := by
  refine (writes_perform .makeOutput).bind fun _ _ => .read_bind ?_
  have htext : Writes m output (render .index (Page.indexContext options c)) :=
    .render fun e he => .render _ _ e he
  exact htext.bind fun _ _ => writes_perform (.writeIndex _)

/-- Looking for the file that replaces the request function changes nothing. -/
theorem within_findOverride :
    Within m Event.IsLook (fun e => ∃ path, e = .missingRequestFile path) (fun _ => True)
      (findOverride options) := by
  unfold findOverride
  split
  · exact .pure trivial
  · split
    · refine .read_bind ((Within.exists? ⟨_, rfl⟩).bind fun found _ => ?_)
      split
      · exact .pure trivial
      · exact .throw ⟨_, rfl⟩
    · exact .pure trivial

/-! ## The run as a whole -/

/-- The directory into which a client is written. -/
def outputDirectory (m : Machine) (options : Options) : Path :=
  (m.workingDirectory.join (Path.parse options.output)).normalize

/-- What is written once the checks are passed: the enabled categories, and then the index. -/
def writeParts (options : Options) (c : Client) (override : Option Path) (output : Path) :
    Run Unit := do
  (Category.all.filter (·.isEnabled options)).forM (writeCategory options c override output)
  if options.anyCategory then writeIndex options c output

theorem mem_enabled {category : Category} :
    category ∈ Category.all.filter (·.isEnabled options) ↔ category.isEnabled options = true := by
  cases category <;> simp [Category.all]

theorem writeParts_of_not_anyCategory (h : options.anyCategory = false) (override : Option Path) :
    writeParts options c override output = pure () := by
  have hnone : Category.all.filter (·.isEnabled options) = [] := by
    simp only [Options.anyCategory, Bool.or_eq_false_iff] at h
    simp [Category.all, Category.isEnabled, h]
  rw [writeParts, hnone, h]
  rfl

theorem exists_isEnabled (h : options.anyCategory = true) :
    ∃ category : Category, category.isEnabled options = true := by
  simp only [Options.anyCategory, Bool.or_eq_true] at h
  obtain (((h | h) | h) | h) | h := h
  · exact ⟨.core, h⟩
  · exact ⟨.services, h⟩
  · exact ⟨.models, h⟩
  · exact ⟨.schemas, h⟩
  · exact ⟨.validators, h⟩

theorem anyCategory_of_isEnabled {category : Category}
    (h : category.isEnabled options = true) : options.anyCategory = true := by
  cases category <;> simp_all [Category.isEnabled, Options.anyCategory]

/-- Some category is enabled if the list of enabled ones is not empty. -/
theorem enabled_ne_nil_iff :
    Category.all.filter (·.isEnabled options) ≠ [] ↔ options.anyCategory = true := by
  constructor
  · intro h
    obtain ⟨category, hcategory⟩ := List.exists_mem_of_ne_nil _ h
    exact anyCategory_of_isEnabled (mem_enabled.1 hcategory)
  · intro h
    obtain ⟨category, hcategory⟩ := exists_isEnabled h
    exact List.ne_nil_of_mem (mem_enabled.2 hcategory)

theorem writes_forM_writeCategory (hc : c.FileNames) (categories : List Category) :
    Writes m output (categories.forM (writeCategory options c override output)) :=
  .forM fun category _ => writes_writeCategory hc category

theorem writes_indexIfAny :
    Writes m output
      (if options.anyCategory = true then writeIndex options c output else pure ()) := by
  split
  · exact writes_writeIndex
  · exact .pure trivial

theorem writes_writeParts (hc : c.FileNames) :
    Writes m output (writeParts options c override output) :=
  (writes_forM_writeCategory hc _).bind fun _ _ => writes_indexIfAny

theorem makes_writeCategory_remove (hc : c.FileNames) (category : Category) (s : State) :
    Makes m (writeCategory options c override output category) s
      (.removeDirectory (output.entry category.directory)) := by
  have hacquire : Makes m (acquire (output.entry category.directory)) s
      (.removeDirectory (output.entry category.directory)) :=
    (makes_perform _ s).bind_left fun _ => writes_perform (.makeDirectory category)
  exact hacquire.bind_left fun _ => writes_fill hc category

theorem makes_writeCategory_make (hc : c.FileNames) {category : Category} {s t : State}
    (hrun : execute (writeCategory options c override output category) m s = (.ok (), t)) :
    Makes m (writeCategory options c override output category) s
      (.makeDirectory (output.entry category.directory)) := by
  obtain ⟨_, mid, hacquire, _⟩ := execute_bind_eq_ok_iff.1 hrun
  obtain ⟨_, bare, hremove, _⟩ := execute_bind_eq_ok_iff.1 hacquire
  have hmake : Makes m (acquire (output.entry category.directory)) s
      (.makeDirectory (output.entry category.directory)) :=
    .bind_right (writes_perform (.removeDirectory category)) hremove (makes_perform _ bare)
  exact hmake.bind_left fun _ => writes_fill hc category

/-- What each category makes is made if all succeed. -/
theorem makes_forM_writeCategory (hc : c.FileNames) {categories : List Category} {s t : State}
    (hrun : execute (categories.forM (writeCategory options c override output)) m s = (.ok (), t))
    {category : Category} (hcategory : category ∈ categories) {call : Call}
    (hcall : ∀ s t, execute (writeCategory options c override output category) m s = (.ok (), t) →
      Makes m (writeCategory options c override output category) s call) :
    Makes m (categories.forM (writeCategory options c override output)) s call := by
  induction categories generalizing s with
  | nil => cases hcategory
  | cons first rest ih =>
      obtain ⟨_, mid, hfirst, hrest⟩ := execute_bind_eq_ok_iff.1 hrun
      rcases List.mem_cons.1 hcategory with rfl | hcategory
      · exact (hcall s mid hfirst).bind_left fun _ => writes_forM_writeCategory hc rest
      · exact .bind_right (writes_writeCategory hc first) hfirst (ih hrest hcategory)

/-- A successful run removes and makes the directories of all enabled categories. -/
theorem makes_writeParts (hc : c.FileNames) {s t : State}
    (hrun : execute (writeParts options c override output) m s = (.ok (), t))
    {category : Category} (hcategory : category.isEnabled options = true) :
    Makes m (writeParts options c override output) s
        (.removeDirectory (output.entry category.directory)) ∧
      Makes m (writeParts options c override output) s
        (.makeDirectory (output.entry category.directory)) := by
  obtain ⟨_, mid, hcategories, _⟩ := execute_bind_eq_ok_iff.1 hrun
  have hmem := mem_enabled.2 hcategory
  constructor
  · exact (makes_forM_writeCategory hc hcategories hmem fun s _ _ =>
      makes_writeCategory_remove hc category s).bind_left fun _ => writes_indexIfAny
  · exact (makes_forM_writeCategory hc hcategories hmem fun _ _ hok =>
      makes_writeCategory_make hc hok).bind_left fun _ => writes_indexIfAny

/-- Where there is a category to write, a run removes a directory at once. -/
theorem exists_makes_writeParts (hc : c.FileNames) (hany : options.anyCategory = true)
    (s : State) :
    ∃ category : Category, Makes m (writeParts options c override output) s
      (.removeDirectory (output.entry category.directory)) := by
  obtain ⟨category, hcategory⟩ := exists_isEnabled hany
  cases henabled : Category.all.filter (·.isEnabled options) with
  | nil => exact absurd (mem_enabled.2 hcategory) (by simp [henabled])
  | cons first rest =>
      refine ⟨first, ?_⟩
      rw [writeParts, henabled]
      have hfirst : Makes m ((first :: rest).forM (writeCategory options c override output)) s
          (.removeDirectory (output.entry first.directory)) :=
        (makes_writeCategory_remove hc first s).bind_left fun _ =>
          writes_forM_writeCategory hc rest
      exact hfirst.bind_left fun _ => writes_indexIfAny

/-- A client is written if the output directory lies inside the working directory and the file that
replaces the request function is found. -/
theorem execute_writeClient (s : State) :
    execute (writeClient c options) m s =
      if m.workingDirectory.isBelow (Path.parse options.output) then
        execute (findOverride options >>= fun override =>
          writeParts options c override (outputDirectory m options)) m s
      else (.error (.unsafeOutput options.output), s) := by
  rw [writeClient, execute_read_bind]
  dsimp only
  by_cases hbelow : m.workingDirectory.isBelow (Path.parse options.output) = true
  · rw [if_pos hbelow, if_neg (by simp [hbelow])]
    rfl
  · rw [if_neg hbelow, if_pos (by simpa using hbelow), execute_bind, execute_throw]

theorem execute_generate_of_error {tree : Json} {e : Error}
    (h : Client.ofTree tree options.responseSchemaAsModel = .error e) (s : State) :
    execute (generate tree options) m s = (.error e, s) := by
  rw [generate, h]
  rfl

theorem execute_generate_of_ok {tree : Json}
    (h : Client.ofTree tree options.responseSchemaAsModel = .ok c) (s : State) :
    execute (generate tree options) m s =
      if options.write then
        match execute (writeClient c options) m s with
        | (.ok _, t) => (.ok c, t)
        | (.error e, t) => (.error e, t)
      else (.ok c, s) := by
  rw [generate, h]
  dsimp only
  split
  · rw [execute_bind]
    rcases execute (writeClient c options) m s with ⟨_ | _, t⟩ <;> rfl
  · rfl

/-- A run that is to write ends where writing ends. -/
theorem state_generate {tree : Json} (hwrite : options.write = true)
    (hc : Client.ofTree tree options.responseSchemaAsModel = .ok c) (s : State) :
    (execute (generate tree options) m s).2 = (execute (writeClient c options) m s).2 := by
  rw [execute_generate_of_ok hc, if_pos hwrite]
  rcases execute (writeClient c options) m s with ⟨_ | _, t⟩ <;> rfl

/-- It fails as writing fails. -/
theorem generate_eq_error_iff {tree : Json} (hwrite : options.write = true)
    (hc : Client.ofTree tree options.responseSchemaAsModel = .ok c) {s : State} {e : Error} :
    (execute (generate tree options) m s).1 = .error e ↔
      (execute (writeClient c options) m s).1 = .error e := by
  rw [execute_generate_of_ok hc, if_pos hwrite]
  rcases execute (writeClient c options) m s with ⟨_ | _, t⟩ <;> simp

/-- A run that is to write succeeds if the document does, the checks are passed, and everything can
be written. -/
theorem execute_generate_eq_ok_iff {tree : Json} (hwrite : options.write = true) {s t : State} :
    execute (generate tree options) m s = (.ok c, t) ↔
      Client.ofTree tree options.responseSchemaAsModel = .ok c ∧
        m.workingDirectory.isBelow (Path.parse options.output) = true ∧
        ∃ override mid, execute (findOverride options) m s = (.ok override, mid) ∧
          execute (writeParts options c override (outputDirectory m options)) m mid =
            (.ok (), t) := by
  cases hc : Client.ofTree tree options.responseSchemaAsModel with
  | error e => simp [execute_generate_of_error hc]
  | ok c' =>
      rw [execute_generate_of_ok hc, if_pos hwrite, execute_writeClient]
      by_cases hbelow : m.workingDirectory.isBelow (Path.parse options.output) = true
      · rw [if_pos hbelow, ← execute_bind_eq_ok_iff]
        constructor
        · intro h
          rcases hrun : execute (findOverride options >>= fun override =>
              writeParts options c' override (outputDirectory m options)) m s with ⟨_ | _, u⟩ <;>
            rw [hrun] at h <;> cases h
          exact ⟨rfl, hbelow, hrun⟩
        · rintro ⟨⟨⟩, _, hrun⟩
          rw [hrun]
      · simp [hbelow]

/-- Once the checks are passed, a run makes the calls of writing. -/
theorem makes_generate {tree : Json} (hwrite : options.write = true)
    (hc : Client.ofTree tree options.responseSchemaAsModel = .ok c)
    (hbelow : m.workingDirectory.isBelow (Path.parse options.output) = true) {s mid : State}
    (hfind : execute (findOverride options) m s = (.ok override, mid)) {call : Call}
    (hparts : Makes m (writeParts options c override (outputDirectory m options)) mid call) :
    Makes m (generate tree options) s call := by
  rw [Makes, state_generate hwrite hc, execute_writeClient, if_pos hbelow]
  exact Makes.bind_right within_findOverride hfind hparts

/-! ## A machine -/

/-- A machine with the templates of the library, in the directory `/work`, whose disk does what it
is told. -/
def workshop : Machine where
  workingDirectory := [.root, .name "work"]
  render := Artifact.render
  format := Script.layout
  program? := fun _ => none
  schedule_perm := List.Perm.refl

/-- A document that declares nothing but its version. -/
def bareDocument : Json := .object [("openapi", .string "3.0.0")]

theorem exists_of_isOk {x : Except Error Client × State} (h : x.1.isOk = true) :
    ∃ c t, x = (.ok c, t) := by
  obtain ⟨_ | c, t⟩ := x
  · cases h
  · exact ⟨c, t, rfl⟩

end TypedClient.Emission
