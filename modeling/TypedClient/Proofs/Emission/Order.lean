import TypedClient.Proofs.Emission.Cleanup
import TypedClient.Proofs.Emission.Writing

/-!
# The order of a run

A client is written in stages, one for each enabled category, and the index comes last. A stage
removes its directory, makes it again and only then touches files in it (`Block`). A stage in which
something fails is the last one, and then there is no index; only inputs of the validator compiler
may stay behind. `writeClient_inOrder` says so for a run as a whole, whatever fails in it.
-/

namespace TypedClient.Emission

open Files

variable {α β : Type} {m : Machine} {options : Options} {c : Client} {override : Option Path}
  {output dir : Path} {files ephemeral : List String}

/-! ## Acts in a directory -/

/-- An act on one of some files directly in a directory, or a program that is run there. -/
inductive Act.Into (dir : Path) (files : List String) : Act → Prop where
  | write {file : String} (contents : Contents) (failure : Option Error) : file ∈ files →
      Into dir files (.call (.write (dir.entry file) contents) failure)
  | copy {file : String} (source : Path) (failure : Option Error) : file ∈ files →
      Into dir files (.call (.copy source (dir.entry file)) failure)
  | remove {file : String} (failure : Option Error) : file ∈ files →
      Into dir files (.call (.remove (dir.entry file)) failure)
  | run (program : String) (outcome : Except Error Nat) :
      Into dir files (.run program dir outcome)

/-- An act that may fail without consequences: the removal of a file that is not to stay. -/
def Act.Cleans (dir : Path) (ephemeral : List String) (act : Act) : Prop :=
  ∃ file ∈ ephemeral, act.event = .call (.remove (dir.entry file))

/-- Acts stay in a directory, and if the run that they are part of succeeds, none of them has failed
except in cleaning up. -/
structure Orderly (dir : Path) (files ephemeral : List String) (acts : List Act)
    (result : Except Error α) : Prop where
  into : ∀ act ∈ acts, act.Into dir files
  settled : ∀ a, result = .ok a → ∀ act ∈ acts, act.failure ≠ none → act.Cleans dir ephemeral

/-- A run whose acts are orderly from wherever it starts. -/
def Keeps (m : Machine) (dir : Path) (files ephemeral : List String) (x : Run α) : Prop :=
  Goes m x fun acts result => Orderly dir files ephemeral acts result

namespace Orderly

theorem nil (result : Except Error α) : Orderly dir files ephemeral [] result :=
  ⟨by simp, by simp⟩

theorem single {call : Call} {failure : Option Error}
    (h : (Act.call call failure).Into dir files) :
    Orderly dir files ephemeral [.call call failure] (outcomeOf failure) where
  into act hact := by
    obtain rfl := List.mem_singleton.1 hact
    exact h
  settled u hu act hact hfailure := by
    obtain rfl := List.mem_singleton.1 hact
    exact absurd (outcomeOf_eq_ok_iff.1 hu) hfailure

theorem error {acts : List Act} {e : Error} (h : ∀ act ∈ acts, act.Into dir files) :
    Orderly dir files ephemeral acts (.error e : Except Error α) :=
  ⟨h, by simp⟩

theorem append {first more : List Act} {a : α} {result : Except Error β}
    (hfirst : Orderly dir files ephemeral first (.ok a))
    (hmore : Orderly dir files ephemeral more result) :
    Orderly dir files ephemeral (first ++ more) result :=
  ⟨List.forall_mem_append.2 ⟨hfirst.into, hmore.into⟩,
    fun b hb => List.forall_mem_append.2 ⟨hfirst.settled a rfl, hmore.settled b hb⟩⟩

end Orderly

namespace Keeps

variable {x : Run α} {f : α → Run β}

theorem pure {a : α} : Keeps m dir files ephemeral (pure a : Run α) := Goes.pure (Orderly.nil _)

theorem throw {e : Error} : Keeps m dir files ephemeral (throw e : Run α) :=
  Goes.throw (Orderly.nil _)

theorem perform {call : Call} (h : ∀ failure, (Act.call call failure).Into dir files) :
    Keeps m dir files ephemeral (perform call) :=
  Goes.perform fun failure => Orderly.single (h failure)

theorem bind (hx : Keeps m dir files ephemeral x) (hf : ∀ a, Keeps m dir files ephemeral (f a)) :
    Keeps m dir files ephemeral (x >>= f) := by
  refine Goes.bind hx (fun acts e h => .error h.into) fun first a hfirst => ?_
  exact Goes.imp (hf a) fun more result hmore => hfirst.append hmore

theorem attempt {x : Run Unit} (h : Keeps m dir files ephemeral x) :
    Goes m (attempt x) fun acts result => ∃ failure, result = .ok failure ∧
      Orderly dir files ephemeral acts (outcomeOf failure) :=
  Goes.attempt h fun _ failure hacts => ⟨failure, rfl, hacts⟩

end Keeps

/-! ## Filling a directory -/

theorem keeps_writeJob {job : Job} (h : job.file ∈ files) :
    Keeps m dir files ephemeral (writeJob dir job) := by
  unfold writeJob
  split
  · exact .perform fun failure => .write _ failure h
  · exact .throw

/-- Writing each file stays in the directory, but failures do not show in the outcome. -/
theorem into_writeEach {all : List Job} (h : ∀ job ∈ all, job.file ∈ files) :
    Goes m (writeEach dir all) fun acts _ => ∀ act ∈ acts, act.Into dir files := by
  induction all with
  | nil => exact .pure (by simp)
  | cons job rest ih =>
      have hfirst : Keeps m dir files [] (writeJob dir job) := keeps_writeJob (h job (by simp))
      rw [writeEach, List.mapM_cons, bind_assoc]
      refine hfirst.attempt.bind ?_ ?_
      · rintro _ _ ⟨_, h, _⟩
        cases h
      rintro first failure ⟨_, _, hacts⟩
      rw [pure_bind]
      refine (ih fun other hother => h other (List.mem_cons_of_mem _ hother)).bind ?_ ?_
      · exact fun acts e hmore => List.forall_mem_append.2 ⟨hacts.into, hmore⟩
      · refine fun more _ hmore => .pure ?_
        rw [List.append_nil]
        exact List.forall_mem_append.2 ⟨hacts.into, hmore⟩

/-- After a failure the run fails, whatever is still under way. -/
theorem keeps_writeInTurn {all : List Job} (h : ∀ job ∈ all, job.file ∈ files) :
    Keeps m dir files ephemeral (writeInTurn dir all) := by
  induction all with
  | nil => exact .pure
  | cons job rest ih =>
      have hrest : ∀ other ∈ rest, other.file ∈ files :=
        fun other hother => h other (List.mem_cons_of_mem _ hother)
      have hfirst : Keeps m dir files ephemeral (writeJob dir job) :=
        keeps_writeJob (h job (by simp))
      refine hfirst.attempt.bind ?_ ?_
      · rintro _ _ ⟨_, h, _⟩
        cases h
      rintro first failure ⟨failure', heq, hacts⟩
      obtain rfl := Except.ok.inj heq
      cases failure with
      | none => exact Goes.imp (ih hrest) fun more result hmore => hacts.append hmore
      | some e =>
          have hunder : Goes m (writeEach dir (m.underWay rest)) fun more _ =>
              ∀ act ∈ more, act.Into dir files :=
            into_writeEach fun other hother => hrest other (mem_of_mem_underWay hother)
          refine .read_bind (hunder.bind ?_ ?_)
          · exact fun more e hmore => .error (List.forall_mem_append.2 ⟨hacts.into, hmore⟩)
          · refine fun more _ hmore => .throw (.error ?_)
            rw [List.append_nil]
            exact List.forall_mem_append.2 ⟨hacts.into, hmore⟩

theorem keeps_writeJobs {all : List Job} (h : ∀ job ∈ all, job.file ∈ files) :
    Keeps m dir files ephemeral (writeJobs dir all) :=
  .read_bind <| keeps_writeInTurn fun job hjob => h job (mem_schedule.1 hjob)

theorem exists_of_forall₂ {R : α → β → Prop} {as : List α} {bs : List β}
    (h : List.Forall₂ R as bs) {b : β} (hb : b ∈ bs) : ∃ a ∈ as, R a b := by
  induction h with
  | nil => cases hb
  | cons hab _ ih =>
      rcases List.mem_cons.1 hb with rfl | hb
      · exact ⟨_, List.mem_cons_self, hab⟩
      · obtain ⟨a, ha, hR⟩ := ih hb
        exact ⟨a, List.mem_cons_of_mem _ ha, hR⟩

/-- An act that cleans up is on a file that is not to stay. -/
theorem Act.Cleans.into {act : Act} (h : act.Cleans dir files) : act.Into dir files := by
  obtain ⟨file, hfile, hevent⟩ := h
  cases act with
  | look path => cases hevent
  | call call failure =>
      cases hevent
      exact .remove failure hfile
  | run program directory outcome => cases hevent

/-- Every outcome is that of an input. -/
theorem Cleared.file_mem {runtime : String} {inputs : List Job}
    {outcomes : List (Job × Option Error)} {writes runs removals : List Act}
    {result : Except Error Unit}
    (h : Cleared m runtime dir inputs outcomes writes runs removals result)
    {outcome : Job × Option Error} (houtcome : outcome ∈ outcomes) :
    outcome.1.file ∈ inputs.map (·.file) := by
  rw [← h.listed, List.map_map]
  exact List.mem_map_of_mem houtcome

/-- Every write has an outcome. -/
theorem Cleared.exists_outcome {runtime : String} {inputs : List Job}
    {outcomes : List (Job × Option Error)} {writes runs removals : List Act}
    {result : Except Error Unit}
    (h : Cleared m runtime dir inputs outcomes writes runs removals result) {act : Act}
    (hact : act ∈ writes) : ∃ outcome ∈ outcomes, act.Writes dir outcome := by
  obtain ⟨scheduled, hperm, _, hall⟩ := h.writes
  obtain ⟨outcome, houtcome, hact⟩ := exists_of_forall₂ hall hact
  exact ⟨outcome, hperm.mem_iff.1 houtcome, hact⟩

/-- Every removal is that of an input. -/
theorem Cleared.cleans {runtime : String} {inputs : List Job}
    {outcomes : List (Job × Option Error)} {writes runs removals : List Act}
    {result : Except Error Unit}
    (h : Cleared m runtime dir inputs outcomes writes runs removals result) {act : Act}
    (hact : act ∈ removals) : act.Cleans dir (inputs.map (·.file)) := by
  have hevent := List.mem_map_of_mem (f := Act.event) hact
  rw [h.removals] at hevent
  obtain ⟨outcome, houtcome, heq⟩ := List.mem_map.1 hevent
  exact ⟨_, h.file_mem (List.mem_of_mem_filter houtcome), heq.symm⟩

/-- Every act of compiling the validators is on one of their inputs, and if it succeeds nothing has
failed but the removal of inputs. -/
theorem Cleared.orderly {runtime : String} {inputs : List Job}
    {outcomes : List (Job × Option Error)} {writes runs removals : List Act}
    {result : Except Error Unit}
    (h : Cleared m runtime dir inputs outcomes writes runs removals result) :
    Orderly dir (inputs.map (·.file)) (inputs.map (·.file)) (writes ++ runs ++ removals)
      result := by
  have hintoWrites : ∀ act ∈ writes, act.Into dir (inputs.map (·.file)) := by
    intro act hact
    obtain ⟨outcome, houtcome, text, _, rfl⟩ := h.exists_outcome hact
    exact .write _ _ (h.file_mem houtcome)
  have hintoRemovals : ∀ act ∈ removals, act.Into dir (inputs.map (·.file)) :=
    fun act hact => (h.cleans hact).into
  cases hfailed : outcomes.findSome? (·.2) with
  | some e =>
      obtain ⟨rfl, rfl⟩ := h.failed e hfailed
      rw [List.append_nil]
      exact .error (List.forall_mem_append.2 ⟨hintoWrites, hintoRemovals⟩)
  | none =>
      rw [List.findSome?_eq_none_iff] at hfailed
      obtain ⟨exit, rfl, hresult⟩ := h.compiled hfailed
      constructor
      case into =>
        simp only [List.forall_mem_append, List.forall_mem_singleton]
        exact ⟨⟨hintoWrites, .run runtime exit⟩, hintoRemovals⟩
      case settled =>
        intro u hu
        simp only [List.forall_mem_append, List.forall_mem_singleton]
        refine ⟨⟨fun act hact hfailure => ?_, fun hfailure => ?_⟩, fun act hact _ => h.cleans hact⟩
        · obtain ⟨outcome, houtcome, text, _, rfl⟩ := h.exists_outcome hact
          exact absurd (hfailed outcome houtcome) hfailure
        · rw [hresult.1 hu] at hfailure
          exact absurd rfl hfailure

/-- The files of a category. -/
def filesOf (m : Machine) (options : Options) (c : Client) (category : Category) : List String :=
  (jobs m options c category).map (·.file)

/-- The files of a category that are not to stay: the inputs of the validator compiler. -/
def ephemeralFiles (m : Machine) (options : Options) (c : Client) : Category → List String
  | .validators => filesOf m options c .validators
  | _ => []

theorem keeps_writeValidators :
    Keeps m dir (filesOf m options c .validators) (ephemeralFiles m options c .validators)
      (writeValidators options c dir) := by
  refine Goes.imp goes_writeValidators fun acts result h => ?_
  unfold Compiles at h
  split at h
  · rw [h.1]
    exact .nil _
  · rw [h.1]
    exact .nil _
  · obtain ⟨outcomes, writes, runs, removals, rfl, hcleared⟩ := h
    exact hcleared.orderly

theorem keeps_fill (category : Category) :
    Keeps m dir (filesOf m options c category) (ephemeralFiles m options c category)
      (fill options c override dir category) := by
  have hfiles : Keeps m dir (filesOf m options c category) (ephemeralFiles m options c category)
      (writeJobs dir (jobs m options c category)) :=
    keeps_writeJobs fun job hjob => List.mem_map_of_mem hjob
  cases category with
  | core =>
      refine .read_bind (hfiles.bind fun _ => ?_)
      cases override with
      | some source =>
          have hrequest : requestFile ∈ filesOf m options c .core := by
            simp [filesOf, jobs, coreJobs, coreFiles]
          exact .perform fun failure => .copy source failure hrequest
      | none => exact .pure
  | validators => exact keeps_writeValidators
  | services | schemas | models => exact .read_bind hfiles

/-! ## Stages -/

/-- The acts of writing a category: its directory is removed and made again, and only then are
files in it touched. -/
inductive Block (dir : Path) (files : List String) : List Act → Prop where
  | notRemoved (e : Error) : Block dir files [.call (.removeDirectory dir) (some e)]
  | notMade (e : Error) : Block dir files
      [.call (.removeDirectory dir) none, .call (.makeDirectory dir) (some e)]
  | filled (acts : List Act) : (∀ act ∈ acts, act.Into dir files) → Block dir files
      (.call (.removeDirectory dir) none :: .call (.makeDirectory dir) none :: acts)

/-- The writing of a category: what is done, and how it ends. -/
structure Stage where
  category : Category
  acts : List Act
  result : Except Error Unit

/-- The acts of a stage make a block in the directory of its category. -/
def Stage.IsBlock (m : Machine) (options : Options) (c : Client) (output : Path)
    (stage : Stage) : Prop :=
  Block (output.entry stage.category.directory) (filesOf m options c stage.category) stage.acts

/-- Something fails in a stage other than the removal of a file that is not to stay. -/
def Stage.Fails (m : Machine) (options : Options) (c : Client) (output : Path)
    (stage : Stage) : Prop :=
  ∃ act ∈ stage.acts, act.failure ≠ none ∧
    ¬ act.Cleans (output.entry stage.category.directory) (ephemeralFiles m options c stage.category)

/-- Categories that are written one after the other. -/
inductive Stages (m : Machine) (options : Options) (c : Client) (override : Option Path)
    (output : Path) : State → List Stage → State → Prop where
  | nil (s : State) : Stages m options c override output s [] s
  | cons {s mid t : State} {stage : Stage} {rest : List Stage} :
      execute (writeCategory options c override output stage.category) m s = (stage.result, mid) →
      Trace m s stage.acts mid → Stages m options c override output mid rest t →
      Stages m options c override output s (stage :: rest) t

theorem goes_acquire (files : List String) : Goes m (acquire dir) fun acts result =>
    (∃ e, result = .error e ∧ Block dir files acts) ∨
      acts = [.call (.removeDirectory dir) none, .call (.makeDirectory dir) none] := by
  have hremove : Goes m (perform (.removeDirectory dir)) fun acts result =>
      ∃ failure, result = outcomeOf failure ∧ acts = [.call (.removeDirectory dir) failure] :=
    .perform fun failure => ⟨failure, rfl, rfl⟩
  refine hremove.bind ?_ ?_
  · rintro acts e ⟨failure, heq, rfl⟩
    cases failure with
    | none => cases heq
    | some e' => exact .inl ⟨e, rfl, .notRemoved e'⟩
  · rintro first u ⟨failure, heq, rfl⟩
    obtain rfl := outcomeOf_eq_ok_iff.1 heq.symm
    refine .perform fun failure => ?_
    cases failure with
    | none => exact .inr rfl
    | some e => exact .inl ⟨e, rfl, .notMade e⟩

/-- The acts of a category make a block, in which nothing of consequence fails if it is written
successfully. -/
theorem goes_writeCategory (category : Category) :
    Goes m (writeCategory options c override output category) fun acts result =>
      Stage.IsBlock m options c output ⟨category, acts, result⟩ ∧
        (result = .ok () → ¬ Stage.Fails m options c output ⟨category, acts, result⟩) := by
  refine (goes_acquire (filesOf m options c category)).bind ?_ ?_
  · rintro acts e (⟨_, _, hblock⟩ | rfl)
    · exact ⟨hblock, by simp⟩
    · exact ⟨.filled [] (by simp), by simp⟩
  · rintro first u (⟨_, h, _⟩ | rfl)
    · cases h
    refine Goes.imp (keeps_fill category) fun acts result hacts => ?_
    refine ⟨.filled acts hacts.into, ?_⟩
    rintro hresult ⟨act, hact, hfailure, hcleans⟩
    rcases List.mem_append.1 hact with hact | hact
    · simp only [List.mem_cons, List.not_mem_nil, or_false] at hact
      rcases hact with rfl | rfl <;> exact hfailure rfl
    · exact hcleans (hacts.settled () hresult act hact hfailure)

/-- What is known of the stages in which some categories are written. -/
structure Staged (m : Machine) (options : Options) (c : Client) (output : Path)
    (categories : List Category) (stages : List Stage) (result : Except Error Unit) : Prop where
  inOrder : stages.map (·.category) <+: categories
  blocks : ∀ stage ∈ stages, stage.IsBlock m options c output
  stops : ∀ before stage after, stages = before ++ stage :: after →
    stage.Fails m options c output → after = [] ∧ result ≠ .ok ()
  finished : result = .ok () ↔
    stages.map (·.category) = categories ∧ ∀ stage ∈ stages, stage.result = .ok ()

theorem Staged.nil : Staged m options c output [] [] (.ok ()) :=
  ⟨by simp, by simp, by simp, by simp⟩

/-- A stage that fails is the only one. -/
theorem Staged.failed {category : Category} {rest : List Category} {acts : List Act} {e : Error}
    (h : Stage.IsBlock m options c output ⟨category, acts, .error e⟩) :
    Staged m options c output (category :: rest) [⟨category, acts, .error e⟩] (.error e) where
  inOrder := by simp
  blocks := by simpa using h
  stops before stage after heq hfails := by
    refine ⟨?_, by simp⟩
    cases before with
    | nil => exact (List.cons.inj heq).2.symm
    | cons _ before => simp at heq
  finished := by simp

/-- A stage that succeeds is followed by the others. -/
theorem Staged.cons {stage : Stage} {rest : List Category} {stages : List Stage}
    {result : Except Error Unit} (hblock : stage.IsBlock m options c output)
    (hresult : stage.result = .ok ()) (hfails : ¬ stage.Fails m options c output)
    (hrest : Staged m options c output rest stages result) :
    Staged m options c output (stage.category :: rest) (stage :: stages) result where
  inOrder := by simpa using hrest.inOrder
  blocks := by simpa using ⟨hblock, hrest.blocks⟩
  stops before other after heq hother := by
    rcases before with _ | ⟨_, before⟩
    · obtain ⟨rfl, -⟩ := List.cons.inj heq
      exact absurd hother hfails
    · exact hrest.stops before other after (List.cons.inj heq).2 hother
  finished := by simp [hrest.finished, hresult]

theorem exists_stages (categories : List Category) (s : State) :
    ∃ stages, Stages m options c override output s stages
        (execute (categories.forM (writeCategory options c override output)) m s).2 ∧
      Staged m options c output categories stages
        (execute (categories.forM (writeCategory options c override output)) m s).1 := by
  induction categories generalizing s with
  | nil => exact ⟨[], .nil s, .nil⟩
  | cons category rest ih =>
      have hseq : execute ((category :: rest).forM (writeCategory options c override output)) m s =
          execute (writeCategory options c override output category >>= fun _ =>
            rest.forM (writeCategory options c override output)) m s := rfl
      obtain ⟨acts, htrace, hblock, hfails⟩ :=
        goes_writeCategory (m := m) (c := c) category s
      rw [hseq, execute_bind]
      rcases hrun : execute (writeCategory options c override output category) m s with ⟨e | u, mid⟩
      · rw [hrun] at htrace hblock
        exact ⟨[⟨category, acts, .error e⟩], .cons hrun htrace (.nil mid), .failed hblock⟩
      · rw [hrun] at htrace hblock hfails
        obtain ⟨stages, hstages, hstaged⟩ := ih mid
        exact ⟨⟨category, acts, .ok ()⟩ :: stages, .cons hrun htrace hstages,
          .cons hblock rfl (hfails rfl) hstaged⟩

/-! ## The whole -/

/-- What follows the stages: the output directory is made, and if it could be, the index is
written, unless it cannot be rendered. -/
inductive Ending (output : Path) : List Act → Prop where
  | none : Ending output []
  | notMade (e : Error) : Ending output [.call (.makeDirectory output) (some e)]
  | notRendered : Ending output [.call (.makeDirectory output) none]
  | written (contents : Contents) (failure : Option Error) : Ending output
      [.call (.makeDirectory output) none,
        .call (.write (output.entry indexFile) contents) failure]

theorem goes_writeIndex : Goes m (writeIndex options c output) fun acts _ =>
    Ending output acts ∧ ∃ failure, Act.call (.makeDirectory output) failure ∈ acts := by
  have hmake : Goes m (perform (.makeDirectory output)) fun acts result =>
      ∃ failure, result = outcomeOf failure ∧ acts = [.call (.makeDirectory output) failure] :=
    .perform fun failure => ⟨failure, rfl, rfl⟩
  refine hmake.bind ?_ ?_
  · rintro acts e ⟨failure, heq, rfl⟩
    cases failure with
    | none => cases heq
    | some e' => exact ⟨.notMade e', _, List.mem_singleton_self _⟩
  rintro first u ⟨failure, heq, rfl⟩
  obtain rfl := outcomeOf_eq_ok_iff.1 heq.symm
  have htext : Goes m (render .index (Page.indexContext options c)) fun acts _ => acts = [] :=
    .render rfl
  refine .read_bind (htext.bind ?_ ?_)
  · rintro acts e rfl
    exact ⟨.notRendered, _, List.mem_singleton_self _⟩
  · rintro acts text rfl
    exact .perform fun failure => ⟨.written _ failure, none, by simp⟩

/-- A stage does not make the output directory. -/
theorem Stage.IsBlock.not_mem_makeOutput {stage : Stage} {failure : Option Error}
    (h : stage.IsBlock m options c output) :
    Act.call (.makeDirectory output) failure ∉ stage.acts := by
  have hne : output ≠ output.entry stage.category.directory := by simp [Path.entry]
  intro hmem
  unfold Stage.IsBlock at h
  generalize stage.acts = acts at h hmem
  cases h with
  | notRemoved e => simp at hmem
  | notMade e => simp [hne] at hmem
  | filled acts hinto =>
      simp only [List.mem_cons, Act.call.injEq, Call.makeDirectory.injEq, hne, false_and, reduceCtorEq,
        false_or] at hmem
      cases hinto _ hmem

/-- A client is written in order: in stages for the enabled categories from the first on, of which
only the last one fails, and after them the index if they have all succeeded. -/
structure InOrder (m : Machine) (options : Options) (c : Client) (override : Option Path)
    (output : Path) (s : State) (stages : List Stage) (last : List Act) (t : State) : Prop where
  trace : ∃ mid, Stages m options c override output s stages mid ∧ Trace m mid last t
  categories : stages.map (·.category) <+: Category.all.filter (·.isEnabled options)
  blocks : ∀ stage ∈ stages, stage.IsBlock m options c output
  plain : c.FileNames → ∀ category, ∀ file ∈ filesOf m options c category, Path.IsPlain file
  stops : ∀ before stage after, stages = before ++ stage :: after →
    stage.Fails m options c output → after = [] ∧ last = []
  index : (∃ failure, Act.call (.makeDirectory output) failure ∈ stages.flatMap (·.acts) ++ last) ↔
    stages ≠ [] ∧ stages.map (·.category) = Category.all.filter (·.isEnabled options) ∧
      ∀ stage ∈ stages, stage.result = .ok ()
  ending : Ending output last

/-- Stages that are followed by the index as they have to be are in order. -/
theorem Staged.inOrder_of_index {s mid t : State} {stages : List Stage} {last : List Act}
    {result : Except Error Unit}
    (hstaged : Staged m options c output (Category.all.filter (·.isEnabled options)) stages result)
    (hstages : Stages m options c override output s stages mid) (hlast : Trace m mid last t)
    (hending : Ending output last)
    (hindex : (∃ failure, Act.call (.makeDirectory output) failure ∈ last) ↔
      result = .ok () ∧ options.anyCategory = true)
    (hnone : result ≠ .ok () → last = []) :
    InOrder m options c override output s stages last t where
  trace := ⟨mid, hstages, hlast⟩
  categories := hstaged.inOrder
  blocks := hstaged.blocks
  plain hc category file hfile := by
    obtain ⟨job, hjob, rfl⟩ := List.mem_map.1 hfile
    exact (proper_of_mem_jobs hc category job hjob).plain
  stops before stage after heq hfails := by
    obtain ⟨hafter, hresult⟩ := hstaged.stops before stage after heq hfails
    exact ⟨hafter, hnone hresult⟩
  index := by
    have hblocks : ∀ failure, Act.call (.makeDirectory output) failure ∉
        stages.flatMap (·.acts) := by
      intro failure hmem
      obtain ⟨stage, hstage, hact⟩ := List.mem_flatMap.1 hmem
      exact (hstaged.blocks stage hstage).not_mem_makeOutput hact
    simp only [List.mem_append, hblocks, false_or, hindex, hstaged.finished]
    constructor
    · rintro ⟨⟨hall, hok⟩, hany⟩
      refine ⟨?_, hall, hok⟩
      rintro rfl
      exact enabled_ne_nil_iff.2 hany hall.symm
    · rintro ⟨hne, hall, hok⟩
      refine ⟨⟨hall, hok⟩, enabled_ne_nil_iff.1 ?_⟩
      rw [← hall]
      exact List.map_eq_nil_iff.not.2 hne
  ending := hending

theorem goes_findOverride :
    Goes m (findOverride options) fun acts _ => ∀ act ∈ acts, ∃ path, act = .look path := by
  unfold findOverride
  split
  · exact .pure (by simp)
  · split
    · refine .read_bind (Goes.bind (Goes.exists? fun found => ⟨_, rfl⟩ :
        Goes m (exists? _) fun acts _ => ∃ path, acts = [.look path]) ?_ ?_)
      · rintro _ _ ⟨path, rfl⟩
        simp
      · rintro _ found ⟨path, rfl⟩
        split
        · exact .pure (by simp)
        · exact .throw (by simp)
    · exact .pure (by simp)

theorem exists_inOrder_writeParts (output : Path) (s : State) :
    ∃ stages last, InOrder m options c override output s stages last
      (execute (writeParts options c override output) m s).2 := by
  obtain ⟨stages, hstages, hstaged⟩ :=
    @exists_stages m options c override output (Category.all.filter (·.isEnabled options)) s
  rw [writeParts, execute_bind]
  generalize execute ((Category.all.filter (·.isEnabled options)).forM
    (writeCategory options c override output)) m s = outcome at hstages hstaged ⊢
  obtain ⟨e | u, mid⟩ := outcome
  · exact ⟨stages, [], hstaged.inOrder_of_index hstages (.nil mid) .none (by simp) fun _ => rfl⟩
  · cases hany : options.anyCategory with
    | false =>
        exact ⟨stages, [], hstaged.inOrder_of_index hstages (.nil mid) .none (by simp [hany])
          fun _ => rfl⟩
    | true =>
        obtain ⟨last, hlast, hending, hmake⟩ := @goes_writeIndex m options c output mid
        exact ⟨stages, last, hstaged.inOrder_of_index hstages hlast hending (by simp [hany, hmake])
          (by simp)⟩

/-- Whatever fails on the disk or in the validator compiler, a client that passes the checks is
written in order. -/
theorem writeClient_inOrder {s ready t : State} {result : Except Error Unit}
    (hbelow : m.workingDirectory.isBelow (Path.parse options.output) = true)
    (hfind : execute (findOverride options) m s = (.ok override, ready))
    (hrun : execute (writeClient c options) m s = (result, t)) :
    ∃ looks stages last, Trace m s looks ready ∧ (∀ act ∈ looks, ∃ path, act = .look path) ∧
      InOrder m options c override (outputDirectory m options) ready stages last t := by
  obtain ⟨looks, hlooks, hall⟩ := @goes_findOverride m options s
  rw [hfind] at hlooks
  obtain ⟨stages, last, horder⟩ := @exists_inOrder_writeParts m options c override
    (outputDirectory m options) ready
  rw [execute_writeClient, if_pos hbelow, execute_bind, hfind] at hrun
  dsimp only at hrun
  rw [hrun] at horder
  exact ⟨looks, stages, last, hlooks, hall, horder⟩

/-- A machine whose disk refuses the third call, which is the first file of the core. -/
def refusing : Machine :=
  { workshop with fault? := fun n _ => if n = 2 then some (.disk .write "" .permissionDenied) else none }

theorem writeClient_inOrder_refusing :
    ∃ result t looks stages last,
      execute (writeClient ⟨"1", "", [], []⟩ { output := "out" }) refusing { tree := {} } =
        (result, t) ∧
      Trace refusing { tree := {} } looks { tree := {} } ∧
      (∀ act ∈ looks, ∃ path, act = .look path) ∧
      InOrder refusing { output := "out" } ⟨"1", "", [], []⟩ none
        [.root, .name "work", .name "out"] { tree := {} } stages last t := by
  obtain ⟨looks, stages, last, hlooks, hall, horder⟩ :=
    @writeClient_inOrder refusing { output := "out" } ⟨"1", "", [], []⟩ none { tree := {} }
      { tree := {} } _ _ (by decide +kernel) rfl rfl
  exact ⟨_, _, looks, stages, last, rfl, hlooks, hall, horder⟩

end TypedClient.Emission
