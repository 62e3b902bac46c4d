import TypedClient.Proofs.Emission.Jobs
import TypedClient.Proofs.Emission.Trace

/-!
# The inputs of the validator compiler

The validator compiler reads files that are written for it alone. `writeValidators_clears` says that
they never outlive the compilation: whatever could be written is removed at the end, however the
writing, the compiler and the earlier removals went. The compiler is started only if everything
could be written, and nothing is written unless it is there and everything can be rendered.
-/

namespace TypedClient.Emission

open Files

variable {m : Machine} {options : Options} {c : Client} {dir : Path}

/-! ## Writing -/

/-- An act that writes a file into a directory, with a known outcome. -/
def Act.Writes (dir : Path) (outcome : Job × Option Error) (act : Act) : Prop :=
  ∃ text, outcome.1.text = .ok text ∧
    act = .call (.write (dir.entry outcome.1.file) (.text text)) outcome.2

theorem goes_writeJob {job : Job} (htext : job.failure? = none) :
    Goes m (writeJob dir job) fun acts result =>
      ∃ failure act, result = outcomeOf failure ∧ acts = [act] ∧ act.Writes dir (job, failure) := by
  obtain ⟨text, htext⟩ := Job.failure?_eq_none_iff.1 htext
  simp only [writeJob, htext]
  exact .perform fun failure => ⟨failure, _, rfl, rfl, text, htext, rfl⟩

theorem goes_attempt_writeJob {job : Job} (htext : job.failure? = none) :
    Goes m (attempt (writeJob dir job)) fun acts result =>
      ∃ failure act, result = .ok failure ∧ acts = [act] ∧ act.Writes dir (job, failure) := by
  refine (goes_writeJob htext).attempt ?_
  rintro acts failure ⟨failure', act, heq, hacts, hact⟩
  obtain rfl : failure = failure' := by cases failure <;> cases failure' <;> simp_all [outcomeOf]
  exact ⟨failure, act, rfl, hacts, hact⟩

/-- Each file is written, whatever becomes of the others. -/
theorem goes_writeEach {all : List Job} (htexts : ∀ job ∈ all, job.failure? = none) :
    Goes m (writeEach dir all) fun acts result =>
      ∃ outcomes, result = .ok outcomes ∧ outcomes.map (·.1) = all ∧
        List.Forall₂ (Act.Writes dir) outcomes acts := by
  induction all with
  | nil => exact .pure ⟨[], rfl, rfl, .nil⟩
  | cons job rest ih =>
      rw [writeEach, List.mapM_cons, bind_assoc]
      refine (goes_attempt_writeJob (htexts job List.mem_cons_self)).bind ?_ ?_
      · rintro _ _ ⟨_, _, h, _⟩
        cases h
      rintro _ failure ⟨failure', act, h, rfl, hact⟩
      obtain rfl := Except.ok.inj h
      rw [pure_bind]
      refine (ih fun other hother => htexts other (List.mem_cons_of_mem _ hother)).bind ?_ ?_
      · rintro _ _ ⟨_, h, _⟩
        cases h
      rintro acts outcomes ⟨outcomes', h, hall, hacts⟩
      obtain rfl := Except.ok.inj h
      refine .pure ⟨(job, failure) :: outcomes, rfl, by rw [List.map_cons, hall], ?_⟩
      rw [List.append_nil]
      exact .cons hact hacts

/-- The files are written as they are scheduled, and the outcomes are put in order. -/
theorem goes_writeAll {all : List Job} (htexts : ∀ job ∈ all, job.failure? = none) :
    Goes m (writeAll dir all) fun acts result =>
      ∃ outcomes scheduled, result = .ok outcomes ∧ outcomes.map (·.1) = all ∧
        scheduled.Perm outcomes ∧ scheduled.map (·.1) = m.schedule all ∧
        List.Forall₂ (Act.Writes dir) scheduled acts := by
  refine .read_bind ((goes_writeEach fun job hjob => ?_).bind ?_ ?_)
  · exact htexts job ((m.schedule_perm all).mem_iff.1 hjob)
  · rintro _ _ ⟨_, h, _⟩
    cases h
  · rintro acts scheduled ⟨scheduled', h, hscheduled, hacts⟩
    obtain rfl := Except.ok.inj h
    refine .pure ⟨collect scheduled all, scheduled, rfl, map_fst_collect _ _, ?_, hscheduled, ?_⟩
    · exact (collect_perm (hscheduled ▸ m.schedule_perm all)).symm
    · simpa using hacts

/-! ## Compiling and removing -/

/-- What an outcome of the compiler means for the run. -/
def exitOf : Except Error Nat → Except Error Unit
  | .ok 0 => .ok ()
  | .ok (code + 1) => .error (.validatorCompiler (code + 1))
  | .error e => .error e

theorem exitOf_eq_ok_iff {outcome : Except Error Nat} :
    exitOf outcome = .ok () ↔ outcome = .ok 0 := by
  rcases outcome with e | (_ | code) <;> simp [exitOf]

theorem goes_compileValidators {name : String} {program : Program}
    (hprogram : m.program? name = some program) :
    Goes m (compileValidators name program dir) fun acts result =>
      ∃ outcome, acts = [.run name dir outcome] ∧ result = exitOf outcome := by
  have hstart : Goes m (start name program dir) fun acts result =>
      acts = [.run name dir result] := .start hprogram fun _ => rfl
  refine hstart.bind ?_ ?_
  · exact fun acts e h => ⟨_, h, rfl⟩
  · rintro acts (_ | code) h
    · exact .pure ⟨_, by simpa using h, rfl⟩
    · exact .throw ⟨_, by simpa using h, rfl⟩

/-- Each file is tried to be removed, whatever becomes of the others. -/
theorem goes_removeAll {files : List String} :
    Goes m (removeAll dir files) fun acts result => result = .ok () ∧
      acts.map Act.event = files.map fun file => .call (.remove (dir.entry file)) := by
  induction files with
  | nil => exact .pure ⟨rfl, rfl⟩
  | cons file rest ih =>
      have hfirst : Goes m (attempt (perform (.remove (dir.entry file)))) fun acts result =>
          ∃ failure, result = .ok failure ∧
            acts.map Act.event = [.call (.remove (dir.entry file))] := by
        have hperform : Goes m (perform (.remove (dir.entry file))) fun acts _ =>
            acts.map Act.event = [.call (.remove (dir.entry file))] := .perform fun _ => rfl
        exact hperform.attempt fun acts failure h => ⟨failure, rfl, h⟩
      refine Goes.bind (hfirst.bind (R := fun acts result => result = .ok () ∧
        acts.map Act.event = [.call (.remove (dir.entry file))]) ?_ ?_) ?_ ?_
      · rintro _ _ ⟨_, h, _⟩
        cases h
      · rintro first _ ⟨_, _, hevents⟩
        exact .pure ⟨rfl, by simpa using hevents⟩
      · rintro _ _ ⟨h, _⟩
        cases h
      · rintro first _ ⟨_, hevents⟩
        refine Goes.imp ih ?_
        rintro acts result ⟨hresult, hacts⟩
        exact ⟨hresult, by simp [hevents, hacts]⟩

/-! ## The whole -/

/-- How validators are compiled from inputs that can be rendered: all inputs are written, then the
compiler runs unless one of them could not be written, and in the end those that were written are
removed. -/
structure Cleared (m : Machine) (runtime : String) (dir : Path) (inputs : List Job)
    (outcomes : List (Job × Option Error)) (writes runs removals : List Act)
    (result : Except Error Unit) : Prop where
  listed : outcomes.map (·.1) = inputs
  writes : ∃ scheduled, scheduled.Perm outcomes ∧ scheduled.map (·.1) = m.schedule inputs ∧
    List.Forall₂ (Act.Writes dir) scheduled writes
  removals : removals.map Act.event =
    (outcomes.filter (·.2.isNone)).map fun outcome => .call (.remove (dir.entry outcome.1.file))
  failed : ∀ e, outcomes.findSome? (·.2) = some e → runs = [] ∧ result = .error e
  compiled : (∀ outcome ∈ outcomes, outcome.2 = none) →
    ∃ exit, runs = [.run runtime dir exit] ∧ (result = .ok () ↔ exit = .ok 0)

/-- Once the inputs that were written are removed, the run ends as it has to. -/
theorem goes_clear (files : List String) (failure : Option Error) :
    Goes m (do
      removeAll dir files
      match failure with
      | some e => throw e
      | none => return ()) fun acts result => result = outcomeOf failure ∧
        acts.map Act.event = files.map fun file => .call (.remove (dir.entry file)) := by
  refine goes_removeAll.bind ?_ ?_
  · rintro _ _ ⟨h, _⟩
    cases h
  · rintro first u ⟨_, hfirst⟩
    cases failure with
    | some e => exact .throw ⟨rfl, by simpa using hfirst⟩
    | none => exact .pure ⟨rfl, by simpa using hfirst⟩

theorem goes_writeValidators_of_rendered {program : Program}
    (hprogram : m.program? options.validatorRuntime = some program)
    (htexts : (validatorJobs m options c).findSome? Job.failure? = none) :
    Goes m (writeValidators options c dir) fun acts result =>
      ∃ outcomes writes runs removals, acts = writes ++ runs ++ removals ∧
        Cleared m options.validatorRuntime dir (validatorJobs m options c) outcomes writes runs
          removals result := by
  refine .read_bind ?_
  simp only [hprogram, htexts]
  refine (goes_writeAll fun job hjob => List.findSome?_eq_none_iff.1 htexts job hjob).bind ?_ ?_
  · rintro _ _ ⟨_, _, h, _⟩
    cases h
  rintro writes outcomes ⟨outcomes', scheduled, h, hinputs, hperm, hscheduled, hwrites⟩
  obtain rfl := Except.ok.inj h
  cases hfailed : outcomes.findSome? (·.2) with
  | some e =>
      dsimp only
      rw [pure_bind]
      refine Goes.imp (goes_clear _ (some e)) ?_
      rintro removals result ⟨hresult, hremovals⟩
      refine ⟨outcomes, writes, [], removals, by simp, hinputs, ⟨scheduled, hperm, hscheduled,
        hwrites⟩, by simpa [Function.comp_def] using hremovals, ?_, ?_⟩
      · intro e' he'
        obtain rfl : e = e' := Option.some.inj (hfailed.symm.trans he')
        exact ⟨rfl, hresult⟩
      · intro hall
        rw [List.findSome?_eq_none_iff.2 hall] at hfailed
        cases hfailed
  | none =>
      refine ((goes_compileValidators hprogram).attempt (R := fun acts result => ∃ failure outcome,
        result = .ok failure ∧ acts = [.run options.validatorRuntime dir outcome] ∧
          outcomeOf failure = exitOf outcome) ?_).bind ?_ ?_
      · rintro acts failure ⟨outcome, hacts, hexit⟩
        exact ⟨failure, outcome, rfl, hacts, hexit⟩
      · rintro _ _ ⟨_, _, h, _⟩
        cases h
      rintro runs failure ⟨failure', outcome, h, hruns, hexit⟩
      obtain rfl := Except.ok.inj h
      refine Goes.imp (goes_clear _ failure) ?_
      rintro removals result ⟨hresult, hremovals⟩
      refine ⟨outcomes, writes, runs, removals, by simp, hinputs, ⟨scheduled, hperm, hscheduled,
        hwrites⟩, by simpa [Function.comp_def] using hremovals, ?_, ?_⟩
      · intro e he
        rw [hfailed] at he
        cases he
      · intro _
        exact ⟨outcome, hruns, by rw [hresult, hexit, exitOf_eq_ok_iff]⟩

/-- What is done to compile the validators, and how that ends. -/
def Compiles (m : Machine) (options : Options) (c : Client) (dir : Path) (acts : List Act)
    (result : Except Error Unit) : Prop :=
  match m.program? options.validatorRuntime,
    (validatorJobs m options c).findSome? Job.failure? with
  | none, _ => acts = [] ∧ result = .error (.missingExecutable options.validatorRuntime)
  | some _, some e => acts = [] ∧ result = .error e
  | some _, none => ∃ outcomes writes runs removals, acts = writes ++ runs ++ removals ∧
      Cleared m options.validatorRuntime dir (validatorJobs m options c) outcomes writes runs
        removals result

theorem goes_writeValidators :
    Goes m (writeValidators options c dir) (Compiles m options c dir) := by
  unfold Compiles
  cases hprogram : m.program? options.validatorRuntime with
  | none =>
      refine .read_bind ?_
      simp only [hprogram]
      exact .throw ⟨rfl, rfl⟩
  | some program =>
      cases htexts : (validatorJobs m options c).findSome? Job.failure? with
      | some e =>
          refine .read_bind ?_
          simp only [hprogram, htexts]
          exact .throw ⟨rfl, rfl⟩
      | none => exact goes_writeValidators_of_rendered hprogram htexts

/-- Without the compiler, or if an input cannot be rendered, nothing is written. Otherwise all
inputs are written, those that could be written are removed in the end, and in between the compiler
runs if all could be written. The outcome is the failure of the first input that could not be
written, or else depends on the exit of the compiler. -/
theorem writeValidators_clears (m : Machine) (options : Options) (c : Client) (dir : Path)
    (s : State) :
    ∃ acts result t, execute (writeValidators options c dir) m s = (result, t) ∧
      Trace m s acts t ∧ Compiles m options c dir acts result := by
  obtain ⟨acts, htrace, hacts⟩ := @goes_writeValidators m options c dir s
  exact ⟨acts, _, _, rfl, htrace, hacts⟩

end TypedClient.Emission
