import TypedClient.Proofs.Client.GivenNames
import TypedClient.Proofs.Files.Path

/-!
# The files of a category

Each file of a category is named like an entry of its directory, whatever the document says
(`proper_of_mem_jobs`), and no two files of a category share a name (`nodup_files_jobs`); only the
inputs of the validator compiler are left out of the latter, as the script among them has a name
that a definition can give to a file too.
-/

namespace TypedClient.Emission

open Files

/-- The files of a category, in the order in which they are listed. -/
def jobs (m : Machine) (options : Options) (c : Client) : Category → List Job
  | .core => coreJobs m options c
  | .services => serviceJobs m options c
  | .schemas => schemaJobs m c
  | .validators => validatorJobs m options c
  | .models => modelJobs m options c

/-- A file that is named like an entry, and whose text is missing only if it cannot be rendered. -/
structure Job.Proper (m : Machine) (job : Job) : Prop where
  plain : Path.IsPlain job.file
  failure : ∀ e, job.text = .error e → ∃ artifact context, m.render artifact context = .error e

theorem Job.failure?_eq_some_iff {job : Job} {e : Error} :
    job.failure? = some e ↔ job.text = .error e := by
  unfold Job.failure?
  cases job.text <;> simp

theorem Job.failure?_eq_none_iff {job : Job} :
    job.failure? = none ↔ ∃ text, job.text = .ok text := by
  unfold Job.failure?
  cases job.text <;> simp

variable {m : Machine} {options : Options} {c : Client}

theorem isPlain_of_mem_coreFiles {variation : Variation} {file : String × Artifact}
    (h : file ∈ coreFiles variation) : Path.IsPlain file.1 := by
  have hfiles : ∀ variation, ∀ file ∈ coreFiles variation,
      '/' ∉ file.1.toList ∧ 2 < file.1.length := by
    rintro (_ | _) <;> decide
  exact Path.isPlain_of_slash_not_mem (hfiles variation file h).1 (hfiles variation file h).2

/-- Around a name without a slash there may be other text without one. -/
theorem isPlain_around {name : String} (hname : '/' ∉ name.toList) (before after : String)
    (hbefore : '/' ∉ before.toList) (hafter : '/' ∉ after.toList)
    (hlength : 2 < after.length) : Path.IsPlain (before ++ name ++ after) := by
  apply Path.isPlain_of_slash_not_mem
  · simp [hname, hbefore, hafter]
  · simp only [String.length_append]
    omega

theorem exists_of_map_format_eq_error {artifact : Artifact} {context : Json} {e : Error}
    (h : (m.render artifact context).map m.format = .error e) :
    ∃ artifact context, m.render artifact context = .error e := by
  refine ⟨artifact, context, ?_⟩
  cases hrender : m.render artifact context with
  | ok text => rw [hrender] at h; cases h
  | error e' => rw [hrender] at h; cases h; rfl

theorem proper_of_mem_jobs (hc : c.FileNames) (category : Category) :
    ∀ job ∈ jobs m options c category, job.Proper m := by
  cases category with
  | core =>
      rintro _ hjob
      obtain ⟨file, hfile, rfl⟩ := List.mem_map.1 hjob
      exact ⟨isPlain_of_mem_coreFiles hfile, fun e he => ⟨_, _, he⟩⟩
  | services =>
      rintro _ hjob
      obtain ⟨s, hs, rfl⟩ := List.mem_map.1 hjob
      refine ⟨?_, fun e he => exists_of_map_format_eq_error he⟩
      have hplain := isPlain_around (hc.services_slash s hs) "" ("Service" ++ ".ts")
        (by decide) (by decide) (by decide)
      rwa [String.empty_append, ← String.append_assoc] at hplain
  | schemas =>
      rintro _ hjob
      obtain ⟨model, hmodel, rfl⟩ := List.mem_map.1 hjob
      have hplain := isPlain_around (hc.models_slash model hmodel) "$" ".ts"
        (by decide) (by decide) (by decide)
      exact ⟨hplain, fun e he => ⟨_, _, he⟩⟩
  | validators =>
      rintro job hjob
      rcases List.mem_append.1 hjob with hjob | hjob
      · obtain ⟨model, hmodel, rfl⟩ := List.mem_map.1 hjob
        have hplain := isPlain_around (hc.models_slash model hmodel) "$" ".js"
          (by decide) (by decide) (by decide)
        exact ⟨hplain, fun e he => ⟨_, _, he⟩⟩
      · obtain rfl := List.mem_singleton.1 hjob
        have hplain : Path.IsPlain generatorFile :=
          Path.isPlain_of_slash_not_mem (by decide) (by decide)
        exact ⟨hplain, fun e he => ⟨_, _, he⟩⟩
  | models =>
      rintro _ hjob
      obtain ⟨model, hmodel, rfl⟩ := List.mem_map.1 hjob
      refine ⟨?_, fun e he => exists_of_map_format_eq_error he⟩
      have hplain := isPlain_around (hc.models_slash model hmodel) "" ".ts"
        (by decide) (by decide) (by decide)
      rwa [String.empty_append] at hplain

/-! ## Different files -/

/-- What is put around different names leaves them different. -/
theorem nodup_map_around {α : Type} {name : α → String} {items : List α}
    (h : (items.map name).Nodup) (before after : String) :
    (items.map fun a => before ++ name a ++ after).Nodup := by
  have hinj : Function.Injective fun s : String => before ++ s ++ after := by
    intro s t heq
    simpa using heq
  simpa only [List.map_map, Function.comp_def] using h.map hinj

theorem nodup_files_coreJobs : ((coreJobs m options c).map (·.file)).Nodup := by
  have hfiles : ∀ variation, ((coreFiles variation).map (·.1)).Nodup := by
    rintro (_ | _) <;> decide
  rw [coreJobs, List.map_map]
  exact hfiles options.variation

theorem nodup_files_jobs (hc : c.FileNames) {category : Category} (h : category ≠ .validators) :
    ((jobs m options c category).map (·.file)).Nodup := by
  cases category with
  | core => exact nodup_files_coreJobs
  | services =>
      have hnodup := nodup_map_around hc.services_nodup "" ("Service" ++ ".ts")
      rw [jobs, serviceJobs, List.map_map]
      simpa [Function.comp_def, Page.serviceModule, String.append_assoc] using hnodup
  | schemas =>
      rw [jobs, schemaJobs, List.map_map]
      exact nodup_map_around hc.models_nodup "$" ".ts"
  | validators => exact absurd rfl h
  | models =>
      have hnodup := nodup_map_around hc.models_nodup "" ".ts"
      rw [jobs, modelJobs, List.map_map]
      simpa [Function.comp_def] using hnodup

/-! ## Outcomes -/

@[simp]
theorem map_fst_collect (results : List (Job × Option Error)) (all : List Job) :
    (collect results all).map (·.1) = all := by
  induction all generalizing results with
  | nil => rfl
  | cons job rest ih => simp [collect, ih]

/-- A failure that is collected for a file is one of the results for it. -/
theorem mem_of_mem_collect {results : List (Job × Option Error)} {all : List Job}
    {outcome : Job × Option Error} {e : Error} (h : outcome ∈ collect results all)
    (he : outcome.2 = some e) : (outcome.1, some e) ∈ results := by
  induction all generalizing results with
  | nil => cases h
  | cons job rest ih =>
      rcases List.mem_cons.1 h with rfl | h
      · obtain ⟨before, after, heq, _⟩ :=
          List.lookup_eq_some_iff.1 (Option.join_eq_some_iff.1 he)
        simp [heq]
      · exact List.mem_of_mem_eraseP (ih h)

/-- Outcomes are collected without adding or losing one. -/
theorem collect_perm {results : List (Job × Option Error)} {all : List Job}
    (h : (results.map (·.1)).Perm all) : (collect results all).Perm results := by
  induction all generalizing results with
  | nil =>
      obtain rfl := List.map_eq_nil_iff.1 h.eq_nil
      exact .refl _
  | cons job rest ih =>
      obtain ⟨result, hresult, hfst⟩ := List.mem_map.1 (h.mem_iff.2 List.mem_cons_self)
      have hsome : (results.lookup job).isSome := by
        rw [List.lookup_isSome_iff]
        exact ⟨result, hresult, by simp [hfst]⟩
      obtain ⟨outcome, houtcome⟩ := Option.isSome_iff_exists.1 hsome
      obtain ⟨before, after, rfl, hbefore⟩ := List.lookup_eq_some_iff.1 houtcome
      have herase : (before ++ (job, outcome) :: after).eraseP (·.1 == job) = before ++ after := by
        have hnone : ∀ r ∈ before, ¬ (r.1 == job) = true := by
          intro r hr heq
          simpa [eq_of_beq heq] using hbefore r hr
        simp [List.eraseP_append_right _ hnone]
      rw [collect, houtcome, herase]
      have hmiddle : (before ++ (job, outcome) :: after).Perm
          ((job, outcome) :: (before ++ after)) := List.perm_middle
      refine (List.Perm.cons _ (ih ?_)).trans hmiddle.symm
      simpa using (hmiddle.map (·.1)).symm.trans h

end TypedClient.Emission
