import TypedClient.Proofs.Emission.Jobs
import TypedClient.Proofs.Emission.Run
import TypedClient.Proofs.Files.Effect

/-!
# What a category directory holds

A category that is written successfully leaves a directory with the files of its jobs and nothing
else (`Filled`), whatever was there before and in whatever order the files were written
(`renewed_writeCategory`). Around it nothing changes, except that the directories on the way to it
are made.
-/

namespace TypedClient.Emission

open Files Files.Path Files.Tree

variable {m : Machine} {s t : State} {dir : Path} {names : List String} {all : List Job}

/-! ## Files -/

/-- The files of some jobs were written into a directory, and all else stays. -/
structure FilesWritten (u v : Tree) (names : List String) (all : List Job) : Prop where
  wellFormed : v.WellFormed
  fit : ∀ job ∈ all, nameFault? job.file = none
  files : ∀ job ∈ all, ∃ text, job.text = .ok text ∧
    v.entry? (place (names ++ [job.file])) = some (.file (.text text))
  others : ∀ q, (∀ job ∈ all, q ≠ place (names ++ [job.file])) → v.entry? q = u.entry? q

theorem place_append_singleton_inj {name other : String} :
    place (names ++ [name]) = place (names ++ [other]) ↔ name = other := by
  simp [place]

theorem written_of_writeJob {job : Job} (hdir : Straight dir names)
    (hrun : execute (writeJob dir job) m s = (.ok (), t)) :
    ∃ text, job.text = .ok text ∧ Written s.tree t.tree names job.file (.text text) := by
  unfold writeJob at hrun
  split at hrun
  · rename_i text htext
    obtain ⟨_, tree, happly, rfl⟩ := execute_perform_eq_ok_iff.1 hrun
    exact ⟨text, htext, written_of_writeFile hdir happly⟩
  · cases hrun

theorem filesWritten_of_forM (hdir : Straight dir names) (ht : s.tree.WellFormed)
    (hnodup : (all.map (·.file)).Nodup)
    (hrun : execute (all.forM (writeJob dir)) m s = (.ok (), t)) :
    FilesWritten s.tree t.tree names all := by
  induction all generalizing s with
  | nil =>
      cases hrun
      exact ⟨ht, by simp, by simp, fun _ _ => rfl⟩
  | cons job rest ih =>
      obtain ⟨_, mid, hfirst, hrest⟩ := execute_bind_eq_ok_iff.1 hrun
      obtain ⟨text, htext, hwritten⟩ := written_of_writeJob hdir hfirst
      rw [List.map_cons, List.nodup_cons] at hnodup
      have hlater := ih (hwritten.wellFormed ht) hnodup.2 hrest
      -- No later file takes the place of the first one.
      have hne : ∀ other ∈ rest, place (names ++ [job.file]) ≠ place (names ++ [other.file]) := by
        intro other hother heq
        rw [place_append_singleton_inj] at heq
        exact hnodup.1 (heq ▸ List.mem_map_of_mem hother)
      constructor
      case wellFormed => exact hlater.wellFormed
      case fit =>
        intro other hother
        rcases List.mem_cons.1 hother with rfl | hother
        · exact hwritten.fit _ (by simp)
        · exact hlater.fit other hother
      case files =>
        intro other hother
        rcases List.mem_cons.1 hother with rfl | hother
        · exact ⟨text, htext, by rw [hlater.others _ hne, hwritten.written]⟩
        · exact hlater.files other hother
      case others =>
        intro q hq
        rw [hlater.others q fun other hother => hq other (List.mem_cons_of_mem _ hother)]
        exact hwritten.others q (hq job List.mem_cons_self)

/-- Files are written in turn without a failure if each of them is written, and only then. -/
theorem execute_writeInTurn_eq_ok_iff :
    execute (writeInTurn dir all) m s = (.ok (), t) ↔
      execute (all.forM (writeJob dir)) m s = (.ok (), t) := by
  induction all generalizing s with
  | nil => rfl
  | cons job rest ih =>
      change execute (attempt (writeJob dir job) >>= _) m s = _ ↔
        execute (writeJob dir job >>= fun _ => rest.forM (writeJob dir)) m s = _
      rw [execute_bind, execute_attempt, execute_bind]
      rcases execute (writeJob dir job) m s with ⟨e | _, mid⟩
      · -- What is still under way after the failure does not make up for it.
        dsimp only
        rw [execute_read_bind, execute_bind]
        rcases execute (writeEach dir (m.underWay rest)) m mid with ⟨_ | _, _⟩ <;> simp
      · exact ih

theorem filesWritten_of_writeJobs (hdir : Straight dir names) (ht : s.tree.WellFormed)
    (hnodup : (all.map (·.file)).Nodup)
    (hrun : execute (writeJobs dir all) m s = (.ok (), t)) :
    FilesWritten s.tree t.tree names all := by
  have hperm := m.schedule_perm all
  have hwritten := filesWritten_of_forM hdir ht ((hperm.map (·.file)).nodup_iff.2 hnodup)
    (execute_writeInTurn_eq_ok_iff.1 hrun)
  exact ⟨hwritten.wellFormed, fun job hjob => hwritten.fit job (hperm.mem_iff.2 hjob),
    fun job hjob => hwritten.files job (hperm.mem_iff.2 hjob),
    fun q hq => hwritten.others q fun job hjob => hq job (hperm.mem_iff.1 hjob)⟩

/-! ## Categories -/

/-- At and below a place there is a directory with the files of some jobs, and nothing else. -/
structure Filled (v : Tree) (names : List String) (all : List Job) : Prop where
  directory : v.entry? (place names) = some .directory
  files : ∀ job ∈ all, ∃ text, job.text = .ok text ∧
    v.entry? (place (names ++ [job.file])) = some (.file (.text text))
  others : ∀ q, place names <+: q → q ≠ place names →
    (∀ job ∈ all, q ≠ place (names ++ [job.file])) → v.entry? q = none

/-- What is there under a place that is filled is one of the files. -/
theorem Filled.exists_of_file (h : Filled v names all) {q : Path}
    {contents : Contents} (hq : place names <+: q) (hentry : v.entry? q = some (.file contents)) :
    ∃ job ∈ all, ∃ text, job.text = .ok text ∧ contents = .text text ∧
      q = place (names ++ [job.file]) := by
  have hdir : q ≠ place names := by
    rintro rfl
    rw [h.directory] at hentry
    cases hentry
  by_cases hfile : ∃ job ∈ all, q = place (names ++ [job.file])
  · obtain ⟨job, hjob, rfl⟩ := hfile
    obtain ⟨text, htext, hthere⟩ := h.files job hjob
    rw [hthere] at hentry
    cases hentry
    exact ⟨job, hjob, text, htext, rfl, rfl⟩
  · rw [h.others q hq hdir fun job hjob heq => hfile ⟨job, hjob, heq⟩] at hentry
    cases hentry

/-- What a place is filled with is determined by the jobs. -/
theorem Filled.entry?_eq {v w : Tree} (hv : Filled v names all) (hw : Filled w names all) {q : Path}
    (hq : place names <+: q) : v.entry? q = w.entry? q := by
  by_cases hdir : q = place names
  · rw [hdir, hv.directory, hw.directory]
  · by_cases hfile : ∃ job ∈ all, q = place (names ++ [job.file])
    · obtain ⟨job, hjob, rfl⟩ := hfile
      obtain ⟨text, htext, hentry⟩ := hv.files job hjob
      obtain ⟨text', htext', hentry'⟩ := hw.files job hjob
      obtain rfl : text = text' := Except.ok.inj (htext.symm.trans htext')
      rw [hentry, hentry']
    · have hnone : ∀ job ∈ all, q ≠ place (names ++ [job.file]) :=
        fun job hjob heq => hfile ⟨job, hjob, heq⟩
      rw [hv.others q hq hdir hnone, hw.others q hq hdir hnone]

theorem Filled.congr {v w : Tree} (hv : Filled v names all)
    (h : ∀ q, place names <+: q → w.entry? q = v.entry? q) : Filled w names all where
  directory := by rw [h _ List.prefix_rfl, hv.directory]
  files job hjob := by
    obtain ⟨text, htext, hentry⟩ := hv.files job hjob
    exact ⟨text, htext, by rw [h _ (by simp), hentry]⟩
  others q hq hdir hfiles := by rw [h q hq, hv.others q hq hdir hfiles]

/-- Under a path everything is as before, unless a directory was made there because it was
missing on the way. -/
def Grown (u v : Tree) (names : List String) (q : Path) : Prop :=
  v.entry? q = u.entry? q ∨ (OnWay names q ∧ u.entry? q = none ∧ v.entry? q = some .directory)

theorem Grown.trans {u v w : Tree} {q : Path} (h : Grown u v names q) (h' : Grown v w names q) :
    Grown u w names q := by
  rcases h with h | ⟨hway, hnone, hdir⟩
  · rwa [Grown, h] at h'
  · rcases h' with h' | ⟨_, hnone', _⟩
    · exact .inr ⟨hway, hnone, h'.trans hdir⟩
    · rw [hdir] at hnone'
      cases hnone'

theorem grown_of_made {u v : Tree} (h : Made u v names) (q : Path) : Grown u v names q := by
  by_cases hway : OnWay names q
  · rcases h.free q hway with hnone | hdir
    · exact .inr ⟨hway, hnone, h.made q hway⟩
    · exact .inl (by rw [h.made q hway, hdir])
  · exact .inl (h.others q hway)

/-- The way to a place does not lead through what is below it. -/
theorem not_prefix_of_onWay {name : String} {q : Path} (h : OnWay names q) :
    ¬ place (names ++ [name]) <+: q := by
  obtain ⟨before, hbefore, rfl⟩ := h
  intro hbelow
  have hshort := hbefore.length_le
  have hlong := hbelow.length_le
  simp only [place, List.length_cons, List.length_map, List.length_append, List.length_nil] at hlong
  omega

theorem Grown.eq_of_below {u v : Tree} {name : String} {q : Path} (h : Grown u v names q)
    (hq : place (names ++ [name]) <+: q) : v.entry? q = u.entry? q := by
  rcases h with h | ⟨hway, _⟩
  · exact h
  · exact absurd hq (not_prefix_of_onWay hway)

/-- Some categories were written anew in a directory, and all around them only grew. -/
structure Renewed (u v : Tree) (names : List String) (jobsOf : Category → List Job)
    (categories : List Category) : Prop where
  wellFormed : v.WellFormed
  fit : ∀ category ∈ categories, Fit (names ++ [category.directory]) ∧
    ∀ job ∈ jobsOf category, nameFault? job.file = none
  filled : ∀ category ∈ categories,
    Filled v (names ++ [category.directory]) (jobsOf category)
  others : ∀ q, (∀ category ∈ categories, ¬ place (names ++ [category.directory]) <+: q) →
    Grown u v names q

theorem directory_injective : Function.Injective Category.directory := by
  intro category other
  cases category <;> cases other <;> decide

/-- Nothing is in two categories. -/
theorem eq_of_below_directories {category other : Category} {q : Path}
    (h : place (names ++ [category.directory]) <+: q)
    (h' : place (names ++ [other.directory]) <+: q) : category = other := by
  have heq := List.prefix_of_prefix_length_le h h' (by simp [place])
  have hplaces := heq.eq_of_length (by simp [place])
  exact directory_injective (place_append_singleton_inj.1 hplaces)

theorem Renewed.nil {u : Tree} (hu : u.WellFormed) (jobsOf : Category → List Job) :
    Renewed u u names jobsOf [] :=
  ⟨hu, by simp, by simp, fun _ _ => .inl rfl⟩

/-- Categories that are written later leave the earlier ones alone. -/
theorem Renewed.cons {u v w : Tree} {jobsOf : Category → List Job} {category : Category}
    {rest : List Category} (hfirst : Renewed u v names jobsOf [category])
    (hrest : Renewed v w names jobsOf rest) (hnew : category ∉ rest) :
    Renewed u w names jobsOf (category :: rest) := by
  have hout : ∀ q, place (names ++ [category.directory]) <+: q →
      ∀ other ∈ rest, ¬ place (names ++ [other.directory]) <+: q := by
    intro q hq other hother hbelow
    exact hnew (eq_of_below_directories hq hbelow ▸ hother)
  constructor
  case wellFormed => exact hrest.wellFormed
  case fit =>
    intro other hother
    rcases List.mem_cons.1 hother with rfl | hother
    · exact hfirst.fit _ List.mem_cons_self
    · exact hrest.fit other hother
  case filled =>
    intro other hother
    rcases List.mem_cons.1 hother with rfl | hother
    · -- What is below the first directory is neither in another one nor on the way to them.
      refine (hfirst.filled _ List.mem_cons_self).congr fun q hq => ?_
      exact (hrest.others q (hout q hq)).eq_of_below hq
    · exact hrest.filled other hother
  case others =>
    intro q hq
    refine (hfirst.others q fun other hother => ?_).trans (hrest.others q fun other hother => ?_)
    · exact hq other (List.mem_cons.2 (.inl (List.mem_singleton.1 hother)))
    · exact hq other (List.mem_cons_of_mem _ hother)

variable {options : Options} {c : Client} {output : Path} {category : Category}

/-- Without another request function a category consists of its jobs. -/
theorem execute_fill (h : category ≠ .validators) (dir : Path) (s : State) :
    execute (fill options c none dir category) m s =
      execute (writeJobs dir (jobs m options c category)) m s := by
  cases category with
  | core =>
      change execute (writeJobs dir (coreJobs m options c) >>= fun _ => pure ()) m s = _
      rw [execute_bind]
      change _ = execute (writeJobs dir (coreJobs m options c)) m s
      rcases execute (writeJobs dir (coreJobs m options c)) m s with ⟨_ | _, _⟩ <;> rfl
  | validators => exact absurd rfl h
  | services | schemas | models => rfl

/-- Acquiring a directory removes it and makes it again. -/
theorem removed_made_of_acquire (hdir : Straight dir names) (ht : s.tree.WellFormed)
    (hnames : names ≠ []) (hrun : execute (acquire dir) m s = (.ok (), t)) :
    ∃ bare, Removed s.tree bare names ∧ Made bare t.tree names := by
  obtain ⟨_, mid, hremove, hmake⟩ := execute_bind_eq_ok_iff.1 hrun
  obtain ⟨_, bare, hbare, rfl⟩ := execute_perform_eq_ok_iff.1 hremove
  obtain ⟨_, made, hmade, rfl⟩ := execute_perform_eq_ok_iff.1 hmake
  exact ⟨bare, removed_of_removeDirectory ht hdir hnames hbare, made_of_makeDirectory hdir hmade⟩

/-- A directory that is removed, made again and filled holds what it is filled with. -/
theorem filled_of_written {u bare made v : Tree} {name : String}
    (hremoved : Removed u bare (names ++ [name])) (hmade : Made bare made (names ++ [name]))
    (hfiles : FilesWritten made v (names ++ [name]) all) : Filled v (names ++ [name]) all where
  directory := by
    rw [hfiles.others _ fun job _ => by simp [place], hmade.made _ ⟨_, List.prefix_rfl, rfl⟩]
  files := hfiles.files
  others q hq hne hnone := by
    have hway : ¬ OnWay (names ++ [name]) q := by
      intro hway
      rcases onWay_append_singleton.1 hway with hway | heq
      · exact not_prefix_of_onWay hway hq
      · exact hne heq
    rw [hfiles.others q hnone, hmade.others q hway, hremoved.gone q hq]

/-- Around a directory that is removed and made again only the way to it is made. -/
theorem grown_of_remade {u bare made v : Tree} {name : String} {q : Path}
    (hremoved : Removed u bare (names ++ [name])) (hmade : Made bare made (names ++ [name]))
    (hv : v.entry? q = made.entry? q) (hq : ¬ place (names ++ [name]) <+: q) :
    Grown u v names q := by
  have hbare : bare.entry? q = u.entry? q := hremoved.others q hq
  rcases grown_of_made hmade q with h | ⟨hway, hnone, hdir⟩
  · exact .inl (by rw [hv, h, hbare])
  · have hne : q ≠ place (names ++ [name]) := fun heq => hq (heq ▸ List.prefix_rfl)
    refine .inr ⟨(onWay_append_singleton.1 hway).resolve_right hne, ?_, ?_⟩
    · rw [← hbare, hnone]
    · rw [hv, hdir]

/-- A category that is written successfully is written anew. -/
theorem renewed_writeCategory (hc : c.FileNames) (houtput : Straight output names)
    (ht : s.tree.WellFormed) (hcategory : category ≠ .validators)
    (hrun : execute (writeCategory options c none output category) m s = (.ok (), t)) :
    Renewed s.tree t.tree names (jobs m options c) [category] := by
  have hdir : Straight (output.entry category.directory) (names ++ [category.directory]) :=
    houtput.entry category.directory
  obtain ⟨_, mid, hacquire, hfill⟩ := execute_bind_eq_ok_iff.1 hrun
  obtain ⟨bare, hremoved, hmade⟩ := removed_made_of_acquire hdir ht (by simp) hacquire
  rw [execute_fill hcategory] at hfill
  have hfiles := filesWritten_of_writeJobs hdir (hmade.wellFormed hremoved.wellFormed)
    (nodup_files_jobs hc hcategory) hfill
  refine ⟨hfiles.wellFormed, ?_, ?_, ?_⟩
  · intro other hother
    obtain rfl := List.mem_singleton.1 hother
    exact ⟨hmade.fit, hfiles.fit⟩
  · intro other hother
    obtain rfl := List.mem_singleton.1 hother
    exact filled_of_written hremoved hmade hfiles
  · intro q hq
    have hout := hq category List.mem_cons_self
    refine grown_of_remade hremoved hmade (hfiles.others q fun job _ heq => hout ?_) hout
    simp [heq]

theorem renewed_forM_writeCategory (hc : c.FileNames) (houtput : Straight output names)
    (ht : s.tree.WellFormed) {categories : List Category} (hnodup : categories.Nodup)
    (hcategories : Category.validators ∉ categories)
    (hrun : execute (categories.forM (writeCategory options c none output)) m s = (.ok (), t)) :
    Renewed s.tree t.tree names (jobs m options c) categories := by
  induction categories generalizing s with
  | nil =>
      cases hrun
      exact .nil ht _
  | cons category rest ih =>
      rw [List.mem_cons, not_or] at hcategories
      rw [List.nodup_cons] at hnodup
      obtain ⟨_, mid, hfirst, hrest⟩ := execute_bind_eq_ok_iff.1 hrun
      have hrenewed := renewed_writeCategory hc houtput ht
        (fun heq => hcategories.1 heq.symm) hfirst
      exact hrenewed.cons (ih hrenewed.wellFormed hnodup.2 hcategories.2 hrest) hnodup.1

end TypedClient.Emission
