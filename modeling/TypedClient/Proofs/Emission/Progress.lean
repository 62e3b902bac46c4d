import TypedClient.Proofs.Emission.Filling

/-!
# Writing where nothing is in the way

A disk that refuses nothing lets a category be written again once its directory is there:
`exists_forM_writeCategory`. What else could go wrong has been tried by then, as the names of the
files and their texts are the same.
-/

namespace TypedClient.Emission

open Files Files.Path Files.Tree

/-- The disk refuses no call. -/
def Machine.Faultless (m : Machine) : Prop := ∀ n c, m.fault? n c = none

/-- Jobs whose files a disk can take and whose texts are there. -/
structure Ready (all : List Job) : Prop where
  fit : ∀ job ∈ all, nameFault? job.file = none
  text : ∀ job ∈ all, ∃ text, job.text = .ok text

variable {m : Machine} {s : State} {dir : Path} {names : List String} {all : List Job}

theorem exists_perform (hm : m.Faultless) (c : Call) {tree : Tree}
    (h : c.apply s.tree = .ok tree) :
    ∃ t, execute (perform c) m s = (.ok (), t) ∧ t.tree = tree :=
  ⟨_, execute_perform_eq_ok_iff.2 ⟨hm _ _, tree, h, rfl⟩, rfl⟩

/-- Files can be written into a directory where no directories are in their places. -/
theorem exists_forM_writeJob (hm : m.Faultless) (hdir : Straight dir names)
    (ht : s.tree.WellFormed) (hfit : Fit names)
    (hthere : s.tree.entry? (place names) = some .directory) (hready : Ready all)
    (hfree : ∀ job ∈ all, s.tree.entry? (place (names ++ [job.file])) ≠ some .directory) :
    ∃ t, execute (all.forM (writeJob dir)) m s = (.ok (), t) := by
  induction all generalizing s with
  | nil => exact ⟨s, rfl⟩
  | cons job rest ih =>
      obtain ⟨text, htext⟩ := hready.text job List.mem_cons_self
      have hname : Fit (names ++ [job.file]) :=
        fit_append_iff.2 ⟨hfit, by simpa [Fit] using hready.fit job List.mem_cons_self⟩
      obtain ⟨tree, hwrite⟩ := exists_writeFile ht hdir hname hthere
        (hfree job List.mem_cons_self) (.text text)
      obtain ⟨mid, hmid, rfl⟩ := exists_perform hm (.write (dir.entry job.file) (.text text)) hwrite
      have hjob : execute (writeJob dir job) m s = (.ok (), mid) := by
        simp only [writeJob, htext]
        exact hmid
      have hwritten := written_of_writeFile hdir hwrite
      have hlater : Ready rest :=
        ⟨fun other hother => hready.fit other (List.mem_cons_of_mem _ hother),
          fun other hother => hready.text other (List.mem_cons_of_mem _ hother)⟩
      have hstays : mid.tree.entry? (place names) = some .directory := by
        rw [hwritten.others _ (by simp [place]), hthere]
      have hrest := ih (hwritten.wellFormed ht) hstays hlater fun other hother => ?_
      · obtain ⟨t, ht⟩ := hrest
        exact ⟨t, execute_bind_eq_ok_iff.2 ⟨(), mid, hjob, ht⟩⟩
      · -- A later file may even have the same name; then a file is in its place by now.
        by_cases heq : place (names ++ [other.file]) = place (names ++ [job.file])
        · rw [heq, hwritten.written]
          simp
        · rw [hwritten.others _ heq]
          exact hfree other (List.mem_cons_of_mem _ hother)

theorem exists_acquire (hm : m.Faultless) (hdir : Straight dir names) (ht : s.tree.WellFormed)
    (hnames : names ≠ []) (hfit : Fit names)
    (hthere : s.tree.entry? (place names) = some .directory) :
    ∃ t, execute (acquire dir) m s = (.ok (), t) := by
  obtain ⟨bare, hbare⟩ := exists_removeDirectory ht hdir hfit hthere
  have hremoved := removed_of_removeDirectory ht hdir hnames hbare
  obtain ⟨mid, hmid, rfl⟩ := exists_perform hm (.removeDirectory dir) hbare
  have hfree : ∀ q, OnWay names q →
      mid.tree.entry? q = none ∨ mid.tree.entry? q = some .directory := by
    intro q hq
    by_cases hbelow : place names <+: q
    · exact .inl (hremoved.gone q hbelow)
    · exact .inr (by rw [hremoved.others q hbelow, ht.directory_of_onWay hthere hq])
  obtain ⟨made, hmade⟩ := exists_makeDirectory hdir hfit hfree
  obtain ⟨t, ht, _⟩ := exists_perform hm (.makeDirectory dir) hmade
  exact ⟨t, execute_bind_eq_ok_iff.2 ⟨(), mid, hmid, ht⟩⟩

variable {options : Options} {c : Client} {output : Path}

/-- A category can be written again. -/
theorem exists_writeCategory (hm : m.Faultless) (houtput : Straight output names)
    (ht : s.tree.WellFormed) {category : Category} (hcategory : category ≠ .validators)
    (hfit : Fit (names ++ [category.directory])) (hready : Ready (jobs m options c category))
    (hthere : s.tree.entry? (place (names ++ [category.directory])) = some .directory) :
    ∃ t, execute (writeCategory options c none output category) m s = (.ok (), t) := by
  have hdir : Straight (output.entry category.directory) (names ++ [category.directory]) :=
    houtput.entry category.directory
  obtain ⟨mid, hmid⟩ := exists_acquire hm hdir ht (by simp) hfit hthere
  obtain ⟨bare, hremoved, hmade⟩ := removed_made_of_acquire hdir ht (by simp) hmid
  have hfree : ∀ job ∈ m.schedule (jobs m options c category),
      mid.tree.entry? (place (names ++ [category.directory] ++ [job.file])) ≠ some .directory := by
    intro job _
    have hway : ¬ OnWay (names ++ [category.directory])
        (place (names ++ [category.directory] ++ [job.file])) :=
      fun hway => not_prefix_of_onWay hway List.prefix_rfl
    rw [hmade.others _ hway, hremoved.gone _ (by simp)]
    simp
  have hperm := m.schedule_perm (jobs m options c category)
  obtain ⟨t, hfill⟩ := exists_forM_writeJob hm hdir (hmade.wellFormed hremoved.wellFormed) hfit
    (hmade.made _ ⟨_, List.prefix_rfl, rfl⟩)
    ⟨fun job hjob => hready.fit job (hperm.mem_iff.1 hjob),
      fun job hjob => hready.text job (hperm.mem_iff.1 hjob)⟩ hfree
  refine ⟨t, execute_bind_eq_ok_iff.2 ⟨(), mid, hmid, ?_⟩⟩
  rw [execute_fill hcategory]
  exact execute_writeInTurn_eq_ok_iff.2 hfill

theorem exists_forM_writeCategory (hm : m.Faultless) (hc : c.FileNames)
    (houtput : Straight output names) (ht : s.tree.WellFormed) {categories : List Category}
    (hnodup : categories.Nodup) (hcategories : Category.validators ∉ categories)
    (hfit : ∀ category ∈ categories, Fit (names ++ [category.directory]))
    (hready : ∀ category ∈ categories, Ready (jobs m options c category))
    (hthere : ∀ category ∈ categories,
      s.tree.entry? (place (names ++ [category.directory])) = some .directory) :
    ∃ t, execute (categories.forM (writeCategory options c none output)) m s = (.ok (), t) := by
  induction categories generalizing s with
  | nil => exact ⟨s, rfl⟩
  | cons category rest ih =>
      rw [List.mem_cons, not_or] at hcategories
      rw [List.nodup_cons] at hnodup
      have hcategory : category ≠ .validators := fun heq => hcategories.1 heq.symm
      obtain ⟨mid, hmid⟩ := exists_writeCategory hm houtput ht hcategory
        (hfit _ List.mem_cons_self) (hready _ List.mem_cons_self) (hthere _ List.mem_cons_self)
      have hrenewed := renewed_writeCategory hc houtput ht hcategory hmid
      have hstays : ∀ other ∈ rest,
          mid.tree.entry? (place (names ++ [other.directory])) = some .directory := by
        intro other hother
        have hout : ∀ first ∈ [category],
            ¬ place (names ++ [first.directory]) <+: place (names ++ [other.directory]) := by
          intro first hfirst hbelow
          obtain rfl := List.mem_singleton.1 hfirst
          exact hnodup.1 (eq_of_below_directories hbelow List.prefix_rfl ▸ hother)
        rw [(hrenewed.others _ hout).eq_of_below List.prefix_rfl]
        exact hthere other (List.mem_cons_of_mem _ hother)
      obtain ⟨t, hrest⟩ := ih hrenewed.wellFormed hnodup.2 hcategories.2
        (fun other hother => hfit other (List.mem_cons_of_mem _ hother))
        (fun other hother => hready other (List.mem_cons_of_mem _ hother)) hstays
      exact ⟨t, execute_bind_eq_ok_iff.2 ⟨(), mid, hmid, hrest⟩⟩

end TypedClient.Emission
