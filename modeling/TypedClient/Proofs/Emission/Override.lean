import TypedClient.Proofs.Emission.Regeneration
import TypedClient.Proofs.Emission.Safety

/-!
# The file that replaces the request function

A file can be named that is to take the place of the request function. If it is not there, the run
is refused before anything is touched. If it is there and not in the directory of the core, it is
still there when it is copied, and the core holds what it held: `override_honoured`. In the
directory of the core, however, it is removed together with that directory.
-/

namespace TypedClient.Emission

open Files Files.Path Files.Tree

variable {m : Machine} {options : Options} {c : Client} {s t : State} {core path : Path}
  {names pathNames : List String} {contents : Contents}

/-- Where the file is looked for that is to take the place of the request function. -/
def overridePath (m : Machine) (request : String) : Path :=
  (m.workingDirectory.join (Path.parse request)).normalize

/-- A file outlives the renewal of a directory if it is outside it, and only then. -/
theorem readFile_acquire_iff (hs : s.tree.WellFormed) (hpath : Straight path pathNames)
    (hread : s.tree.readFile path = .ok contents) (hcore : Straight core names)
    (hnames : names ≠ [])
    (hrun : execute (acquire core) m s = (.ok (), t)) :
    t.tree.readFile path = .ok contents ↔ ¬ place names <+: place pathNames := by
  obtain ⟨bare, hremoved, hmade⟩ := removed_made_of_acquire hcore hs hnames hrun
  obtain ⟨he, hfit⟩ := (readFile_eq_ok_iff hs hpath).1 hread
  rw [readFile_eq_ok_iff (hmade.wellFormed hremoved.wellFormed) hpath]
  constructor
  · rintro ⟨hkept, -⟩ hinside
    by_cases hway : OnWay names (place pathNames)
    · rw [hmade.made _ hway] at hkept
      cases hkept
    · rw [hmade.others _ hway, hremoved.gone _ hinside] at hkept
      cases hkept
  · intro houtside
    refine ⟨?_, hfit⟩
    have hbare : bare.entry? (place pathNames) = some (.file contents) := by
      rw [hremoved.others _ houtside, he]
    have hway : ¬ OnWay names (place pathNames) := by
      intro hway
      rcases hmade.free _ hway with hnone | hdir
      · rw [hbare] at hnone
        cases hnone
      · rw [hbare] at hdir
        cases hdir
    rw [hmade.others _ hway, hbare]

/-- What is there when the file is to be copied: the file itself, and a place for it. -/
structure ReadyToCopy (v : Tree) (names : List String) (path : Path) (contents : Contents) :
    Prop where
  wellFormed : v.WellFormed
  source : v.readFile path = .ok contents
  fit : Fit (names ++ [requestFile])
  directory : v.entry? (place names) = some .directory
  target : v.entry? (place (names ++ [requestFile])) ≠ some .directory

theorem readyToCopy_of_execute (hs : s.tree.WellFormed) (hpath : Straight path pathNames)
    (hread : s.tree.readFile path = .ok contents) (hcore : Straight core names)
    (hnames : names ≠ [])
    (houtside : ¬ place names <+: place pathNames)
    (hrun : execute (acquire core >>= fun _ => writeJobs core (coreJobs m options c)) m s =
      (.ok (), t)) : ReadyToCopy t.tree names path contents := by
  obtain ⟨_, bare, hacquire, hwrite⟩ := execute_bind_eq_ok_iff.1 hrun
  obtain ⟨_, hremoved, hmade⟩ := removed_made_of_acquire hcore hs hnames hacquire
  have hbare := hmade.wellFormed hremoved.wellFormed
  have hkept := (readFile_acquire_iff hs hpath hread hcore hnames hacquire).2 houtside
  have hfiles := filesWritten_of_writeJobs hcore hbare nodup_files_coreJobs hwrite
  have hothers : ∀ q, ¬ place names <+: q → t.tree.entry? q = bare.tree.entry? q :=
    fun q hq => hfiles.others q fun job _ heq => hq (by simp [heq])
  have hjob : ∃ job ∈ coreJobs m options c, job.file = requestFile := by
    simp [coreJobs, coreFiles]
  obtain ⟨job, hjob, hfile⟩ := hjob
  obtain ⟨text, _, hentry⟩ := hfiles.files job hjob
  rw [hfile] at hentry
  constructor
  case wellFormed => exact hfiles.wellFormed
  case source =>
    rw [readFile_eq_ok_iff hbare hpath] at hkept
    rwa [readFile_eq_ok_iff hfiles.wellFormed hpath, hothers _ houtside]
  case fit =>
    have hname : nameFault? requestFile = none := by decide
    exact fit_append_iff.2 ⟨hmade.fit, by simpa [Fit] using hname⟩
  case directory =>
    rw [hfiles.others _ fun job _ => by simp [place], hmade.made _ ⟨_, List.prefix_rfl, rfl⟩]
  case target =>
    rw [hentry]
    simp

/-- The copy of a file that is ready to be copied is refused by no tree. -/
theorem ReadyToCopy.exists_apply {v : Tree} (h : ReadyToCopy v names path contents)
    (hpath : Straight path pathNames) (hcore : Straight core names)
    (houtside : ¬ place names <+: place pathNames) :
    ∃ w, (Call.copy path (core.entry requestFile)).apply v = .ok w ∧
      w.readFile (core.entry requestFile) = .ok contents := by
  have hne : pathNames ≠ names ++ [requestFile] := by
    rintro rfl
    exact houtside (by simp)
  obtain ⟨w, hcopy, hw, hentry⟩ := exists_copyFile h.wellFormed hpath h.source hcore h.fit
    h.directory h.target hne
  exact ⟨w, hcopy, (readFile_eq_ok_iff hw (hcore.entry requestFile)).2 ⟨hentry, h.fit⟩⟩

/-- The core takes over what a file held: it holds that once it is completed, and the file cannot
fail to be copied unless the disk refuses the copy on its own account. -/
structure TakesOver (m : Machine) (options : Options) (c : Client) (path output : Path)
    (contents : Contents) (s : State) : Prop where
  taken : ∀ t, execute (writeCategory options c (some path) output .core) m s = (.ok (), t) →
    t.tree.readFile ((output.entry Category.core.directory).entry requestFile) = .ok contents
  copied : ∀ before after e,
    execute (acquire (output.entry Category.core.directory) >>= fun _ =>
      writeJobs (output.entry Category.core.directory) (coreJobs m options c)) m s =
        (.ok (), before) →
    execute (perform (.copy path ((output.entry Category.core.directory).entry requestFile))) m
      before = (.error e, after) →
    ∃ n, m.fault? n (.copy path ((output.entry Category.core.directory).entry requestFile)) = some e

theorem takesOver_of_outside {output : Path} (hs : s.tree.WellFormed)
    (hpath : Straight path pathNames) (hread : s.tree.readFile path = .ok contents)
    (houtput : Straight output names)
    (houtside : ¬ place (names ++ [Category.core.directory]) <+: place pathNames) :
    TakesOver m options c path output contents s := by
  have hcore := houtput.entry Category.core.directory
  constructor
  case taken =>
    intro t hrun
    obtain ⟨_, bare, hacquire, hfill⟩ := execute_bind_eq_ok_iff.1 hrun
    change execute (writeJobs (output.entry Category.core.directory) (coreJobs m options c) >>=
      fun _ => perform (.copy path _)) m bare = _ at hfill
    obtain ⟨_, before, hwrite, hcopy⟩ := execute_bind_eq_ok_iff.1 hfill
    have hready := readyToCopy_of_execute hs hpath hread hcore (by simp) houtside
      (execute_bind_eq_ok_iff.2 ⟨_, bare, hacquire, hwrite⟩)
    obtain ⟨w, happly, hw⟩ := hready.exists_apply hpath hcore houtside
    obtain ⟨_, tree, htree, rfl⟩ := execute_perform_eq_ok_iff.1 hcopy
    obtain rfl : w = tree := Except.ok.inj (happly.symm.trans htree)
    exact hw
  case copied =>
    intro before after e hbefore hcopy
    have hready := readyToCopy_of_execute hs hpath hread hcore (by simp) houtside hbefore
    obtain ⟨w, happly, _⟩ := hready.exists_apply hpath hcore houtside
    rw [execute_perform, happly] at hcopy
    refine ⟨before.events.length, ?_⟩
    split at hcopy
    · rename_i e' hfault
      cases hcopy
      exact hfault
    · cases hcopy

/-! ## Whole runs -/

/-- What a run writes after the core. -/
def afterCore (options : Options) (c : Client) (override : Option Path) (output : Path) :
    Run Unit := do
  (Category.all.tail.filter (·.isEnabled options)).forM (writeCategory options c override output)
  if options.anyCategory then writeIndex options c output

/-- The core is what is written first. -/
theorem execute_writeParts_core (hcore : options.exportCore = true) (override : Option Path)
    (output : Path) (s : State) :
    execute (writeParts options c override output) m s =
      execute (writeCategory options c override output .core >>= fun _ =>
        afterCore options c override output) m s := by
  have hfilter : Category.all.filter (·.isEnabled options) =
      .core :: Category.all.tail.filter (·.isEnabled options) := by
    simp [Category.all, Category.isEnabled, hcore]
  rw [writeParts, hfilter]
  change execute
    ((writeCategory options c override output .core >>= fun _ => _) >>= fun _ => _) m s =
    _
  rw [bind_assoc]
  rfl

theorem findOverride_eq {request : String} (hcore : options.exportCore = true)
    (hrequest : options.request = some request) (s : State) :
    execute (findOverride options) m s =
      (if s.tree.has (overridePath m request) then .ok (some (overridePath m request))
        else .error (.missingRequestFile (overridePath m request)),
      s.noting (.exists (overridePath m request))) := by
  unfold findOverride
  simp only [hrequest, hcore, if_true]
  rw [execute_read_bind, execute_bind]
  change execute (if s.tree.has (overridePath m request) then _ else _) m
    (s.noting (.exists (overridePath m request))) = _
  split <;> rfl

theorem has_of_readFile (h : s.tree.readFile path = .ok contents) : s.tree.has path = true := by
  rw [readFile] at h
  rw [has]
  cases hresolve : s.tree.resolve path with
  | error fault =>
      rw [hresolve] at h
      cases h
  | ok p =>
      simp only [hresolve, bind, Except.bind] at h
      split at h
      · cases h
      · simp_all
      · simp_all

/-- A file that is to take the place of the request function has to be there, or the run is refused
and nothing is touched. If it is there, a run that passes the checks begins with the core. The file
is still there when the directory of the core is made anew exactly if it is not inside that, and
then the core takes over what the file held before the run. -/
theorem override_honoured {request : String} (hhere : m.workingDirectory.WellFormed)
    (hs : s.tree.WellFormed) (hcore : options.exportCore = true)
    (hrequest : options.request = some request) :
    (s.tree.has (overridePath m request) = false →
      (∃ e, (execute (writeClient c options) m s).1 = .error e ∧ e.isRejection = true) ∧
        Untouched s (execute (writeClient c options) m s).2) ∧
    ∀ contents, s.tree.readFile (overridePath m request) = .ok contents →
      m.workingDirectory.isBelow (Path.parse options.output) = true →
      execute (writeClient c options) m s =
        execute (writeCategory options c (some (overridePath m request))
          (outputDirectory m options) .core >>= fun _ =>
            afterCore options c (some (overridePath m request)) (outputDirectory m options)) m
          (s.noting (.exists (overridePath m request))) ∧
      (∀ bare, execute (acquire ((outputDirectory m options).entry Category.core.directory)) m
          (s.noting (.exists (overridePath m request))) = (.ok (), bare) →
        (bare.tree.readFile (overridePath m request) = .ok contents ↔
          ¬ ((outputDirectory m options).entry Category.core.directory).location <+:
            (overridePath m request).location)) ∧
      (¬ ((outputDirectory m options).entry Category.core.directory).location <+:
          (overridePath m request).location →
        TakesOver m options c (overridePath m request) (outputDirectory m options) contents
          (s.noting (.exists (overridePath m request)))) := by
  have hfind := findOverride_eq (m := m) hcore hrequest s
  constructor
  · intro hmissing
    rw [hmissing] at hfind
    rw [execute_writeClient]
    split
    · rw [execute_bind, hfind]
      exact ⟨⟨_, rfl, rfl⟩, rfl, [_], rfl, by simp [Event.IsLook]⟩
    · exact ⟨⟨_, rfl, rfl⟩, .refl s⟩
  intro contents hread hbelow
  rw [has_of_readFile hread] at hfind
  obtain ⟨names, houtput⟩ := exists_straight_outputDirectory hhere options
  obtain ⟨pathNames, hpath⟩ : ∃ pathNames, Straight (overridePath m request) pathNames :=
    (hhere.join (wellFormed_parse request)).exists_straight
  have hdir := houtput.entry Category.core.directory
  rw [hdir.location_eq, hpath.location_eq]
  refine ⟨?_, ?_, ?_⟩
  · rw [execute_writeClient, if_pos hbelow, execute_bind, hfind]
    exact execute_writeParts_core hcore _ _ _
  · exact fun bare hrun =>
      readFile_acquire_iff (s := s.noting _) hs hpath hread hdir (by simp) hrun
  · exact takesOver_of_outside hs hpath hread houtput

/-- A disk with a file in the directory `/work`. -/
def customized : Tree :=
  ⟨[([.root, .name "work"], .directory),
    ([.root, .name "work", .name "custom.ts"], .file (.text "// custom\n"))]⟩

theorem wellFormed_customized : customized.WellFormed := by
  apply wellFormed_of_entries
  intro entry hentry
  simp only [customized, List.mem_cons, List.not_mem_nil, or_false] at hentry
  rcases hentry with rfl | rfl
  · exact ⟨[.root], "work", rfl, rfl⟩
  · exact ⟨[.root, .name "work"], "custom.ts", rfl, rfl⟩

theorem override_honoured_customized :
    customized.readFile [.root, .name "work", .name "custom.ts"] = .ok (.text "// custom\n") ∧
      TakesOver workshop { output := "out", request := some "custom.ts" } ⟨"1", "", [], []⟩
        [.root, .name "work", .name "custom.ts"] [.root, .name "work", .name "out"]
        (.text "// custom\n")
        (State.noting { tree := customized } (.exists [.root, .name "work", .name "custom.ts"])) := by
  have hhere : workshop.workingDirectory.WellFormed := by decide
  obtain ⟨-, hhonoured⟩ := @override_honoured workshop
    { output := "out", request := some "custom.ts" } ⟨"1", "", [], []⟩ { tree := customized }
    "custom.ts" hhere wellFormed_customized rfl rfl
  refine ⟨rfl, ?_⟩
  exact (hhonoured (.text "// custom\n") rfl (by decide +kernel)).2.2 (by decide +kernel)

/-- Options that name a file of the core itself. -/
def coreRequest : Options :=
  { output := "out", exportServices := false, exportModels := false
    request := some "out/core/request.ts" }

/-- A disk with a request function in the directory of the core. -/
def generated : Tree :=
  ⟨[([.root, .name "work"], .directory), ([.root, .name "work", .name "out"], .directory),
    ([.root, .name "work", .name "out", .name "core"], .directory),
    ([.root, .name "work", .name "out", .name "core", .name "request.ts"],
      .file (.text "// custom\n"))]⟩

/-- A file in the directory of the core is lost: the core is completed with an empty one. -/
theorem not_takesOver_generated :
    generated.readFile (overridePath workshop "out/core/request.ts") = .ok (.text "// custom\n") ∧
      ∃ c, Client.ofTree bareDocument coreRequest.responseSchemaAsModel = .ok c ∧
        ¬ TakesOver workshop coreRequest c (overridePath workshop "out/core/request.ts")
          (outputDirectory workshop coreRequest) (.text "// custom\n")
          (State.noting { tree := generated }
            (.exists (overridePath workshop "out/core/request.ts"))) := by
  refine ⟨rfl, _, rfl, fun h => ?_⟩
  have htaken := congrArg Except.toOption (h.taken _ rfl)
  revert htaken
  decide +kernel

end TypedClient.Emission
