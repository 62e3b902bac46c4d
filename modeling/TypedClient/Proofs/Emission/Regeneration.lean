import TypedClient.Proofs.Emission.Progress
import TypedClient.Proofs.Emission.Writing

/-!
# Generating again

What a successful run leaves on the paths that it writes depends on the document and the options
alone, neither on the tree before nor on the order in which the files were written, and a second
run changes nothing: `generate_regenerates`. The paths are those of the enabled categories, and the
index unless no category is enabled (`Covers`).
-/

namespace TypedClient.Emission

open Files Files.Path Files.Tree

/-- The paths that a run with the given options writes in its output directory: those at and below
the directories of the enabled categories, and the index. -/
def Covers (options : Options) (output q : Path) : Prop :=
  (∃ category : Category, category.isEnabled options = true ∧
      output.entry category.directory <+: q) ∨
    (options.anyCategory = true ∧ q = output.entry indexFile)

/-- Machines on which the same is written, in whatever order and with whatever failures. -/
structure Machine.Alike (m m' : Machine) : Prop where
  workingDirectory : m'.workingDirectory = m.workingDirectory
  render : m'.render = m.render
  format : m'.format = m.format

variable {m m' : Machine} {options : Options} {c : Client} {names : List String} {output : Path}
  {s t : State}

theorem Machine.Alike.jobs_eq (h : m.Alike m') (options : Options) (c : Client)
    (category : Category) : jobs m' options c category = jobs m options c category := by
  cases category <;>
    simp only [jobs, coreJobs, serviceJobs, schemaJobs, validatorJobs, modelJobs, h.render,
      h.format]

/-! ## The tree after a run -/

/-- What a tree holds after a run, and what it held before. -/
structure Settled (m : Machine) (options : Options) (c : Client) (names : List String)
    (u v : Tree) : Prop where
  wellFormed : v.WellFormed
  fit : ∀ category : Category, category.isEnabled options = true →
    Fit (names ++ [category.directory]) ∧ Ready (jobs m options c category)
  filled : ∀ category : Category, category.isEnabled options = true →
    Filled v (names ++ [category.directory]) (jobs m options c category)
  index : options.anyCategory = true →
    ∃ text, m.render .index (Page.indexContext options c) = .ok text ∧
      v.entry? (place (names ++ [indexFile])) = some (.file (.text (m.format text)))
  way : options.anyCategory = true → Fit names ∧ v.entry? (place names) = some .directory
  idle : options.anyCategory = false → v = u
  others : ∀ q, ¬ Covers options (place names) q → Grown u v names q

theorem nodup_enabled (options : Options) : (Category.all.filter (·.isEnabled options)).Nodup :=
  List.Nodup.filter _ (by decide)

theorem validators_not_mem_enabled (h : options.precompileValidator = false) :
    Category.validators ∉ Category.all.filter (·.isEnabled options) := by
  rw [mem_enabled, Category.isEnabled, h]
  exact Bool.false_ne_true

/-- The index is in no category. -/
theorem not_below_index (category : Category) :
    ¬ place (names ++ [category.directory]) <+: place (names ++ [indexFile]) := by
  intro h
  have heq := place_append_singleton_inj.1 (h.eq_of_length (by simp [place]))
  cases category <;> exact absurd heq (by decide)

/-- Writing the index makes the output directory and puts one file there. -/
theorem made_written_of_writeIndex (houtput : Straight output names)
    (hrun : execute (writeIndex options c output) m s = (.ok (), t)) :
    ∃ text made, m.render .index (Page.indexContext options c) = .ok text ∧
      Made s.tree made names ∧ Written made t.tree names indexFile (.text (m.format text)) := by
  obtain ⟨_, mid, hmake, hwrite⟩ := execute_bind_eq_ok_iff.1 hrun
  obtain ⟨_, made, hmade, rfl⟩ := execute_perform_eq_ok_iff.1 hmake
  rw [execute_read_bind] at hwrite
  obtain ⟨text, mid, hrender, hwrite⟩ := execute_bind_eq_ok_iff.1 hwrite
  rw [execute_render, Prod.mk.injEq] at hrender
  obtain ⟨hrender, rfl⟩ := hrender
  obtain ⟨_, tree, htree, rfl⟩ := execute_perform_eq_ok_iff.1 hwrite
  exact ⟨text, made, hrender, made_of_makeDirectory houtput hmade,
    written_of_writeFile houtput htree⟩

/-- Categories that were written anew, and the index after them, settle a tree. -/
theorem Renewed.settled {u mid made v : Tree} {text : String}
    (hrenewed : Renewed u mid names (jobs m options c)
      (Category.all.filter (·.isEnabled options)))
    (hany : options.anyCategory = true)
    (hrender : m.render .index (Page.indexContext options c) = .ok text)
    (hmade : Made mid made names)
    (hwritten : Written made v names indexFile (.text (m.format text))) :
    Settled m options c names u v := by
  have hindex : ∀ q, q ≠ place (names ++ [indexFile]) → Grown mid v names q := by
    intro q hq
    have hmid := grown_of_made hmade q
    rwa [Grown, ← hwritten.others q hq] at hmid
  have hbelow : ∀ (category : Category) (q : Path),
      place (names ++ [category.directory]) <+: q → v.entry? q = mid.entry? q := by
    intro category q hq
    refine (hindex q fun heq => ?_).eq_of_below hq
    exact not_below_index category (heq ▸ hq)
  constructor
  case wellFormed => exact hwritten.wellFormed (hmade.wellFormed hrenewed.wellFormed)
  case fit =>
    intro category hcategory
    obtain ⟨hfit, hfiles⟩ := hrenewed.fit category (mem_enabled.2 hcategory)
    refine ⟨hfit, hfiles, fun job hjob => ?_⟩
    obtain ⟨text, htext, _⟩ := (hrenewed.filled category (mem_enabled.2 hcategory)).files job hjob
    exact ⟨text, htext⟩
  case filled =>
    intro category hcategory
    exact (hrenewed.filled category (mem_enabled.2 hcategory)).congr (hbelow category)
  case index => exact fun _ => ⟨text, hrender, hwritten.written⟩
  case way =>
    intro _
    refine ⟨hmade.fit, ?_⟩
    rw [hwritten.others _ (by simp [place]), hwritten.directory]
  case idle =>
    intro hnone
    rw [hany] at hnone
    cases hnone
  case others =>
    intro q hq
    rw [Covers, not_or, not_exists] at hq
    have hcategories : ∀ category ∈ Category.all.filter (·.isEnabled options),
        ¬ place (names ++ [category.directory]) <+: q := by
      intro category hcategory hbelow
      refine hq.1 category ⟨mem_enabled.1 hcategory, ?_⟩
      rwa [entry_place]
    refine (hrenewed.others q hcategories).trans (hindex q fun heq => hq.2 ⟨hany, ?_⟩)
    rw [heq, entry_place]

theorem settled_writeParts (hc : c.FileNames) (houtput : Straight output names)
    (hs : s.tree.WellFormed) (hvalidators : options.precompileValidator = false)
    (hrun : execute (writeParts options c none output) m s = (.ok (), t)) :
    Settled m options c names s.tree t.tree := by
  cases hany : options.anyCategory with
  | false =>
      rw [writeParts_of_not_anyCategory hany] at hrun
      cases hrun
      have hnone : ∀ category : Category, category.isEnabled options = true → False := by
        intro category hcategory
        rw [anyCategory_of_isEnabled hcategory] at hany
        cases hany
      have hidle : options.anyCategory = true → False := by simp [hany]
      exact ⟨hs, fun category h => (hnone category h).elim,
        fun category h => (hnone category h).elim, fun h => (hidle h).elim,
        fun h => (hidle h).elim, fun _ => rfl, fun _ _ => .inl rfl⟩
  | true =>
      have hcategories := validators_not_mem_enabled hvalidators
      rw [writeParts, hany] at hrun
      obtain ⟨_, mid, hmid, hindex⟩ := execute_bind_eq_ok_iff.1 hrun
      obtain ⟨text, made, hrender, hmade, hwritten⟩ := made_written_of_writeIndex houtput hindex
      have hrenewed := renewed_forM_writeCategory hc houtput hs (nodup_enabled options)
        hcategories hmid
      exact hrenewed.settled hany hrender hmade hwritten

/-! ## Two runs -/

/-- Trees that are settled alike hold the same under the paths that were written. -/
theorem Settled.entry?_eq {u v u' v' : Tree} {q : Path} (h : Settled m options c names u v)
    (h' : Settled m' options c names u' v') (hm : m.Alike m')
    (hq : Covers options (place names) q) : v'.entry? q = v.entry? q := by
  rcases hq with ⟨category, hcategory, hq⟩ | ⟨hany, rfl⟩
  · rw [entry_place] at hq
    have hfilled := h'.filled category hcategory
    rw [hm.jobs_eq] at hfilled
    exact hfilled.entry?_eq (h.filled category hcategory) hq
  · obtain ⟨text, hrender, hindex⟩ := h.index hany
    obtain ⟨text', hrender', hindex'⟩ := h'.index hany
    rw [hm.render] at hrender'
    obtain rfl : text = text' := Except.ok.inj (hrender.symm.trans hrender')
    rw [entry_place, hindex, hindex', hm.format]

/-- Where a tree is settled, writing into it again changes nothing. -/
theorem Settled.again {u v w : Tree} (h : Settled m options c names u v)
    (h' : Settled m' options c names v w) (hm : m.Alike m') (q : Path) :
    w.entry? q = v.entry? q := by
  by_cases hq : Covers options (place names) q
  · exact h.entry?_eq h' hm hq
  · cases hany : options.anyCategory with
    | false => rw [h'.idle hany]
    | true =>
        rcases h'.others q hq with hsame | ⟨hway, hnone, _⟩
        · exact hsame
        · -- The directories on the way are there after the first run.
          have hdir := h.wellFormed.directory_of_onWay (h.way hany).2 hway
          rw [hdir] at hnone
          cases hnone

theorem exists_writeIndex (hm : m.Faultless) (houtput : Straight output names)
    (hs : s.tree.WellFormed) (hfit : Fit names)
    (hthere : s.tree.entry? (place names) = some .directory)
    (hfree : s.tree.entry? (place (names ++ [indexFile])) ≠ some .directory) {text : String}
    (hrender : m.render .index (Page.indexContext options c) = .ok text) :
    ∃ t, execute (writeIndex options c output) m s = (.ok (), t) := by
  obtain ⟨made, hmake⟩ := exists_makeDirectory houtput hfit fun q hq =>
    .inr (hs.directory_of_onWay hthere hq)
  have hmade := made_of_makeDirectory houtput hmake
  obtain ⟨mid, hmid, rfl⟩ := exists_perform hm (.makeDirectory output) hmake
  have hname : Fit (names ++ [indexFile]) :=
    fit_append_iff.2 ⟨hfit, by simpa [Fit] using (by decide : nameFault? indexFile = none)⟩
  have hway : ¬ OnWay names (place (names ++ [indexFile])) :=
    fun hway => not_prefix_of_onWay hway List.prefix_rfl
  obtain ⟨tree, hwrite⟩ := exists_writeFile (hmade.wellFormed hs) houtput hname
    (hmade.made _ ⟨names, List.prefix_rfl, rfl⟩) (by rwa [hmade.others _ hway])
    (.text (m.format text))
  obtain ⟨t, ht, _⟩ :=
    exists_perform hm (.write (output.entry indexFile) (.text (m.format text))) hwrite
  refine ⟨t, execute_bind_eq_ok_iff.2 ⟨(), mid, hmid, ?_⟩⟩
  rw [execute_read_bind, execute_bind, execute_render, hrender]
  exact ht

/-- Where a tree is settled, a disk that refuses nothing lets everything be written again. -/
theorem Settled.exists_again {u : Tree} (h : Settled m options c names u s.tree)
    (hm : m.Alike m') (hfaultless : m'.Faultless) (hc : c.FileNames)
    (houtput : Straight output names) (hvalidators : options.precompileValidator = false) :
    ∃ t, execute (writeParts options c none output) m' s = (.ok (), t) := by
  cases hany : options.anyCategory with
  | false =>
      rw [writeParts_of_not_anyCategory hany]
      exact ⟨s, rfl⟩
  | true =>
      have hcategories := validators_not_mem_enabled hvalidators
      obtain ⟨mid, hmid⟩ := exists_forM_writeCategory (c := c) hfaultless hc houtput h.wellFormed
        (nodup_enabled options) hcategories
        (fun category hcategory => (h.fit category (mem_enabled.1 hcategory)).1)
        (fun category hcategory => by
          rw [hm.jobs_eq]
          exact (h.fit category (mem_enabled.1 hcategory)).2)
        (fun category hcategory => (h.filled category (mem_enabled.1 hcategory)).directory)
      have hrenewed := renewed_forM_writeCategory hc houtput h.wellFormed (nodup_enabled options)
        hcategories hmid
      have hway : OnWay names (place names) := ⟨names, List.prefix_rfl, rfl⟩
      have hthere : mid.tree.entry? (place names) = some .directory := by
        rcases hrenewed.others _ fun category _ => not_prefix_of_onWay hway with
          hsame | ⟨_, _, hdir⟩
        · rw [hsame, (h.way hany).2]
        · exact hdir
      obtain ⟨text, hrender, hindex⟩ := h.index hany
      have hfree : mid.tree.entry? (place (names ++ [indexFile])) ≠ some .directory := by
        rcases hrenewed.others _ fun category _ => not_below_index category with
          hsame | ⟨hway, _, _⟩
        · rw [hsame, hindex]
          simp
        · exact absurd List.prefix_rfl (not_prefix_of_onWay hway)
      obtain ⟨t, ht⟩ := exists_writeIndex hfaultless houtput hrenewed.wellFormed (h.way hany).1
        hthere hfree (hm.render ▸ hrender)
      refine ⟨t, execute_bind_eq_ok_iff.2 ⟨(), mid, hmid, ?_⟩⟩
      rw [hany]
      exact ht

/-! ## Whole runs -/

/-- A run without another request function has nothing to look for before it writes. -/
theorem execute_generate_eq_ok_iff_writeParts {tree : Json} (hwrite : options.write = true)
    (hrequest : options.request = none) :
    execute (generate tree options) m s = (.ok c, t) ↔
      Client.ofTree tree options.responseSchemaAsModel = .ok c ∧
        m.workingDirectory.isBelow (Path.parse options.output) = true ∧
        execute (writeParts options c none (outputDirectory m options)) m s = (.ok (), t) := by
  have hfind : findOverride options = pure none := by rw [findOverride, hrequest]
  rw [execute_generate_eq_ok_iff hwrite, ← execute_bind_eq_ok_iff, hfind, execute_bind,
    execute_pure]

theorem Machine.Alike.outputDirectory_eq (h : m.Alike m') (options : Options) :
    outputDirectory m' options = outputDirectory m options := by
  rw [outputDirectory, outputDirectory, h.workingDirectory]

/-- The output directory is reached by names once it is normalized. -/
theorem exists_straight_outputDirectory (h : m.workingDirectory.WellFormed) (options : Options) :
    ∃ names, Straight (outputDirectory m options) names :=
  (h.join (wellFormed_parse options.output)).exists_straight

/-- What a run leaves on the paths that it covers is the same whatever was there before and in
whatever order the files are written; under all other paths everything stays, except that the
directories on the way to the output are made where they are missing; and another run changes
nothing, and does succeed if the disk refuses nothing. -/
theorem generate_regenerates {tree : Json} {s' t' : State} {c' : Client} (hm : m.Alike m')
    (hhere : m.workingDirectory.WellFormed) (hwrite : options.write = true)
    (hvalidators : options.precompileValidator = false) (hrequest : options.request = none)
    (hs : s.tree.WellFormed) (hs' : s'.tree.WellFormed)
    (hrun : execute (generate tree options) m s = (.ok c, t))
    (hrun' : execute (generate tree options) m' s' = (.ok c', t')) :
    (∀ q, Covers options (outputDirectory m options).location q →
        t'.tree.entry? q = t.tree.entry? q) ∧
      (∀ q, ¬ Covers options (outputDirectory m options).location q →
        t.tree.entry? q = s.tree.entry? q ∨
          (q <+: (outputDirectory m options).location ∧ s.tree.entry? q = none ∧
            t.tree.entry? q = some .directory)) ∧
      ∀ (again : Machine) (start : State), m.Alike again → start.tree = t.tree →
        (∀ last, execute (generate tree options) again start = (.ok c, last) →
          ∀ q, last.tree.entry? q = t.tree.entry? q) ∧
        (again.Faultless →
          ∃ last, execute (generate tree options) again start = (.ok c, last)) := by
  obtain ⟨names, houtput⟩ := exists_straight_outputDirectory hhere options
  obtain ⟨hc, hbelow, hparts⟩ := (execute_generate_eq_ok_iff_writeParts hwrite hrequest).1 hrun
  obtain ⟨hc', _, hparts'⟩ := (execute_generate_eq_ok_iff_writeParts hwrite hrequest).1 hrun'
  obtain rfl : c = c' := Except.ok.inj (hc.symm.trans hc')
  rw [hm.outputDirectory_eq] at hparts'
  have hnames := Client.fileNames_of_ofTree hc
  have hsettled := settled_writeParts hnames houtput hs hvalidators hparts
  have hsettled' := settled_writeParts hnames houtput hs' hvalidators hparts'
  rw [houtput.location_eq]
  refine ⟨fun q hq => hsettled.entry?_eq hsettled' hm hq, fun q hq => ?_, ?_⟩
  · rcases hsettled.others q hq with hsame | ⟨⟨before, hbefore, rfl⟩, hnone, hdir⟩
    · exact .inl hsame
    · refine .inr ⟨?_, hnone, hdir⟩
      exact List.cons_prefix_cons.2 ⟨rfl, hbefore.map _⟩
  · intro again start hagain hstart
    have hgenerate : ∀ last, execute (generate tree options) again start = (.ok c, last) ↔
        execute (writeParts options c none (outputDirectory m options)) again start =
          (.ok (), last) := by
      intro last
      rw [execute_generate_eq_ok_iff_writeParts hwrite hrequest, hagain.workingDirectory,
        hagain.outputDirectory_eq]
      simp [hc, hbelow]
    rw [← hstart] at hsettled
    constructor
    · intro last hlast q
      have hagainSettled := settled_writeParts hnames houtput hsettled.wellFormed hvalidators
        ((hgenerate last).1 hlast)
      rw [← hstart]
      exact hsettled.again hagainSettled hagain q
    · intro hfaultless
      obtain ⟨last, hlast⟩ :=
        hsettled.exists_again hagain hfaultless hnames houtput hvalidators
      exact ⟨last, (hgenerate last).2 hlast⟩

/-! ## Runs from two disks -/

/-- A disk with an index of the given text in the directory `/work/out`. -/
def indexed (text : String) : Tree where
  entries :=
    [([.root, .name "work"], .directory), ([.root, .name "work", .name "out"], .directory),
      ([.root, .name "work", .name "out", .name indexFile], .file (.text text))]

theorem wellFormed_empty : ({} : Tree).WellFormed := by
  intro path e he hroot
  rw [entry?_of_ne_root hroot] at he
  cases he

theorem wellFormed_indexed (text : String) : (indexed text).WellFormed := by
  have hout : Straight [.root, .name "work", .name "out"] ["work", "out"] :=
    ⟨[.root], rfl, by simp⟩
  have hmake : ({} : Tree).makeDirectory [.root, .name "work", .name "out"] =
      .ok ⟨[([.root, .name "work"], .directory),
        ([.root, .name "work", .name "out"], .directory)]⟩ := rfl
  have hmade := (made_of_makeDirectory hout hmake).wellFormed wellFormed_empty
  have hwrite : Tree.writeFile ⟨[([.root, .name "work"], .directory),
      ([.root, .name "work", .name "out"], .directory)]⟩
      (Path.entry [.root, .name "work", .name "out"] indexFile) (.text text) =
        .ok (indexed text) := rfl
  exact (written_of_writeFile hout hwrite).wellFormed hmade

/-- A document with one definition. -/
def kindDocument : Json :=
  .object [("openapi", .string "3.0.0"), ("components", .object [("schemas",
    .object [("Kind", .object [("enum", .array [.string "cat", .string "dog"])])])])]

/-- The workshop with files written in the opposite order. -/
def backwards : Machine :=
  { workshop with schedule := List.reverse, schedule_perm := List.reverse_perm }

theorem generate_regenerates_out :
    ∃ c c' t t',
      execute (generate kindDocument { output := "out" }) workshop { tree := {} } = (.ok c, t) ∧
      execute (generate kindDocument { output := "out" }) backwards
        { tree := indexed "stale" } = (.ok c', t') ∧
      ∀ q, Covers { output := "out" }
          (outputDirectory workshop { output := "out" }).location q →
        t'.tree.entry? q = t.tree.entry? q := by
  have hok : (execute (generate kindDocument { output := "out" }) workshop
      { tree := {} }).1.isOk = true := by decide +kernel
  have hok' : (execute (generate kindDocument { output := "out" }) backwards
      { tree := indexed "stale" }).1.isOk = true := by decide +kernel
  obtain ⟨c, t, hrun⟩ := exists_of_isOk hok
  obtain ⟨c', t', hrun'⟩ := exists_of_isOk hok'
  have halike : workshop.Alike backwards := ⟨rfl, rfl, rfl⟩
  have hhere : workshop.workingDirectory.WellFormed := by decide
  have hsame := generate_regenerates halike hhere rfl rfl rfl wellFormed_empty
    (wellFormed_indexed "stale") hrun hrun'
  exact ⟨c, c', t, t', hrun, hrun', hsame.1⟩

/-- Options that enable no category. -/
def unselected : Options :=
  { output := "out", exportCore := false, exportServices := false, exportModels := false }

/-- Without categories no index is written, so that two disks keep different ones. -/
theorem index_not_regenerated :
    unselected.write = true ∧ unselected.precompileValidator = false ∧
      unselected.request = none ∧ workshop.workingDirectory.WellFormed ∧
      (indexed "first").WellFormed ∧ (indexed "second").WellFormed ∧
      ∃ c t t',
        execute (generate bareDocument unselected) workshop { tree := indexed "first" } =
          (.ok c, t) ∧
        execute (generate bareDocument unselected) workshop { tree := indexed "second" } =
          (.ok c, t') ∧
        t.tree.entry? ((outputDirectory workshop unselected).location.entry indexFile) ≠
          t'.tree.entry? ((outputDirectory workshop unselected).location.entry indexFile) := by
  refine ⟨rfl, rfl, rfl, by decide, wellFormed_indexed _, wellFormed_indexed _,
    _, _, _, rfl, rfl, ?_⟩
  decide

end TypedClient.Emission
