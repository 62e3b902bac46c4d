import TypedClient.Proofs.Emission.Compiling
import TypedClient.Proofs.Emission.Regeneration

/-!
# What a run leaves

After a successful run the directory of every enabled category holds its files and nothing else,
the one of the validators their modules, and the index is there (`Complete`,
`complete_writeParts`). This holds with the validator compiler as well as without it, whatever else
the compiler leaves in its directory.
-/

namespace TypedClient.Emission

open Files Files.Path Files.Tree

variable {m : Machine} {options : Options} {c : Client} {names : List String} {output : Path}
  {s t : State} {category : Category}

/-- What a category leaves in its directory. A validator may be gone if its module goes by the name
of an input. -/
def Leaves (m : Machine) (options : Options) (c : Client) (names : List String) (v : Tree)
    (category : Category) : Prop :=
  if category = .validators then
    ∀ model ∈ c.models, validatorFile model ∉ (validatorJobs m options c).map (·.file) →
      ∃ contents, v.entry? (place (names ++ [category.directory] ++ [validatorFile model])) =
        some (.file contents)
  else Filled v (names ++ [category.directory]) (jobs m options c category)

/-- What a category leaves depends on its directory only. -/
theorem Leaves.congr {v w : Tree} (h : Leaves m options c names v category)
    (hsame : ∀ q, place (names ++ [category.directory]) <+: q → w.entry? q = v.entry? q) :
    Leaves m options c names w category := by
  unfold Leaves at h ⊢
  split
  · rename_i hvalidators
    rw [if_pos hvalidators] at h
    intro model hmodel hinput
    obtain ⟨contents, hentry⟩ := h model hmodel hinput
    exact ⟨contents, by rw [hsame _ (by simp [place]), hentry]⟩
  · rename_i hother
    rw [if_neg hother] at h
    exact h.congr hsame

/-- Some categories were written in a directory, and all around them only grew. -/
structure Completed (m : Machine) (options : Options) (c : Client) (names : List String)
    (u v : Tree) (categories : List Category) : Prop where
  wellFormed : v.WellFormed
  leaves : ∀ category ∈ categories, Leaves m options c names v category
  others : ∀ q, (∀ category ∈ categories, ¬ place (names ++ [category.directory]) <+: q) →
    Grown u v names q

namespace Completed

theorem nil {u : Tree} (hu : u.WellFormed) : Completed m options c names u u [] :=
  ⟨hu, by simp, fun _ _ => .inl rfl⟩

/-- Categories that are written later leave the earlier ones alone. -/
theorem cons {u v w : Tree} {rest : List Category}
    (hfirst : Completed m options c names u v [category])
    (hrest : Completed m options c names v w rest) (hnew : category ∉ rest) :
    Completed m options c names u w (category :: rest) := by
  constructor
  case wellFormed => exact hrest.wellFormed
  case leaves =>
    refine List.forall_mem_cons.2 ⟨?_, hrest.leaves⟩
    refine (hfirst.leaves category List.mem_cons_self).congr fun q hq => ?_
    refine (hrest.others q fun other hother hbelow => ?_).eq_of_below hq
    exact hnew (eq_of_below_directories hq hbelow ▸ hother)
  case others =>
    intro q hq
    obtain ⟨hout, hrestOut⟩ := List.forall_mem_cons.1 hq
    exact (hfirst.others q (List.forall_mem_singleton.2 hout)).trans (hrest.others q hrestOut)

end Completed

theorem completed_of_renewed {u v : Tree} (hcategory : category ≠ .validators)
    (h : Renewed u v names (jobs m options c) [category]) :
    Completed m options c names u v [category] where
  wellFormed := h.wellFormed
  leaves := by
    rw [List.forall_mem_singleton, Leaves, if_neg hcategory]
    exact h.filled category List.mem_cons_self
  others := h.others

/-- The program that is started as the validator compiler is one. -/
def CompilerFits (m : Machine) (options : Options) (c : Client) (output : Path) : Prop :=
  ∀ program, m.program? options.validatorRuntime = some program →
    CompilesValidators program (output.entry Category.validators.directory) c

theorem completed_validators (houtput : Straight output names) (hs : s.tree.WellFormed)
    (hcompiler : CompilerFits m options c output)
    (hrun : execute (writeCategory options c none output .validators) m s = (.ok (), t)) :
    Completed m options c names s.tree t.tree [.validators] := by
  have hdir : Straight (output.entry Category.validators.directory)
      (names ++ [Category.validators.directory]) := houtput.entry _
  obtain ⟨_, mid, hacquire, hfill⟩ := execute_bind_eq_ok_iff.1 hrun
  obtain ⟨bare, hremoved, hmade⟩ := removed_made_of_acquire hdir hs (by simp) hacquire
  obtain ⟨hchanged, hmodules⟩ := compiled_of_writeValidators hdir
    (hmade.wellFormed hremoved.wellFormed) hcompiler hfill
  constructor
  case wellFormed => exact hchanged.wellFormed
  case leaves =>
    rw [List.forall_mem_singleton, Leaves, if_pos rfl]
    exact hmodules
  case others =>
    intro q hq
    rw [List.forall_mem_singleton] at hq
    exact grown_of_remade hremoved hmade (hchanged.outside q hq) hq

/-- Whatever category is written, it leaves what it should. -/
theorem completed_writeCategory (hc : c.FileNames) (houtput : Straight output names)
    (hs : s.tree.WellFormed)
    (hcompiler : category = .validators → CompilerFits m options c output)
    (hrun : execute (writeCategory options c none output category) m s = (.ok (), t)) :
    Completed m options c names s.tree t.tree [category] := by
  by_cases hcategory : category = .validators
  · subst hcategory
    exact completed_validators houtput hs (hcompiler rfl) hrun
  · exact completed_of_renewed hcategory (renewed_writeCategory hc houtput hs hcategory hrun)

theorem completed_forM_writeCategory (hc : c.FileNames) (houtput : Straight output names)
    (hs : s.tree.WellFormed) {categories : List Category} (hnodup : categories.Nodup)
    (hcompiler : Category.validators ∈ categories → CompilerFits m options c output)
    (hrun : execute (categories.forM (writeCategory options c none output)) m s = (.ok (), t)) :
    Completed m options c names s.tree t.tree categories := by
  induction categories generalizing s with
  | nil =>
      cases hrun
      exact .nil hs
  | cons category rest ih =>
      rw [List.nodup_cons] at hnodup
      obtain ⟨_, mid, hfirst, hrest⟩ := execute_bind_eq_ok_iff.1 hrun
      have hcompleted := completed_writeCategory hc houtput hs
        (fun heq => hcompiler (heq ▸ List.mem_cons_self)) hfirst
      refine hcompleted.cons (ih hcompleted.wellFormed hnodup.2 ?_ hrest) hnodup.1
      exact fun hmem => hcompiler (List.mem_cons_of_mem _ hmem)

/-! ## Whole runs -/

/-- What a run leaves in its output directory. -/
structure Complete (m : Machine) (options : Options) (c : Client) (names : List String)
    (v : Tree) : Prop where
  wellFormed : v.WellFormed
  leaves : ∀ category : Category, category.isEnabled options = true →
    Leaves m options c names v category
  index : options.anyCategory = true →
    ∃ text, m.render .index (Page.indexContext options c) = .ok text ∧
      v.entry? (place (names ++ [indexFile])) = some (.file (.text (m.format text)))

/-- A category that is enabled holds its files. -/
theorem Complete.filled {v : Tree} (h : Complete m options c names v) (category : Category)
    (henabled : category.isEnabled options = true) (hother : category ≠ .validators) :
    Filled v (names ++ [category.directory]) (jobs m options c category) := by
  have hleaves := h.leaves category henabled
  rwa [Leaves, if_neg hother] at hleaves

/-- The index leaves the categories before it alone. -/
theorem Completed.complete {u mid made v : Tree} {text : String}
    (h : Completed m options c names u mid (Category.all.filter (·.isEnabled options)))
    (hrender : m.render .index (Page.indexContext options c) = .ok text)
    (hmade : Made mid made names)
    (hwritten : Written made v names indexFile (.text (m.format text))) :
    Complete m options c names v where
  wellFormed := hwritten.wellFormed (hmade.wellFormed h.wellFormed)
  leaves category hcategory := by
    refine (h.leaves category (mem_enabled.2 hcategory)).congr fun q hq => ?_
    rw [hwritten.others q fun heq => not_below_index category (heq ▸ hq)]
    exact (grown_of_made hmade q).eq_of_below hq
  index _ := ⟨text, hrender, hwritten.written⟩

/-- A successful run leaves everything that it is to write. -/
theorem complete_writeParts (hc : c.FileNames) (houtput : Straight output names)
    (hs : s.tree.WellFormed)
    (hcompiler : options.precompileValidator = true → CompilerFits m options c output)
    (hrun : execute (writeParts options c none output) m s = (.ok (), t)) :
    Complete m options c names t.tree := by
  cases hany : options.anyCategory with
  | false =>
      rw [writeParts_of_not_anyCategory hany] at hrun
      cases hrun
      refine ⟨hs, fun category hcategory => ?_, fun h => ?_⟩
      · rw [anyCategory_of_isEnabled hcategory] at hany
        cases hany
      · rw [hany] at h
        cases h
  | true =>
      rw [writeParts, hany] at hrun
      obtain ⟨_, mid, hmid, hindex⟩ := execute_bind_eq_ok_iff.1 hrun
      obtain ⟨text, made, hrender, hmade, hwritten⟩ := made_written_of_writeIndex houtput hindex
      have hcompleted := completed_forM_writeCategory hc houtput hs (nodup_enabled options)
        (fun hmem => hcompiler (mem_enabled.1 hmem)) hmid
      exact hcompleted.complete hrender hmade hwritten

end TypedClient.Emission
