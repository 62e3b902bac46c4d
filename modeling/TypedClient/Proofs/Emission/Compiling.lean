import TypedClient.Proofs.Emission.Filling
import TypedClient.Proofs.Emission.Order

/-!
# What the validator compiler leaves

The validator compiler is a program that is not ours. `CompilesValidators` says what is asked of it:
it stays in the directory that it is started in, and leaves a module for every model there unless
its exit code says otherwise. If the compilation succeeds, these modules are there in the end, and
outside of the directory nothing has changed (`compiled_of_writeValidators`). Only a module that
goes by the name of an input may be missing, as the inputs are removed.
-/

namespace TypedClient.Emission

open Files Files.Path Files.Tree

/-- The module in which the compiler leaves the validator of a model. -/
def validatorFile (model : Model) : String := model.name ++ ".js"

/-- A program that stays in the directory that it is started in, and with an exit code of zero
leaves the validators of all models there. -/
structure CompilesValidators (program : Program) (dir : Path) (c : Client) : Prop where
  wellFormed : ∀ u : Tree, u.WellFormed → (program dir u).1.WellFormed
  outside : ∀ (u : Tree) (q : Path), ¬ dir.location <+: q →
    Tree.entry? (program dir u).1 q = u.entry? q
  leaves : ∀ u : Tree, u.WellFormed → (program dir u).2 = 0 → ∀ model ∈ c.models,
    ∃ contents, Tree.entry? (program dir u).1 (dir.location.entry (validatorFile model)) =
      some (.file contents)

variable {m : Machine} {s t : State} {dir : Path} {names : List String}

/-! ## Acts in a directory -/

/-- A tree changes at a place and below it only. -/
structure ChangedAt (u v : Tree) (names : List String) : Prop where
  wellFormed : v.WellFormed
  outside : ∀ q, ¬ place names <+: q → v.entry? q = u.entry? q

theorem ChangedAt.refl {u : Tree} (hu : u.WellFormed) : ChangedAt u u names := ⟨hu, fun _ _ => rfl⟩

theorem ChangedAt.trans {u v w : Tree} (h : ChangedAt u v names) (h' : ChangedAt v w names) :
    ChangedAt u w names :=
  ⟨h'.wellFormed, fun q hq => (h'.outside q hq).trans (h.outside q hq)⟩

/-- What changes at a file changes in its directory. -/
theorem ChangedAt.in_directory {u v : Tree} {name : String}
    (h : ChangedAt u v (names ++ [name])) : ChangedAt u v names := by
  refine ⟨h.wellFormed, fun q hq => h.outside q fun hbelow => hq (List.IsPrefix.trans ?_ hbelow)⟩
  rw [place_append]
  exact List.prefix_append _ _

/-- A call that fails changes nothing. -/
theorem tree_of_perform_error {call : Call} {e : Error}
    (h : execute (perform call) m s = (.error e, t)) : t.tree = s.tree := by
  rw [execute_perform] at h
  split at h
  · cases h
    rfl
  · split at h
    · cases h
    · cases h
      rfl

theorem changedAt_of_removeFile {u v : Tree} {name : String} (hdir : Straight dir names)
    (hu : u.WellFormed) (h : u.removeFile (dir.entry name) = .ok v) :
    ChangedAt u v (names ++ [name]) := by
  rw [removeFile] at h
  cases hresolve : u.resolve (dir.entry name) with
  | error fault => rw [hresolve] at h; cases h
  | ok p =>
      obtain ⟨rfl, _⟩ := eq_place_of_resolve (hdir.entry name) hresolve
      simp only [hresolve, bind, Except.bind] at h
      split at h
      · cases h
      · cases h
      · cases h
        have hremoved : Removed u (u.erase (place (names ++ [name]))) (names ++ [name]) :=
          removed_erase hu (by simp)
        exact ⟨hremoved.wellFormed, hremoved.others⟩

/-- An act that writes or removes a file directly in a directory. -/
inductive Act.Touches (dir : Path) (name : String) : Act → Prop where
  | write (contents : Contents) (failure : Option Error) :
      Touches dir name (.call (.write (dir.entry name) contents) failure)
  | remove (failure : Option Error) : Touches dir name (.call (.remove (dir.entry name)) failure)

theorem Act.Cleans.touches {act : Act} {files : List String} (h : act.Cleans dir files) :
    ∃ name ∈ files, act.Touches dir name := by
  obtain ⟨file, hfile, hevent⟩ := h
  cases act with
  | look path => cases hevent
  | run name directory outcome => cases hevent
  | call call failure =>
      cases hevent
      exact ⟨file, hfile, .remove failure⟩

/-- Writing or removing a file changes nothing beside it. -/
theorem Act.Touches.changedAt {act : Act} {name : String} (hact : act.Touches dir name)
    (hdir : Straight dir names) (hs : s.tree.WellFormed) (h : Happens m s act t) :
    ChangedAt s.tree t.tree (names ++ [name]) := by
  have hcall : ∀ {call : Call} {failure : Option Error}, Happens m s (.call call failure) t →
      t.tree = s.tree ∨ call.apply s.tree = .ok t.tree := by
    intro call failure h
    cases h with
    | call h =>
        cases failure with
        | some e => exact .inl (tree_of_perform_error h)
        | none =>
            obtain ⟨_, tree, happly, rfl⟩ := execute_perform_eq_ok_iff.1 h
            exact .inr happly
  cases hact with
  | write contents failure =>
      rcases hcall h with hsame | happly
      · rw [hsame]
        exact .refl hs
      · have hwritten := written_of_writeFile hdir happly
        refine ⟨hwritten.wellFormed hs, fun q hq => hwritten.others q fun heq => hq ?_⟩
        rw [heq]
  | remove failure =>
      rcases hcall h with hsame | happly
      · rw [hsame]
        exact .refl hs
      · exact changedAt_of_removeFile hdir hs happly

/-- Acts on files of a directory change nothing outside of it, and none of its other files. -/
theorem changedAt_of_trace {acts : List Act} {touched : List String} (hdir : Straight dir names)
    (hs : s.tree.WellFormed) (hacts : ∀ act ∈ acts, ∃ name ∈ touched, act.Touches dir name)
    (h : Trace m s acts t) :
    ChangedAt s.tree t.tree names ∧ ∀ name ∉ touched,
      t.tree.entry? (place (names ++ [name])) = s.tree.entry? (place (names ++ [name])) := by
  induction h with
  | nil s => exact ⟨.refl hs, fun _ _ => rfl⟩
  | cons hact _ ih =>
      obtain ⟨⟨name, hname, htouches⟩, hrest⟩ := List.forall_mem_cons.1 hacts
      have hfirst := htouches.changedAt hdir hs hact
      obtain ⟨hchanged, hothers⟩ := ih hfirst.wellFormed hrest
      refine ⟨hfirst.in_directory.trans hchanged, fun other hother => ?_⟩
      rw [hothers other hother]
      refine hfirst.outside _ fun hbelow => ?_
      -- Entries of one directory do not stand below each other.
      have heq := place_append_singleton_inj.1 (hbelow.eq_of_length (by simp [place]))
      exact hother (heq ▸ hname)

/-! ## The program -/

theorem tree_of_start {name : String} {program : Program} {code : Nat}
    (h : execute (start name program dir) m s = (.ok code, t)) :
    program dir s.tree = (t.tree, code) := by
  rw [start, execute_read_bind, execute_get_bind, execute_bind, execute_record] at h
  dsimp only at h
  cases hfault : m.startFault? s.events.length name with
  | some fault => rw [hfault] at h; cases h
  | none =>
      rw [hfault] at h
      cases h
      rfl

theorem Trace.exists_of_append {first more : List Act} (h : Trace m s (first ++ more) t) :
    ∃ mid, Trace m s first mid ∧ Trace m mid more t := by
  induction first generalizing s with
  | nil => exact ⟨s, .nil s, h⟩
  | cons act first ih =>
      cases h with
      | cons hact hrest =>
          obtain ⟨mid, hfirst, hmore⟩ := ih hrest
          exact ⟨mid, .cons hact hfirst, hmore⟩

variable {options : Options} {c : Client} {program : Program}

/-- A run of the compiler that succeeds. -/
theorem compiled_of_run (hdir : Straight dir names) (hs : s.tree.WellFormed)
    (hprogram : m.program? options.validatorRuntime = some program)
    (hcompiles : CompilesValidators program dir c)
    (hrun : Trace m s [.run options.validatorRuntime dir (.ok 0)] t) :
    ChangedAt s.tree t.tree names ∧ ∀ model ∈ c.models, ∃ contents,
      t.tree.entry? (place (names ++ [validatorFile model])) = some (.file contents) := by
  have hlocation := hdir.location_eq
  cases hrun with
  | cons hact hnil =>
      cases hnil
      cases hact with
      | run hfound hstart =>
          obtain rfl := Option.some.inj (hprogram.symm.trans hfound)
          have hresult := tree_of_start hstart
          have htree : t.tree = (program dir s.tree).1 := by rw [hresult]
          have hcode : (program dir s.tree).2 = 0 := by rw [hresult]
          refine ⟨⟨?_, fun q hq => ?_⟩, fun model hmodel => ?_⟩
          · rw [htree]
            exact hcompiles.wellFormed _ hs
          · rw [htree]
            exact hcompiles.outside _ q (by rwa [hlocation])
          · obtain ⟨contents, hentry⟩ := hcompiles.leaves _ hs hcode model hmodel
            rw [hlocation, entry_place] at hentry
            exact ⟨contents, by rw [htree, hentry]⟩

/-- If the validators are compiled successfully, their modules are there in the end, unless they go
by the name of an input, and nothing outside of the directory has changed. -/
theorem compiled_of_writeValidators (hdir : Straight dir names) (hs : s.tree.WellFormed)
    (hcompiles : ∀ program, m.program? options.validatorRuntime = some program →
      CompilesValidators program dir c)
    (hrun : execute (writeValidators options c dir) m s = (.ok (), t)) :
    ChangedAt s.tree t.tree names ∧ ∀ model ∈ c.models,
      validatorFile model ∉ (validatorJobs m options c).map (·.file) → ∃ contents,
        t.tree.entry? (place (names ++ [validatorFile model])) = some (.file contents) := by
  obtain ⟨acts, htrace, hacts⟩ := @goes_writeValidators m options c dir s
  rw [hrun] at htrace hacts
  unfold Compiles at hacts
  split at hacts
  · cases hacts.2
  · cases hacts.2
  · rename_i program hprogram _
    obtain ⟨outcomes, writes, runs, removals, rfl, hcleared⟩ := hacts
    have hwritten : ∀ outcome ∈ outcomes, outcome.2 = none := by
      cases hfailed : outcomes.findSome? (·.2) with
      | some e => cases (hcleared.failed e hfailed).2
      | none => exact List.findSome?_eq_none_iff.1 hfailed
    obtain ⟨exit, rfl, hexit⟩ := hcleared.compiled hwritten
    obtain rfl := hexit.1 rfl
    have hwrites : ∀ act ∈ writes,
        ∃ name ∈ (validatorJobs m options c).map (·.file), act.Touches dir name := by
      intro act hact
      obtain ⟨outcome, houtcome, text, _, rfl⟩ := hcleared.exists_outcome hact
      exact ⟨_, hcleared.file_mem houtcome, .write _ _⟩
    have hremovals : ∀ act ∈ removals,
        ∃ name ∈ (validatorJobs m options c).map (·.file), act.Touches dir name :=
      fun act hact => (hcleared.cleans hact).touches
    obtain ⟨compiled, hbefore, hafter⟩ := htrace.exists_of_append
    obtain ⟨prepared, hwriting, hrunning⟩ := hbefore.exists_of_append
    obtain ⟨hprepared, _⟩ := changedAt_of_trace hdir hs hwrites hwriting
    obtain ⟨hcompiled, hmodules⟩ :=
      compiled_of_run hdir hprepared.wellFormed hprogram (hcompiles program hprogram) hrunning
    obtain ⟨hremoved, hkept⟩ := changedAt_of_trace hdir hcompiled.wellFormed hremovals hafter
    refine ⟨(hprepared.trans hcompiled).trans hremoved, fun model hmodel hinput => ?_⟩
    obtain ⟨contents, hentry⟩ := hmodules model hmodel
    exact ⟨contents, by rw [hkept _ hinput, hentry]⟩

end TypedClient.Emission
