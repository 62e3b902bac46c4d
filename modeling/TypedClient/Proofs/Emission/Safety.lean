import TypedClient.Proofs.Emission.Writing

/-!
# What a run may touch

All calls that can change the disk stay strictly inside the working directory and, within it, on
the paths of the output, where a successful run renews the directories of all enabled categories:
`generate_confined`. A run makes no such call at all if it is refused or has nothing to write, and
only then: `untouched_generate`.
-/

namespace TypedClient

/-- The failures that refuse a run: those of the document, and those of the checks before anything
is written. -/
def Error.isRejection : Error → Bool
  | .swagger2 | .unsupportedVersion _ | .json _ | .jsonSyntax | .nameCollision _ _
  | .unsafeOutput _ | .missingRequestFile _ => true
  | _ => false

namespace Emission

open Files

variable {m : Machine} {options : Options} {c : Client} {output : Path}

/-! ## Confinement -/

/-- Calls that are confined to a directory are about paths that go on from it. -/
theorem Call.Confined.prefix_path {call : Call} (h : call.Confined output)
    (hmutating : call.isMutating = true) : output <+: call.path := by
  have hfile : ∀ (category : Category) (file : String),
      output <+: (output.entry category.directory).entry file := fun category file =>
    (List.prefix_append _ _).trans (List.prefix_append _ _)
  cases h with
  | «exists» path => cases hmutating
  | makeOutput => exact List.prefix_rfl
  | makeDirectory category => exact List.prefix_append _ _
  | removeDirectory category => exact List.prefix_append _ _
  | writeIndex contents => exact List.prefix_append _ _
  | write category file contents hplain => exact hfile category file
  | copy source category file hplain => exact hfile category file
  | remove category file hplain => exact hfile category file

theorem outputDirectory_ne {path : Path}
    (hbelow : m.workingDirectory.isBelow (Path.parse options.output) = true)
    (h : outputDirectory m options <+: path) :
    m.workingDirectory.normalize <+: path ∧ path ≠ m.workingDirectory.normalize := by
  obtain ⟨hfront, hne⟩ := Path.isBelow_iff.1 hbelow
  refine ⟨hfront.trans h, ?_⟩
  rintro rfl
  exact hne (h.eq_of_length_le hfront.length_le)

/-- An event that changes nothing except on the paths of the output, all of which are strictly
inside the working directory. -/
def Event.Safe (m : Machine) (options : Options) (e : Event) : Prop :=
  ∀ call, e = .call call → call.isMutating = true →
    call.Confined (outputDirectory m options) ∧
      m.workingDirectory.normalize <+: call.path ∧ call.path ≠ m.workingDirectory.normalize

theorem Event.IsLook.safe {e : Event} (h : e.IsLook) : e.Safe m options := by
  obtain ⟨path, rfl⟩ := h
  rintro _ ⟨⟩ hmutating
  cases hmutating

theorem Event.Confined.safe {e : Event} (h : e.Confined (outputDirectory m options))
    (hbelow : m.workingDirectory.isBelow (Path.parse options.output) = true) :
    e.Safe m options := by
  rintro call rfl hmutating
  exact ⟨h, outputDirectory_ne hbelow (Call.Confined.prefix_path h hmutating)⟩

theorem safe_writeClient (hc : c.FileNames) :
    Within m (Event.Safe m options) (fun _ => True) (fun _ => True) (writeClient c options) := by
  have hthrow : Within m (Event.Safe m options) (fun _ => True) (fun _ => False)
      (throw (.unsafeOutput options.output) : Run PUnit) := .throw trivial
  have hfind : Within m (Event.Safe m options) (fun _ => True) (fun _ => True)
      (findOverride options) :=
    within_findOverride.imp (fun _ h => h.safe) fun _ _ => trivial
  refine .read_bind ?_
  dsimp only
  split
  · exact hthrow.bind fun _ h => h.elim
  · rename_i hbelow
    have hbelow : m.workingDirectory.isBelow (Path.parse options.output) = true := by
      simpa using hbelow
    refine hfind.bind fun override _ => ?_
    have hparts : Writes m (outputDirectory m options)
        (writeParts options c override (outputDirectory m options)) := writes_writeParts hc
    exact hparts.imp (fun _ h => h.safe hbelow) fun _ _ => trivial

theorem safe_generate (m : Machine) (tree : Json) (options : Options) :
    Within m (Event.Safe m options) (fun _ => True) (fun _ => True) (generate tree options) := by
  unfold generate
  split
  · exact .throw trivial
  · rename_i c hc
    dsimp only
    split
    · exact (safe_writeClient (Client.fileNames_of_ofTree hc)).bind fun _ _ => .pure trivial
    · exact .pure trivial

/-- A successful run that is to write removes and makes the directories of all enabled
categories. -/
theorem makes_directories {tree : Json} {s t : State} (hwrite : options.write = true)
    (hrun : execute (generate tree options) m s = (.ok c, t)) {category : Category}
    (hcategory : category.isEnabled options = true) :
    Makes m (generate tree options) s
        (.removeDirectory ((outputDirectory m options).entry category.directory)) ∧
      Makes m (generate tree options) s
        (.makeDirectory ((outputDirectory m options).entry category.directory)) := by
  obtain ⟨hc, hbelow, override, mid, hfind, hparts⟩ := (execute_generate_eq_ok_iff hwrite).1 hrun
  have hmakes := makes_writeParts (Client.fileNames_of_ofTree hc) hparts hcategory
  exact ⟨makes_generate hwrite hc hbelow hfind hmakes.1,
    makes_generate hwrite hc hbelow hfind hmakes.2⟩

/-- All calls of a run that can change the disk are about the paths of the output, and these lie
strictly below the working directory, whatever the document, the options and the failures of the
disk are. Among them are those that renew the directories of the enabled categories, if the run
is to write and succeeds. -/
theorem generate_confined (m : Machine) (tree : Json) (options : Options) (s : State) :
    ∃ added, (execute (generate tree options) m s).2.events = s.events ++ added ∧
      (∀ call, Event.call call ∈ added → call.isMutating = true →
        call.Confined (outputDirectory m options) ∧
          m.workingDirectory.normalize <+: call.path ∧
          call.path ≠ m.workingDirectory.normalize) ∧
      ∀ c, (execute (generate tree options) m s).1 = .ok c → options.write = true →
        ∀ category : Category, category.isEnabled options = true →
          Event.call (.removeDirectory
              ((outputDirectory m options).entry category.directory)) ∈ added ∧
            Event.call (.makeDirectory
              ((outputDirectory m options).entry category.directory)) ∈ added := by
  obtain ⟨added, heq, hadded⟩ := (safe_generate m tree options).events s
  have hsafe : ∀ call, Event.call call ∈ added → call.isMutating = true →
      call.Confined (outputDirectory m options) ∧
        m.workingDirectory.normalize <+: call.path ∧
        call.path ≠ m.workingDirectory.normalize := fun call hcall => hadded _ hcall call rfl
  refine ⟨added, heq, hsafe, ?_⟩
  intro c hok hwrite category hcategory
  have hrun : execute (generate tree options) m s =
      (.ok c, (execute (generate tree options) m s).2) := by
    rw [← hok]
  have hmem : ∀ call, Makes m (generate tree options) s call → Event.call call ∈ added := by
    rintro call ⟨others, hothers, hcall⟩
    rwa [List.append_cancel_left (heq.symm.trans hothers)]
  obtain ⟨hremove, hmake⟩ := makes_directories hwrite hrun hcategory
  exact ⟨hmem _ hremove, hmem _ hmake⟩

/-- The calls by which a run renews the core in `/work/out`. -/
theorem generate_confined_out :
    ∃ c added,
      (execute (generate bareDocument { output := "out" }) workshop { tree := {} }).1 = .ok c ∧
      (execute (generate bareDocument { output := "out" }) workshop { tree := {} }).2.events =
        added ∧
      ∀ call ∈ [Call.removeDirectory [.root, .name "work", .name "out", .name "core"],
          Call.makeDirectory [.root, .name "work", .name "out", .name "core"]],
        Event.call call ∈ added ∧ call.Confined [.root, .name "work", .name "out"] ∧
          [.root, .name "work"] <+: call.path ∧ call.path ≠ [.root, .name "work"] := by
  have hok : (execute (generate bareDocument { output := "out" }) workshop
      { tree := {} }).1.isOk = true := by decide +kernel
  obtain ⟨c, t, hrun⟩ := exists_of_isOk hok
  obtain ⟨added, heq, hsafe, hrenews⟩ :=
    generate_confined workshop bareDocument { output := "out" } { tree := {} }
  obtain ⟨hremove, hmake⟩ := hrenews c (by rw [hrun]) rfl .core rfl
  refine ⟨c, added, by rw [hrun], by simpa using heq, fun call hcall => ?_⟩
  rcases List.mem_cons.1 hcall with rfl | hcall
  · exact ⟨hremove, hsafe _ hremove rfl⟩
  · obtain rfl := List.mem_singleton.1 hcall
    exact ⟨hmake, hsafe _ hmake rfl⟩

/-! ## Refused runs -/

/-- Rendering and the disk report their failures as what they are. -/
structure Machine.ReportsInKind (m : Machine) : Prop where
  render : ∀ artifact context e, m.render artifact context = .error e →
    ∃ failed, e = .render failed
  fault : ∀ n call e, m.fault? n call = some e → ∃ action path fault, e = .disk action path fault

/-- Writing never fails like a check. -/
theorem WritingFailure.not_isRejection {e : Error} (h : WritingFailure m e)
    (hm : m.ReportsInKind) : e.isRejection = false := by
  cases h with
  | render artifact context e hrender =>
      obtain ⟨failed, rfl⟩ := hm.render artifact context e hrender
      rfl
  | refused n call e hfault =>
      obtain ⟨action, path, fault, rfl⟩ := hm.fault n call e hfault
      rfl
  | disk call fault => cases call <;> rfl
  | missingExecutable program => rfl
  | notStarted path fault => rfl
  | validatorCompiler code => rfl

/-- What looking at the disk leaves: the same tree, and records of looks. -/
structure Untouched (s t : State) : Prop where
  tree : t.tree = s.tree
  events : ∃ added, t.events = s.events ++ added ∧ ∀ e ∈ added, e.IsLook

theorem Untouched.refl (s : State) : Untouched s s := ⟨rfl, [], by simp, by simp⟩

theorem Makes.not_untouched {α : Type} {x : Run α} {s : State} {call : Call}
    (h : Makes m x s call) (hmutating : call.isMutating = true) :
    ¬ Untouched s (execute x m s).2 := by
  rintro ⟨_, looks, hlooks, hall⟩
  obtain ⟨added, hadded, hcall⟩ := h
  obtain rfl : looks = added := List.append_cancel_left (hlooks.symm.trans hadded)
  obtain ⟨path, hlook⟩ := hall _ hcall
  cases hlook
  cases hmutating

theorem untouched_findOverride (m : Machine) (options : Options) (s : State) :
    Untouched s (execute (findOverride options) m s).2 := by
  refine ⟨?_, within_findOverride.events s⟩
  unfold findOverride
  split
  · rfl
  · split
    · rename_i request _ _
      rw [execute_read_bind, execute_bind]
      change (execute (if s.tree.has _ then _ else _) m (s.noting _)).2.tree = s.tree
      split <;> rfl
    · rfl

/-- Where only the checks are left of a run, nothing is touched. -/
theorem untouched_writeClient (hc : c.FileNames) (options : Options) (s : State)
    (h : (m.ReportsInKind ∧ ∃ e, (execute (writeClient c options) m s).1 = .error e ∧
        e.isRejection = true) ∨ options.anyCategory = false) :
    Untouched s (execute (writeClient c options) m s).2 := by
  rw [execute_writeClient] at h ⊢
  split at h
  · rename_i hbelow
    rw [if_pos hbelow]
    have hfind := untouched_findOverride m options s
    rw [execute_bind] at h ⊢
    rcases hrun : execute (findOverride options) m s with ⟨e | override, t⟩
    · rw [hrun] at hfind
      exact hfind
    · rw [hrun] at h hfind
      dsimp only at h ⊢
      rcases h with ⟨hm, e, he, hrejection⟩ | hnone
      · -- The checks are passed, and what fails from here on is no rejection.
        have hfailure := (writes_writeParts hc).failure t e he
        rw [hfailure.not_isRejection hm] at hrejection
        cases hrejection
      · rw [writeParts_of_not_anyCategory hnone]
        exact hfind
  · rename_i hbelow
    rw [if_neg hbelow]
    exact .refl s

/-- A run that is refused, that is not to write, or that has no category to write touches
nothing. -/
theorem untouched_of_rejected (tree : Json) (s : State)
    (h : (m.ReportsInKind ∧ ∃ e, (execute (generate tree options) m s).1 = .error e ∧
        e.isRejection = true) ∨ options.write = false ∨ options.anyCategory = false) :
    Untouched s (execute (generate tree options) m s).2 := by
  cases hc : Client.ofTree tree options.responseSchemaAsModel with
  | error e =>
      rw [execute_generate_of_error hc]
      exact .refl s
  | ok c =>
      cases hwrite : options.write with
      | false =>
          rw [execute_generate_of_ok hc, if_neg (by simp [hwrite])]
          exact .refl s
      | true =>
          simp only [generate_eq_error_iff hwrite hc, hwrite, Bool.true_eq_false, false_or] at h
          rw [state_generate hwrite hc]
          exact untouched_writeClient (Client.fileNames_of_ofTree hc) options s h

/-- What refuses a document is a rejection. -/
theorem isRejection_of_ofTree_eq_error {tree : Json} {promote : Bool} {e : Error}
    (h : Client.ofTree tree promote = .error e) : e.isRejection = true := by
  unfold Client.ofTree at h
  cases hversion : Document.checkVersion tree with
  | error e' =>
      obtain rfl : e' = e := by simpa [hversion, bind, Except.bind] using h
      unfold Document.checkVersion at hversion
      dsimp only at hversion
      split at hversion
      · cases hversion
        rfl
      · split at hversion
        · cases hversion
        · cases hversion
          rfl
  | ok u =>
      cases hdecode : Document.decode tree with
      | error cause =>
          obtain rfl : Error.json cause = e := by
            simpa [hversion, hdecode, bind, Except.bind, Except.mapError] using h
          rfl
      | ok d =>
          have hclient : (Client.draft d promote >>= Client.finish) = .error e := by
            simpa [hversion, hdecode, bind, Except.bind, Except.mapError] using h
          obtain ⟨name, origin, rfl, _⟩ :=
            Client.duplicate_of_draft_bind_finish_eq_error hclient
          rfl

/-- A run that has something to write is refused, or removes a directory. -/
theorem rejected_or_makes (tree : Json) (s : State) (hwrite : options.write = true)
    (hany : options.anyCategory = true) :
    (∃ e, (execute (generate tree options) m s).1 = .error e ∧ e.isRejection = true) ∨
      ∃ category : Category, Makes m (generate tree options) s
        (.removeDirectory ((outputDirectory m options).entry category.directory)) := by
  cases hc : Client.ofTree tree options.responseSchemaAsModel with
  | error e =>
      refine .inl ⟨e, ?_, isRejection_of_ofTree_eq_error hc⟩
      rw [execute_generate_of_error hc]
  | ok c =>
      by_cases hbelow : m.workingDirectory.isBelow (Path.parse options.output) = true
      · rcases hfind : execute (findOverride options) m s with ⟨e | override, mid⟩
        · obtain ⟨path, rfl⟩ := within_findOverride.failure s e (by rw [hfind])
          refine .inl ⟨.missingRequestFile path, (generate_eq_error_iff hwrite hc).2 ?_, rfl⟩
          rw [execute_writeClient, if_pos hbelow, execute_bind, hfind]
        · -- The checks are passed, so that a directory is removed at once.
          obtain ⟨category, hparts⟩ :=
            exists_makes_writeParts (Client.fileNames_of_ofTree hc) hany mid
          exact .inr ⟨category, makes_generate hwrite hc hbelow hfind hparts⟩
      · refine .inl ⟨.unsafeOutput options.output, (generate_eq_error_iff hwrite hc).2 ?_, rfl⟩
        rw [execute_writeClient, if_neg hbelow]

/-- Where nothing is touched, a run was refused, or was not to write, or had no category to
write. -/
theorem rejected_of_untouched (tree : Json) (s : State)
    (h : Untouched s (execute (generate tree options) m s).2) :
    (∃ e, (execute (generate tree options) m s).1 = .error e ∧ e.isRejection = true) ∨
      options.write = false ∨ options.anyCategory = false := by
  cases hwrite : options.write with
  | false => exact .inr (.inl rfl)
  | true =>
      cases hany : options.anyCategory with
      | false => exact .inr (.inr rfl)
      | true =>
          refine .inl ((rejected_or_makes tree s hwrite hany).resolve_right ?_)
          rintro ⟨category, hmakes⟩
          exact hmakes.not_untouched rfl h

/-- A run makes no call that can change the disk if it is refused, is not to write, or has no
category to write, and only then. -/
theorem untouched_generate (m : Machine) (tree : Json) (options : Options) (s : State) :
    ((m.ReportsInKind ∧ ∃ e, (execute (generate tree options) m s).1 = .error e ∧
          e.isRejection = true) ∨ options.write = false ∨ options.anyCategory = false →
        Untouched s (execute (generate tree options) m s).2) ∧
      (Untouched s (execute (generate tree options) m s).2 →
        (∃ e, (execute (generate tree options) m s).1 = .error e ∧ e.isRejection = true) ∨
          options.write = false ∨ options.anyCategory = false) :=
  ⟨untouched_of_rejected tree s, rejected_of_untouched tree s⟩

theorem reportsInKind_workshop : workshop.ReportsInKind where
  render artifact context e h := by
    refine ⟨artifact, ?_⟩
    change Artifact.render artifact context = .error e at h
    unfold Artifact.render at h
    split at h
    · cases h
    · exact (Except.error.inj h).symm
  fault n call e h := by cases h

theorem untouched_generate_outside :
    Untouched { tree := {} }
      (execute (generate bareDocument { output := "../elsewhere" }) workshop { tree := {} }).2 := by
  have hrun : (execute (generate bareDocument { output := "../elsewhere" }) workshop
      { tree := {} }).1 = .error (.unsafeOutput "../elsewhere") := rfl
  exact (untouched_generate _ _ _ _).1 (.inl ⟨reportsInKind_workshop, _, hrun, rfl⟩)

end Emission

end TypedClient
