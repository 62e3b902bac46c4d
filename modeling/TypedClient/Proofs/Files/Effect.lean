import TypedClient.Proofs.Files.Tree

/-!
# What calls do to a tree

Calls on a well-formed tree are described by what stands under each path before and after: removing
a directory leaves nothing there (`Removed`), making one makes those on the way to it (`Made`), and
writing puts one file into a directory that is there (`Written`). Each call that succeeds does just
that, and it does succeed where nothing is in the way.
-/

namespace TypedClient.Files.Tree

open TypedClient.Files.Path

variable {t t' : Tree} {path q dir : Path} {names : List String} {name : String} {e : Entry}

/-! ## Removing a directory -/

/-- Nothing is left at a place and below it, and all else stays. -/
structure Removed (t t' : Tree) (names : List String) : Prop where
  gone : ∀ q, place names <+: q → t'.entry? q = none
  others : ∀ q, ¬ place names <+: q → t'.entry? q = t.entry? q
  wellFormed : t'.WellFormed

/-- Where there is nothing, nothing has to be removed. -/
theorem removed_of_entry?_eq_none (ht : t.WellFormed) (h : t.entry? (place names) = none) :
    Removed t t names where
  gone q hq := by
    by_cases hne : q = place names
    · rw [hne, h]
    · exact ht.entry?_below_eq_none (by simp [place]) (by simp [h]) hq hne
  others q hq := rfl
  wellFormed := ht

theorem removed_erase (ht : t.WellFormed) (hnames : names ≠ []) :
    Removed t (t.erase (place names)) names := by
  have hroot : ¬ place names <+: [.root] := by
    intro h
    have hlength := h.length_le
    simp only [place, List.length_cons, List.length_map, List.length_nil] at hlength
    exact hnames (List.eq_nil_of_length_eq_zero (by omega))
  refine ⟨fun q hq => ?_, fun q hq => ?_, fun q e hq hne => ?_⟩
  · rw [entry?_erase hroot, if_pos hq]
  · rw [entry?_erase hroot, if_neg hq]
  · rw [entry?_erase hroot] at hq
    split at hq
    · cases hq
    · rename_i hout
      obtain ⟨dir, name, rfl, hdir⟩ := ht q e hq hne
      refine ⟨dir, name, rfl, ?_⟩
      rw [entry?_erase hroot, if_neg fun hbelow => hout (hbelow.trans (List.prefix_append _ _)),
        hdir]

/-- What is removed is gone, whether or not it was there. -/
theorem removed_of_removeDirectory (ht : t.WellFormed) (h : Straight path names)
    (hnames : names ≠ []) (hremove : t.removeDirectory path = .ok t') : Removed t t' names := by
  unfold removeDirectory at hremove
  split at hremove
  · rename_i hresolve
    cases hremove
    -- Of something that is there it is never said that it is not found: a disk that cannot take
    -- the name of a directory on the way reports that instead.
    refine removed_of_entry?_eq_none ht ?_
    rw [Option.eq_none_iff_forall_ne_some]
    intro e he
    rcases resolve_of_entry? ht h he with hfound | ⟨fault, hfault, hne, _⟩
    · rw [hfound] at hresolve
      cases hresolve
    · rw [hfault] at hresolve
      cases hresolve
      exact hne rfl
  · cases hremove
  · rename_i p hresolve
    obtain ⟨rfl, _⟩ := eq_place_of_resolve h hresolve
    split at hremove
    · cases hremove
      exact removed_of_entry?_eq_none ht (by assumption)
    · cases hremove
    · cases hremove
      exact removed_erase ht hnames

/-- A directory that is there can be removed. -/
theorem exists_removeDirectory (ht : t.WellFormed) (h : Straight path names) (hfit : Fit names)
    (hdir : t.entry? (place names) = some .directory) :
    ∃ t', t.removeDirectory path = .ok t' := by
  rcases resolve_of_entry? ht h hdir with hresolve | ⟨fault, _, _, hnot⟩
  · exact ⟨t.erase (place names), by simp only [removeDirectory, hresolve, hdir]⟩
  · exact absurd hfit hnot

/-! ## Making a directory -/

/-- The places on the way to the place of some names, that place included. -/
def OnWay (names : List String) (q : Path) : Prop := ∃ before, before <+: names ∧ q = place before

/-- There are directories all the way to a place where there was nothing or a directory, and all
else stays. -/
structure Made (t t' : Tree) (names : List String) : Prop where
  fit : Fit names
  free : ∀ q, OnWay names q → t.entry? q = none ∨ t.entry? q = some .directory
  made : ∀ q, OnWay names q → t'.entry? q = some .directory
  others : ∀ q, ¬ OnWay names q → t'.entry? q = t.entry? q

theorem onWay_append_singleton {names : List String} {name : String} {q : Path} :
    OnWay (names ++ [name]) q ↔ OnWay names q ∨ q = place (names ++ [name]) := by
  constructor
  · rintro ⟨before, hbefore, rfl⟩
    rcases List.prefix_concat_iff.1 hbefore with rfl | hbefore
    · exact .inr rfl
    · exact .inl ⟨before, hbefore, rfl⟩
  · rintro (⟨before, hbefore, rfl⟩ | rfl)
    · exact ⟨before, hbefore.trans (List.prefix_append _ _), rfl⟩
    · exact ⟨_, List.prefix_rfl, rfl⟩

/-- The way to a directory leads through directories. -/
theorem WellFormed.directory_of_onWay (ht : t.WellFormed)
    (h : t.entry? (place names) = some .directory) (hq : OnWay names q) :
    t.entry? q = some .directory := by
  obtain ⟨before, ⟨rest, rfl⟩, rfl⟩ := hq
  cases rest with
  | nil => simpa using h
  | cons name rest =>
      rw [place_append] at h
      exact ht.directory_of_append (by simp [place]) (by simp) h

theorem makeFrom_cons (t : Tree) (here : Path) (step : Step) (rest : List Step) :
    t.makeFrom here (step :: rest) =
      match t.entry? here with
      | some (.file _) => .error .notADirectory
      | _ =>
        match step with
        | .root => t.makeFrom [.root] rest
        | .up => t.makeFrom (if here = [.root] then here else here.dropLast) rest
        | .name n =>
          match nameFault? n with
          | some fault => .error fault
          | none =>
            match t.entry? (here ++ [.name n]) with
            | some _ => t.makeFrom (here ++ [.name n]) rest
            | none => (t.set (here ++ [.name n]) .directory).makeFrom (here ++ [.name n]) rest := by
  cases step <;> rfl

theorem makeFrom_lead {lead : List Step} (hlead : ∀ n, Step.name n ∉ lead) (rest : Path) :
    t.makeFrom [.root] (lead ++ rest) = t.makeFrom [.root] rest := by
  induction lead with
  | nil => rfl
  | cons step lead ih =>
      have hrest : ∀ n, Step.name n ∉ lead := fun n hn => hlead n (List.mem_cons_of_mem _ hn)
      rw [List.cons_append, makeFrom_cons, entry?_root]
      cases step with
      | root => exact ih hrest
      | up => exact ih hrest
      | name n => exact absurd List.mem_cons_self (hlead n)

/-- No directory is made in place of a file. -/
theorem makeFrom_of_file {here : Path} {contents : Contents}
    (h : t.entry? here = some (.file contents)) (rest : List Step) :
    t.makeFrom here rest ≠ .ok t' := by
  cases rest with
  | nil => simp [makeFrom, h]
  | cons step rest => simp [makeFrom_cons, h]

/-- One more name on the way, of a directory that is there or is made. -/
theorem makeFrom_name (hdir : t.entry? (place names) = some .directory)
    (hname : nameFault? name = none) (rest : List Step) :
    t.makeFrom (place names) (.name name :: rest) =
      match t.entry? (place (names ++ [name])) with
      | some _ => t.makeFrom (place (names ++ [name])) rest
      | none =>
        (t.set (place (names ++ [name])) .directory).makeFrom (place (names ++ [name])) rest := by
  simp only [makeFrom_cons, hdir, hname, ← entry_place, entry]

theorem place_ne_root (names : List String) (name : String) :
    place (names ++ [name]) ≠ [.root] := by
  simp [place]

/-- The way is clear as far as the next name if that of a directory. -/
theorem directory_onWay_append (hdone : ∀ q, OnWay names q → t.entry? q = some .directory)
    (hnext : t.entry? (place (names ++ [name])) = some .directory) :
    ∀ q, OnWay (names ++ [name]) q → t.entry? q = some .directory := by
  intro q hq
  rcases onWay_append_singleton.1 hq with hq | rfl
  · exact hdone q hq
  · exact hnext

/-- The same once the directory is made. -/
theorem directory_onWay_set (hdone : ∀ q, OnWay names q → t.entry? q = some .directory) :
    ∀ q, OnWay (names ++ [name]) q →
      Tree.entry? (t.set (place (names ++ [name])) .directory) q = some .directory := by
  intro q hq
  rw [entry?_set (place_ne_root names name)]
  split
  · rfl
  · rename_i hne
    exact hdone q ((onWay_append_singleton.1 hq).resolve_right hne)

/-- One of the directories on the way may have been made before. -/
theorem Made.of_set {next : Path} (hnext : next ≠ [.root]) (hnone : t.entry? next = none)
    (hway : OnWay names next) (h : Made (t.set next .directory) t' names) : Made t t' names where
  fit := h.fit
  free q hq := by
    by_cases hne : q = next
    · exact .inl (hne ▸ hnone)
    · simpa [entry?_set hnext, hne] using h.free q hq
  made := h.made
  others q hq := by
    have hne : q ≠ next := fun heq => hq (heq ▸ hway)
    simpa [entry?_set hnext, hne] using h.others q hq

theorem made_of_makeFrom (done : List String)
    (hdone : ∀ q, OnWay done q → t.entry? q = some .directory) (hfit : Fit done)
    (h : t.makeFrom (place done) (names.map .name) = .ok t') : Made t t' (done ++ names) := by
  -- The names that are done lead through directories already; the induction is on the others.
  induction names generalizing t done with
  | nil =>
      have hdir := hdone _ ⟨done, List.prefix_rfl, rfl⟩
      simp only [List.map_nil, makeFrom, hdir, Except.ok.injEq] at h
      subst h
      rw [List.append_nil]
      exact ⟨hfit, fun q hq => .inr (hdone q hq), hdone, fun _ _ => rfl⟩
  | cons name names ih =>
      have hdir := hdone _ ⟨done, List.prefix_rfl, rfl⟩
      cases hname : nameFault? name with
      | some fault => simp [makeFrom_cons, hdir, hname] at h
      | none =>
          have hfit' : Fit (done ++ [name]) := fit_append_iff.2 ⟨hfit, by simpa [Fit] using hname⟩
          rw [List.map_cons, makeFrom_name hdir hname] at h
          rw [List.append_cons]
          split at h
          · rename_i e he
            cases e with
            | file contents => exact absurd h (makeFrom_of_file he _)
            | directory => exact ih _ (directory_onWay_append hdone he) hfit' h
          · rename_i hnone
            have hway : OnWay (done ++ [name] ++ names) (place (done ++ [name])) :=
              ⟨_, List.prefix_append _ _, rfl⟩
            exact (ih _ (directory_onWay_set hdone) hfit' h).of_set (place_ne_root done name) hnone
              hway

theorem exists_makeFrom (done : List String)
    (hdone : ∀ q, OnWay done q → t.entry? q = some .directory) (hfit : Fit names)
    (hfree : ∀ q, OnWay (done ++ names) q → t.entry? q = none ∨ t.entry? q = some .directory) :
    ∃ t', t.makeFrom (place done) (names.map .name) = .ok t' := by
  induction names generalizing t done with
  | nil =>
      have hdir := hdone _ ⟨done, List.prefix_rfl, rfl⟩
      exact ⟨t, by simp only [List.map_nil, makeFrom, hdir]⟩
  | cons name names ih =>
      have hdir := hdone _ ⟨done, List.prefix_rfl, rfl⟩
      have hname : nameFault? name = none := hfit name List.mem_cons_self
      have hrest : Fit names := fun n hn => hfit n (List.mem_cons_of_mem _ hn)
      rw [List.append_cons] at hfree
      rw [List.map_cons, makeFrom_name hdir hname]
      rcases hfree _ ⟨done ++ [name], List.prefix_append _ _, rfl⟩ with hnone | hnext
      · simp only [hnone]
        refine ih _ (directory_onWay_set hdone) hrest fun q hq => ?_
        rw [entry?_set (place_ne_root done name)]
        split
        · exact .inr rfl
        · exact hfree q hq
      · simp only [hnext]
        exact ih _ (directory_onWay_append hdone hnext) hrest hfree

theorem directory_of_onWay_nil (hq : OnWay [] q) : t.entry? q = some .directory := by
  obtain ⟨before, hbefore, rfl⟩ := hq
  obtain rfl := List.prefix_nil.1 hbefore
  exact entry?_root t

theorem made_of_makeDirectory (h : Straight path names) (hmake : t.makeDirectory path = .ok t') :
    Made t t' names := by
  obtain ⟨lead, rfl, hlead⟩ := h
  rw [makeDirectory, makeFrom_lead hlead] at hmake
  exact made_of_makeFrom [] (fun q hq => directory_of_onWay_nil hq) (by simp [Fit]) hmake

/-- A directory can be made where nothing is in the way. -/
theorem exists_makeDirectory (h : Straight path names) (hfit : Fit names)
    (hfree : ∀ q, OnWay names q → t.entry? q = none ∨ t.entry? q = some .directory) :
    ∃ t', t.makeDirectory path = .ok t' := by
  obtain ⟨lead, rfl, hlead⟩ := h
  rw [makeDirectory, makeFrom_lead hlead]
  exact exists_makeFrom [] (fun q hq => directory_of_onWay_nil hq) hfit hfree

theorem Made.wellFormed (h : Made t t' names) (ht : t.WellFormed) : t'.WellFormed := by
  intro q e he hroot
  by_cases hq : OnWay names q
  · obtain ⟨before, hbefore, rfl⟩ := hq
    rcases List.eq_nil_or_concat before with rfl | ⟨before, name, rfl⟩
    · exact absurd rfl hroot
    · refine ⟨place before, name, by simp [entry], h.made _ ⟨before, ?_, rfl⟩⟩
      exact List.IsPrefix.trans (by simp) hbefore
  · rw [h.others q hq] at he
    obtain ⟨dir, name, rfl, hdir⟩ := ht q e he hroot
    refine ⟨dir, name, rfl, ?_⟩
    by_cases hway : OnWay names dir
    · exact h.made dir hway
    · rw [h.others dir hway, hdir]

/-! ## Writing a file -/

/-- There is a file where there was no directory, in a directory that stays, and all else stays. -/
structure Written (t t' : Tree) (names : List String) (name : String) (contents : Contents) :
    Prop where
  fit : Fit (names ++ [name])
  directory : t.entry? (place names) = some .directory
  free : t.entry? (place (names ++ [name])) ≠ some .directory
  written : t'.entry? (place (names ++ [name])) = some (.file contents)
  others : ∀ q, q ≠ place (names ++ [name]) → t'.entry? q = t.entry? q

variable {contents : Contents}

theorem written_of_writeFile (h : Straight dir names)
    (hwrite : t.writeFile (dir.entry name) contents = .ok t') :
    Written t t' names name contents := by
  rw [writeFile] at hwrite
  cases hresolve : t.resolve (dir.entry name) with
  | error fault => rw [hresolve] at hwrite; cases hwrite
  | ok p =>
      obtain ⟨rfl, hfit⟩ := eq_place_of_resolve (h.entry name) hresolve
      simp only [hresolve, bind, Except.bind] at hwrite
      have hroot := place_ne_root names name
      split at hwrite
      · cases hwrite
      · rename_i hfree
        cases hwrite
        refine ⟨hfit, directory_of_resolve_entry h hresolve, fun hdir => hfree hdir, ?_, ?_⟩
        · rw [entry?_set hroot, if_pos rfl]
        · exact fun q hq => by rw [entry?_set hroot, if_neg hq]

/-- A file can be written into a directory that is there, unless a directory stands in its place. -/
theorem exists_writeFile (ht : t.WellFormed) (h : Straight dir names)
    (hfit : Fit (names ++ [name])) (hdir : t.entry? (place names) = some .directory)
    (hfree : t.entry? (place (names ++ [name])) ≠ some .directory) (contents : Contents) :
    ∃ t', t.writeFile (dir.entry name) contents = .ok t' := by
  have hresolve : t.resolve (dir.entry name) = .ok (place (names ++ [name])) := by
    rcases resolve_of_entry? ht h hdir with hfound | ⟨_, _, _, hnot⟩
    · have hname := hfit name (by simp)
      simp only [resolve_entry, hfound, hdir, hname, entry_place]
    · exact absurd (fit_append_iff.1 hfit).1 hnot
  refine ⟨t.set (place (names ++ [name])) (.file contents), ?_⟩
  rw [writeFile, hresolve]
  cases he : t.entry? (place (names ++ [name])) with
  | none =>
      simp only [bind, Except.bind, he]
      rfl
  | some e =>
      cases e with
      | directory => exact absurd he hfree
      | file old =>
          simp only [bind, Except.bind, he]
          rfl

theorem Written.wellFormed (h : Written t t' names name contents) (ht : t.WellFormed) :
    t'.WellFormed := by
  intro q e he hroot
  by_cases hq : q = place (names ++ [name])
  · subst hq
    refine ⟨place names, name, (entry_place names name).symm, ?_⟩
    rw [h.others _ (by simp), h.directory]
  · rw [h.others q hq] at he
    obtain ⟨dir, name', rfl, hdir⟩ := ht q e he hroot
    refine ⟨dir, name', rfl, ?_⟩
    -- What is written was no directory before, so that no entry stands in it.
    have hne : dir ≠ place (names ++ [name]) := fun heq => h.free (heq ▸ hdir)
    rw [h.others dir hne, hdir]

/-! ## Reading and copying a file -/

/-- What is read under a path is the file at its place, if a disk takes its names. -/
theorem readFile_eq_ok_iff (ht : t.WellFormed) (h : Straight path names) :
    t.readFile path = .ok contents ↔
      t.entry? (place names) = some (.file contents) ∧ Fit names := by
  rw [readFile]
  constructor
  · intro hread
    cases hresolve : t.resolve path with
    | error fault =>
        rw [hresolve] at hread
        cases hread
    | ok p =>
        obtain ⟨rfl, hfit⟩ := eq_place_of_resolve h hresolve
        simp only [hresolve, bind, Except.bind] at hread
        split at hread
        · cases hread
        · cases hread
        · rename_i he
          cases hread
          exact ⟨he, hfit⟩
  · rintro ⟨he, hfit⟩
    rcases resolve_of_entry? ht h he with hresolve | ⟨_, _, _, hnot⟩
    · simp only [hresolve, bind, Except.bind, he]
      rfl
    · exact absurd hfit hnot

/-- A copy writes what is read at its source, wherever that is apart from the target. -/
theorem exists_copyFile (ht : t.WellFormed) {source : Path} {sourceNames : List String}
    (hsource : Straight source sourceNames) (hread : t.readFile source = .ok contents)
    (h : Straight dir names) (hfit : Fit (names ++ [name]))
    (hdir : t.entry? (place names) = some .directory)
    (hfree : t.entry? (place (names ++ [name])) ≠ some .directory)
    (hne : sourceNames ≠ names ++ [name]) :
    ∃ t', t.copyFile source (dir.entry name) = .ok t' ∧ t'.WellFormed ∧
      t'.entry? (place (names ++ [name])) = some (.file contents) := by
  obtain ⟨he, hsourceFit⟩ := (readFile_eq_ok_iff ht hsource).1 hread
  obtain ⟨emptied, hemptied⟩ := exists_writeFile ht h hfit hdir hfree (.text "")
  have hempty := written_of_writeFile h hemptied
  have hplace : place sourceNames ≠ place (names ++ [name]) := by
    intro heq
    have hmap := (List.cons.inj heq).2
    exact hne (List.map_injective_iff.2 (fun _ _ hstep => Step.name.inj hstep) hmap)
  -- The source is not the target, and so keeps what it holds when the target is emptied.
  have hkept : emptied.entry? (place sourceNames) = some (.file contents) := by
    rw [hempty.others _ hplace, he]
  obtain ⟨t', ht'⟩ := exists_writeFile (hempty.wellFormed ht) h hfit
    (by rw [hempty.others _ (by simp [place]), hdir]) (by rw [hempty.written]; simp) contents
  have hwritten := written_of_writeFile h ht'
  refine ⟨t', ?_, hwritten.wellFormed (hempty.wellFormed ht), hwritten.written⟩
  rcases resolve_of_entry? ht hsource he with hresolve | ⟨_, _, _, hnot⟩
  · simp only [copyFile, hresolve, bind, Except.bind, he, hemptied, hkept, ht']
  · exact absurd hsourceFit hnot

end TypedClient.Files.Tree
