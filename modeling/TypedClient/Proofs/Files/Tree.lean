import TypedClient.Files.Tree
import TypedClient.Proofs.Files.Path

/-!
# Finding entries

A tree is well formed if each of its entries stands in a directory. On such a tree whatever is
there is found under a path that is normalized, unless a disk cannot take one of its names:
`resolve_of_entry?`. What a path is resolved to is the place of its names (`eq_place_of_resolve`).
-/

namespace TypedClient.Files.Tree

open TypedClient.Files.Path

variable {t : Tree} {path q dir : Path} {names : List String} {name : String} {e : Entry}

/-! ## Entries -/

/-- Entries that are kept by their keys are found as before, and no others are. -/
theorem lookup_filter_fst {α β : Type} [BEq α] [LawfulBEq α] (keep : α → Bool)
    (entries : List (α × β)) (key : α) :
    (entries.filter fun entry => keep entry.1).lookup key =
      if keep key then entries.lookup key else none := by
  induction entries with
  | nil => simp
  | cons entry entries ih =>
      obtain ⟨k, b⟩ := entry
      by_cases hkey : key = k
      · subst hkey
        cases hkeep : keep key <;> simp [hkeep, ih]
      · have hne : (key == k) = false := by simpa using hkey
        cases hkeep : keep k <;> simp [hkeep, List.lookup_cons, hne, ih]

@[simp]
theorem entry?_root (t : Tree) : t.entry? [.root] = some .directory := if_pos rfl

theorem entry?_of_ne_root (h : path ≠ [.root]) : t.entry? path = t.entries.lookup path :=
  if_neg h

theorem entry?_set (hpath : path ≠ [.root]) :
    Tree.entry? (t.set path e) q = if q = path then some e else t.entry? q := by
  by_cases hroot : q = [.root]
  · subst hroot
    rw [entry?_root, entry?_root, if_neg hpath.symm]
  · rw [entry?_of_ne_root hroot, entry?_of_ne_root hroot, set, List.lookup_append,
      lookup_filter_fst (· != path)]
    by_cases hq : q = path
    · subst hq
      simp
    · have hne : (q == path) = false := by simpa using hq
      simp [hq, List.lookup_cons, hne]

theorem entry?_erase (hpath : ¬ path <+: [.root]) :
    Tree.entry? (t.erase path) q = if path <+: q then none else t.entry? q := by
  by_cases hroot : q = [.root]
  · subst hroot
    rw [entry?_root, entry?_root, if_neg hpath]
  · rw [entry?_of_ne_root hroot, entry?_of_ne_root hroot, erase,
      lookup_filter_fst fun key => !path.isPrefixOf key]
    simp only [← List.isPrefixOf_iff_prefix]
    cases path.isPrefixOf q <;> simp

/-- Each entry stands in a directory. -/
def WellFormed (t : Tree) : Prop :=
  ∀ path e, t.entry? path = some e → path ≠ [.root] →
    ∃ dir name, path = dir.entry name ∧ t.entry? dir = some .directory

/-- It is enough to look at the entries that are listed. -/
theorem wellFormed_of_entries
    (h : ∀ entry ∈ t.entries, ∃ dir name, entry.1 = Path.entry dir name ∧
      t.entry? dir = some .directory) : t.WellFormed := by
  intro path e he hroot
  rw [entry?_of_ne_root hroot] at he
  obtain ⟨before, after, heq, _⟩ := List.lookup_eq_some_iff.1 he
  exact h (path, e) (by simp [heq])

/-- Where something stands below a path, the path is that of a directory. -/
theorem WellFormed.directory_of_append (ht : t.WellFormed) {below : Path} (hpath : path ≠ [])
    (hbelow : below ≠ []) (h : t.entry? (path ++ below) = some e) :
    t.entry? path = some .directory := by
  induction below using List.reverseRecOn generalizing e with
  | nil => exact absurd rfl hbelow
  | append_singleton below step ih =>
      rw [← List.append_assoc] at h
      have hroot : path ++ below ++ [step] ≠ [.root] := by
        intro heq
        have hlength := congrArg List.length heq
        have hpos := List.length_pos_of_ne_nil hpath
        simp only [List.length_append, List.length_cons, List.length_nil] at hlength
        omega
      obtain ⟨dir, name, heq, hdir⟩ := ht _ _ h hroot
      obtain ⟨rfl, _⟩ := List.append_inj' heq rfl
      cases below with
      | nil => simpa using hdir
      | cons step' below => exact ih (by simp) hdir

theorem WellFormed.entry?_below_eq_none (ht : t.WellFormed) (hpath : path ≠ [])
    (h : t.entry? path ≠ some .directory) (hbelow : path <+: q) (hne : q ≠ path) :
    t.entry? q = none := by
  obtain ⟨below, rfl⟩ := hbelow
  rw [Option.eq_none_iff_forall_ne_some]
  intro e he
  exact h (ht.directory_of_append hpath (fun hnil => hne (by simp [hnil])) he)

/-! ## Ways -/

/-- The names that a disk takes. -/
def Fit (names : List String) : Prop := ∀ n ∈ names, nameFault? n = none

theorem nameFault?_ne_notFound {fault : Fault} (h : nameFault? name = some fault) :
    fault ≠ .notFound := by
  rintro rfl
  unfold nameFault? at h
  split at h
  · cases h
  · split at h <;> cases h

theorem fit_append_iff {more : List String} : Fit (names ++ more) ↔ Fit names ∧ Fit more := by
  simp [Fit, or_imp, forall_and]

/-- A step is taken from a directory only. -/
theorem resolveFrom_cons (t : Tree) (here : Path) (step : Step) (rest : List Step) :
    t.resolveFrom here (step :: rest) =
      match t.entry? here with
      | none => .error .notFound
      | some (.file _) => .error .notADirectory
      | some .directory =>
        match step with
        | .root => t.resolveFrom [.root] rest
        | .up => t.resolveFrom (if here = [.root] then here else here.dropLast) rest
        | .name n =>
          match nameFault? n with
          | some fault => .error fault
          | none => t.resolveFrom (here ++ [.name n]) rest := by
  cases step <;> rfl

/-- The steps to the root and up in front of a path stay at the root. -/
theorem resolveFrom_lead {lead : List Step} (hlead : ∀ n, Step.name n ∉ lead) (rest : Path) :
    t.resolveFrom [.root] (lead ++ rest) = t.resolveFrom [.root] rest := by
  induction lead with
  | nil => rfl
  | cons step lead ih =>
      have hrest : ∀ n, Step.name n ∉ lead := fun n hn => hlead n (List.mem_cons_of_mem _ hn)
      rw [List.cons_append, resolveFrom_cons, entry?_root]
      cases step with
      | root => exact ih hrest
      | up => exact ih hrest
      | name n => exact absurd List.mem_cons_self (hlead n)

theorem resolveFrom_append (here : Path) (path more : Path) :
    t.resolveFrom here (path ++ more) =
      match t.resolveFrom here path with
      | .ok p => t.resolveFrom p more
      | .error fault => .error fault := by
  induction path generalizing here with
  | nil => rfl
  | cons step path ih =>
      rw [List.cons_append, resolveFrom_cons, resolveFrom_cons]
      split
      · rfl
      · rfl
      · split
        · exact ih _
        · exact ih _
        · split
          · rfl
          · exact ih _

/-- An entry is found once its directory is. -/
theorem resolve_entry (t : Tree) (dir : Path) (name : String) :
    t.resolve (dir.entry name) =
      match t.resolve dir with
      | .error fault => .error fault
      | .ok p =>
        match t.entry? p with
        | none => .error .notFound
        | some (.file _) => .error .notADirectory
        | some .directory =>
          match nameFault? name with
          | some fault => .error fault
          | none => .ok (p.entry name) := by
  rw [resolve, Path.entry, resolveFrom_append, ← resolve]
  cases t.resolve dir with
  | error fault => rfl
  | ok p => exact resolveFrom_cons t p (.name name) []

theorem resolve_of_nil (h : Straight path []) : t.resolve path = .ok (place []) := by
  obtain ⟨lead, rfl, hlead⟩ := h
  exact resolveFrom_lead hlead []

/-- A path that can be resolved leads to the place of its names. -/
theorem eq_place_of_resolve (h : Straight path names) (hresolve : t.resolve path = .ok q) :
    q = place names ∧ Fit names := by
  induction names using List.reverseRecOn generalizing path q with
  | nil =>
      rw [resolve_of_nil h] at hresolve
      cases hresolve
      exact ⟨rfl, by simp [Fit]⟩
  | append_singleton names name ih =>
      obtain ⟨dir, rfl, hdir⟩ := h.exists_entry
      rw [resolve_entry] at hresolve
      split at hresolve
      · cases hresolve
      · rename_i p hp
        obtain ⟨rfl, hfit⟩ := ih hdir hp
        split at hresolve
        · cases hresolve
        · cases hresolve
        · split at hresolve
          · cases hresolve
          · rename_i hname
            cases hresolve
            exact ⟨entry_place names name, fit_append_iff.2 ⟨hfit, by simpa [Fit] using hname⟩⟩

/-- The directory of an entry that is found is there. -/
theorem directory_of_resolve_entry (h : Straight dir names)
    (hresolve : t.resolve (dir.entry name) = .ok q) :
    t.entry? (place names) = some .directory := by
  rw [resolve_entry] at hresolve
  split at hresolve
  · cases hresolve
  · rename_i p hp
    obtain ⟨rfl, _⟩ := eq_place_of_resolve h hp
    split at hresolve
    · cases hresolve
    · cases hresolve
    · assumption

/-- What is there is found, unless a disk cannot take its names. -/
theorem resolve_of_entry? (ht : t.WellFormed) (h : Straight path names)
    (he : t.entry? (place names) = some e) :
    t.resolve path = .ok (place names) ∨
      ∃ fault, t.resolve path = .error fault ∧ fault ≠ .notFound ∧ ¬ Fit names := by
  induction names using List.reverseRecOn generalizing path e with
  | nil => exact .inl (resolve_of_nil h)
  | append_singleton names name ih =>
      obtain ⟨dir, rfl, hdir⟩ := h.exists_entry
      -- The entry stands in a directory, so that the induction hypothesis applies to that.
      have hparent : t.entry? (place names) = some .directory := by
        rw [place_append] at he
        exact ht.directory_of_append (by simp [place]) (by simp) he
      rw [resolve_entry]
      rcases ih hdir hparent with hresolve | ⟨fault, hresolve, hfault, hfit⟩
      · simp only [hresolve, hparent]
        cases hname : nameFault? name with
        | none => exact .inl (by rw [entry_place])
        | some fault =>
            refine .inr ⟨fault, rfl, nameFault?_ne_notFound hname, fun hall => ?_⟩
            rw [(fit_append_iff.1 hall).2 name List.mem_cons_self] at hname
            cases hname
      · exact .inr ⟨fault, by rw [hresolve], hfault, fun hall => hfit (fit_append_iff.1 hall).1⟩

end TypedClient.Files.Tree
