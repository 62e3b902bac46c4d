import Mathlib.Data.List.Infix
import TypedClient.Files.Path
import TypedClient.Proofs.Text.Pieces

/-!
# Paths without steps back

`normalize` takes back what can be taken back, so that a second time changes nothing:
`normalize_join_normalize`. A path is below another one exactly if it is so step by step once
both are normalized (`isBelow_iff`). `location` is the place to which a path leads if all
directories on its way are there. After normalizing, that place is reached by names only
(`WellFormed.exists_straight`).
-/

namespace TypedClient.Files.Path

/-! ## Normalizing twice -/

/-- A reversed path on which resolving its own steps takes nothing back. -/
inductive Resolved : List Step → Prop
  | nil : Resolved []
  | cons (step : Step) (done : List Step) : Resolved done →
      resolveStep done step = step :: done → Resolved (step :: done)

@[simp]
theorem resolveStep_name (done : List Step) (name : String) :
    resolveStep done (.name name) = .name name :: done := by
  cases done with
  | nil => rfl
  | cons last done => cases last <;> rfl

@[simp]
theorem resolveStep_root (done : List Step) : resolveStep done .root = .root :: done := by
  cases done with
  | nil => rfl
  | cons last done => cases last <;> rfl

theorem Resolved.resolveStep {done : List Step} (h : Resolved done) (step : Step) :
    Resolved (resolveStep done step) := by
  cases step with
  | root => rw [resolveStep_root]; exact .cons _ _ h (resolveStep_root done)
  | name n => rw [resolveStep_name]; exact .cons _ _ h (resolveStep_name done n)
  | up =>
      cases h with
      | nil => exact .cons _ _ .nil rfl
      | cons last rest hrest hlast =>
          cases last with
          | root => exact .cons _ _ (.cons _ _ hrest hlast) rfl
          | up => exact hrest
          | name n => exact hrest

theorem Resolved.foldl {done : List Step} (h : Resolved done) (path : Path) :
    Resolved (path.foldl Path.resolveStep done) := by
  induction path generalizing done with
  | nil => exact h
  | cons step path ih => exact ih (h.resolveStep step)

theorem Resolved.foldl_reverse {done : List Step} (h : Resolved done) :
    done.reverse.foldl Path.resolveStep [] = done := by
  induction h with
  | nil => rfl
  | cons step done _ hstep ih =>
      rw [List.reverse_cons, List.foldl_append, ih]
      exact hstep

/-- What stands in front may be normalized first. -/
theorem normalize_normalize_append (base path : Path) :
    normalize (normalize base ++ path) = normalize (base ++ path) := by
  have hbase : Resolved (base.foldl resolveStep []) := Resolved.nil.foldl base
  simp only [normalize, List.foldl_append, hbase.foldl_reverse]

/-- A path is seen from a directory as it is seen from the normalized directory. -/
theorem normalize_join_normalize (base path : Path) :
    normalize (base.normalize.join path) = normalize (base.join path) := by
  unfold join
  split
  · rfl
  · exact normalize_normalize_append base path

/-- A path is below another one if its normal form goes on where that of the other one ends. -/
theorem isBelow_iff {base path : Path} :
    base.isBelow path = true ↔
      base.normalize <+: (base.join path).normalize ∧
        (base.join path).normalize ≠ base.normalize := by
  simp only [isBelow, normalize_join_normalize, Bool.and_eq_true, bne_iff_ne,
    List.isPrefixOf_iff_prefix]
  exact and_comm

example : (parse "/work").isBelow (parse "a/../../work/out") = true := by decide

example : (parse "/work").isBelow (parse "a/../../out") = false := by decide

/-! ## Plain names -/

/-- A text that is the name of an entry, and no longer path. -/
def IsPlain (name : String) : Prop := parse name = [.name name]

/-- A text without a slash is a plain name, unless it is too short to be one. -/
theorem isPlain_of_slash_not_mem {name : String} (hslash : '/' ∉ name.toList)
    (hlength : 2 < name.length) : IsPlain name := by
  have hpieces : Text.split (· == '/') name = [name] := by
    rw [Text.split, Text.splitList_eq_singleton, List.map_singleton, String.ofList_toList]
    intro c hc
    simpa using fun heq : c = '/' => hslash (heq ▸ hc)
  have hstep : stepOf? name = some (.name name) := by
    have hne : ∀ short : String, short.length ≤ 2 → name ≠ short := by
      rintro short hshort rfl
      omega
    rw [stepOf?, if_neg, if_neg (hne ".." (by decide))]
    simp [hne "" (by decide), hne "." (by decide)]
  have hhead : name.toList.head? ≠ some '/' := fun h => hslash (List.mem_of_head? h)
  simp [IsPlain, parse, hpieces, hstep, hhead]

/-! ## Places -/

/-- Only the first step of a path may lead to the root. -/
def WellFormed (path : Path) : Prop := Step.root ∉ path.tail

instance (path : Path) : Decidable path.WellFormed := inferInstanceAs (Decidable (_ ∉ _))

theorem stepOf?_ne_root {piece : String} : stepOf? piece ≠ some .root := by
  unfold stepOf?
  split
  · simp
  · split <;> simp

theorem root_not_mem_steps (pieces : List String) : Step.root ∉ pieces.filterMap stepOf? := by
  intro h
  obtain ⟨piece, _, hstep⟩ := List.mem_filterMap.1 h
  exact stepOf?_ne_root hstep

/-- Every text is a well-formed path. -/
theorem wellFormed_parse (text : String) : (parse text).WellFormed := by
  have hsteps := root_not_mem_steps (Text.split (· == '/') text)
  unfold parse WellFormed
  split
  · exact hsteps
  · exact fun h => hsteps (List.mem_of_mem_tail h)

theorem WellFormed.join {base path : Path} (hbase : base.WellFormed) (hpath : path.WellFormed) :
    (base.join path).WellFormed := by
  unfold Path.join
  split
  · exact hpath
  · rename_i habsolute
    have hroot : Step.root ∉ path := by
      cases path with
      | nil => simp
      | cons step path =>
          have hstep : step ≠ .root := by simpa [isAbsolute] using habsolute
          rw [List.mem_cons, not_or]
          exact ⟨hstep.symm, hpath⟩
    cases base with
    | nil => exact fun h => hroot (List.mem_of_mem_tail h)
    | cons step base =>
        simp only [WellFormed, List.cons_append, List.tail_cons, List.mem_append, not_or] at hbase ⊢
        exact ⟨hbase, hroot⟩

/-- The place that is reached from another one by a step. The root is its own parent. -/
def locationStep (here : Path) : Step → Path
  | .root => [.root]
  | .up => if here = [.root] then here else here.dropLast
  | .name n => here ++ [.name n]

/-- The place to which a path leads if all directories on its way are there. -/
def location (path : Path) : Path := path.foldl locationStep [.root]

/-- The place that is reached from the root by the given names. -/
def place (names : List String) : Path := .root :: names.map .name

@[simp]
theorem place_append (names more : List String) :
    place (names ++ more) = place names ++ more.map .name := by
  simp [place]

theorem entry_place (names : List String) (name : String) :
    (place names).entry name = place (names ++ [name]) := by
  simp [entry]

/-- Entries of one directory differ by their names. -/
theorem entry_injective (dir : Path) : Function.Injective dir.entry := by
  intro name other heq
  simpa [entry] using heq

/-- A path that goes on by the given names once it has gone to the root or up. -/
def Straight (path : Path) (names : List String) : Prop :=
  ∃ lead : List Step, path = lead ++ names.map .name ∧ ∀ n, Step.name n ∉ lead

/-- The steps of a reversed path: names, and behind them other steps only. -/
theorem exists_foldl_resolveStep {path : Path} (h : Step.root ∉ path) (names : List String)
    (lead : List Step) (hlead : ∀ n, Step.name n ∉ lead) :
    ∃ (names' : List String) (lead' : List Step), (∀ n, Step.name n ∉ lead') ∧
      path.foldl resolveStep (names.map .name ++ lead) = names'.map .name ++ lead' := by
  induction path generalizing names lead with
  | nil => exact ⟨names, lead, hlead, rfl⟩
  | cons step path ih =>
      rw [List.mem_cons, not_or] at h
      rw [List.foldl_cons]
      cases step with
      | root => exact absurd rfl h.1
      | name n =>
          rw [resolveStep_name]
          exact ih h.2 (n :: names) lead hlead
      | up =>
          cases names with
          | cons n names => exact ih h.2 names lead hlead
          | nil =>
              match lead, hlead with
              | [], _ => exact ih h.2 [] [.up] (by simp)
              | .root :: lead, hlead =>
                  exact ih h.2 [] (.up :: .root :: lead) (by simpa using hlead)
              | .up :: lead, hlead => exact ih h.2 [] lead (by simpa using hlead)
              | .name n :: lead, hlead => exact absurd List.mem_cons_self (hlead n)

/-- A well-formed path is straight once it is normalized. -/
theorem WellFormed.exists_straight {path : Path} (h : path.WellFormed) :
    ∃ names, Straight path.normalize names := by
  have hstart : ∀ lead : List Step, (∀ n, Step.name n ∉ lead) → ∀ rest : Path,
      Step.root ∉ rest → ∃ names, Straight (rest.foldl resolveStep lead).reverse names := by
    intro lead hlead rest hrest
    obtain ⟨names, lead', hlead', heq⟩ := exists_foldl_resolveStep hrest [] lead hlead
    refine ⟨names.reverse, lead'.reverse, ?_, fun n hn => hlead' n (List.mem_reverse.1 hn)⟩
    rw [← List.nil_append lead, ← List.map_nil (f := Step.name), heq, List.reverse_append,
      List.map_reverse]
  cases path with
  | nil => exact hstart [] (by simp) [] (by simp)
  | cons step path =>
      cases step with
      | root => exact hstart [.root] (by simp) path h
      | up => exact hstart [.up] (by simp) path h
      | name n => exact hstart [] (by simp) (.name n :: path) (by simpa [WellFormed] using h)

theorem Straight.entry {path : Path} {names : List String} (h : Straight path names)
    (name : String) : Straight (path.entry name) (names ++ [name]) := by
  obtain ⟨lead, rfl, hlead⟩ := h
  exact ⟨lead, by simp [Path.entry], hlead⟩

/-- The last name of a straight path is its last step. -/
theorem Straight.exists_entry {path : Path} {names : List String} {name : String}
    (h : Straight path (names ++ [name])) : ∃ dir, path = dir.entry name ∧ Straight dir names := by
  obtain ⟨lead, rfl, hlead⟩ := h
  exact ⟨lead ++ names.map .name, by simp [Path.entry], lead, rfl, hlead⟩

/-- Steps to the root and up do not leave the root. -/
theorem foldl_locationStep_lead {lead : List Step} (h : ∀ n, Step.name n ∉ lead) :
    lead.foldl locationStep [.root] = [.root] := by
  induction lead with
  | nil => rfl
  | cons step lead ih =>
      have hrest : ∀ n, Step.name n ∉ lead := fun n hn => h n (List.mem_cons_of_mem _ hn)
      cases step with
      | name n => exact absurd List.mem_cons_self (h n)
      | root => exact ih hrest
      | up => exact ih hrest

theorem foldl_locationStep_names (here : Path) (names : List String) :
    (names.map Step.name).foldl locationStep here = here ++ names.map .name := by
  induction names generalizing here with
  | nil => simp
  | cons n names ih =>
      rw [List.map_cons, List.foldl_cons, ih]
      simp [locationStep]

/-- A straight path leads to the place of its names. -/
theorem Straight.location_eq {path : Path} {names : List String} (h : Straight path names) :
    path.location = place names := by
  obtain ⟨lead, rfl, hlead⟩ := h
  rw [location, List.foldl_append, foldl_locationStep_lead hlead, foldl_locationStep_names]
  rfl

end TypedClient.Files.Path
