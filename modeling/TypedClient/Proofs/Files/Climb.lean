import TypedClient.Proofs.Files.Path
import TypedClient.Proofs.Naming.Unique

/-!
# Where a normalized path leads

From where it starts a path leads up some levels and then down by names: its `course`. Normalizing
keeps the names, but of the steps up at the front it keeps at most one, since a step up takes back
another one (`normalize_eq`). So a normalized path leads to the same place exactly if it starts at
the root or climbs one level at most (`sameLocation_normalize_iff`). What is found to lie below a
path lies there, unless the path is relative and the other one is not or climbs higher
(`inside_iff`).
-/

namespace TypedClient.Files.Path

/-! ## The course of a path -/

/-- Up some levels, then down by names. The names are listed from the last one to the first. -/
structure Course where
  up : Nat
  down : List String

namespace Course

/-- No step at all. -/
def start : Course := ⟨0, []⟩

/-- One step further. -/
def step : Course → Step → Course
  | _, .root => start
  | c, .name n => ⟨c.up, n :: c.down⟩
  | ⟨up, []⟩, .up => ⟨up + 1, []⟩
  | ⟨up, _ :: down⟩, .up => ⟨up, down⟩

/-- The reversed path in which steps along a course end up, with `lead` in front. -/
def stack (lead : List Step) (c : Course) : List Step :=
  c.down.map .name ++ (List.replicate (c.up % 2) .up ++ lead)

/-- The place to which a course leads from another place. At the root no level is left. -/
def spot (here : List String) (c : Course) : Path :=
  place (here.take (here.length - c.up) ++ c.down.reverse)

theorem le_up_step {s : Step} (hs : s ≠ .root) (c : Course) : c.up ≤ (c.step s).up := by
  obtain ⟨up, down⟩ := c
  cases s with
  | root => exact absurd rfl hs
  | name n => exact Nat.le_refl _
  | up =>
      cases down with
      | nil => exact Nat.le_succ up
      | cons n down => exact Nat.le_refl _

theorem foldl_names (c : Course) (names : List String) :
    (names.map Step.name).foldl step c = ⟨c.up, names.reverse ++ c.down⟩ := by
  induction names generalizing c with
  | nil => rfl
  | cons n names ih =>
      rw [List.map_cons, List.foldl_cons, ih]
      simp [step]

theorem foldl_ups (levels count : Nat) :
    (List.replicate count Step.up).foldl step ⟨levels, []⟩ = ⟨levels + count, []⟩ := by
  induction count generalizing levels with
  | zero => rfl
  | succ count ih =>
      rw [List.replicate_succ, List.foldl_cons, step, ih, Nat.add_right_comm, Nat.add_assoc]

end Course

/-- The course of a path. -/
def course (path : Path) : Course := path.foldl Course.step .start

/-- The levels that a path climbs above its start. -/
def climb (path : Path) : Nat := path.course.up

/-- The names by which a path goes down from the highest level that it climbs to. -/
def below (path : Path) : List String := path.course.down.reverse

variable {path base child : Path} {names : List String}

/-- A path that goes on climbs no less. -/
theorem climb_le_climb_append (h : Step.root ∉ child) (base : Path) :
    base.climb ≤ (base ++ child).climb := by
  have hfold : ∀ c : Course, c.up ≤ (child.foldl Course.step c).up := by
    induction child with
    | nil => exact fun c => Nat.le_refl _
    | cons s child ih =>
        rw [List.mem_cons, not_or] at h
        exact fun c => (c.le_up_step (Ne.symm h.1)).trans (ih h.2 _)
  rw [climb, climb, course, course, List.foldl_append]
  exact hfold _

/-- Steps up and then names are their own course. -/
theorem course_straight (levels : Nat) (names : List String) :
    course (List.replicate levels .up ++ names.map .name) = ⟨levels, names.reverse⟩ := by
  rw [course, List.foldl_append, Course.start, Course.foldl_ups, Course.foldl_names]
  simp

@[simp]
theorem climb_straight (levels : Nat) (names : List String) :
    climb (List.replicate levels .up ++ names.map .name) = levels := by
  rw [climb, course_straight]

@[simp]
theorem below_straight (levels : Nat) (names : List String) :
    below (List.replicate levels .up ++ names.map .name) = names := by
  rw [below, course_straight, List.reverse_reverse]

theorem root_not_mem_straight (levels : Nat) (names : List String) :
    Step.root ∉ List.replicate levels Step.up ++ names.map .name := by
  simp [List.mem_replicate]

/-! ## What normalizing keeps -/

/-- A step is resolved as it changes the course, but a second step up takes back the first. -/
theorem resolveStep_stack {s : Step} (hs : s ≠ .root) {lead : List Step}
    (hlead : lead = [] ∨ lead = [.root]) (c : Course) :
    resolveStep (c.stack lead) s = (c.step s).stack lead := by
  obtain ⟨up, down⟩ := c
  cases s with
  | root => exact absurd rfl hs
  | name n => exact resolveStep_name _ n
  | up =>
      cases down with
      | cons n down => rfl
      | nil =>
          rcases Nat.mod_two_eq_zero_or_one up with heven | hodd
          · have hnext : (up + 1) % 2 = 1 := by omega
            rcases hlead with rfl | rfl <;>
              simp [Course.stack, Course.step, heven, hnext, resolveStep]
          · have hnext : (up + 1) % 2 = 0 := by omega
            simp [Course.stack, Course.step, hodd, hnext, resolveStep]

theorem foldl_resolveStep_stack (h : Step.root ∉ path) {lead : List Step}
    (hlead : lead = [] ∨ lead = [.root]) (c : Course) :
    path.foldl resolveStep (c.stack lead) = (path.foldl Course.step c).stack lead := by
  induction path generalizing c with
  | nil => rfl
  | cons s path ih =>
      rw [List.mem_cons, not_or] at h
      rw [List.foldl_cons, resolveStep_stack (Ne.symm h.1) hlead, ih h.2, List.foldl_cons]

/-- The steps of a normalized path without those to the root. -/
def resolved (path : Path) : Path :=
  List.replicate (path.climb % 2) .up ++ path.below.map .name

theorem reverse_stack (lead : List Step) (path : Path) :
    (path.course.stack lead).reverse = lead.reverse ++ path.resolved := by
  simp [Course.stack, resolved, climb, below]

/-- A relative path keeps the names, and of several steps up at the front one or none. -/
theorem normalize_eq (h : Step.root ∉ path) : path.normalize = path.resolved := by
  have hfold := foldl_resolveStep_stack h (.inl rfl) .start
  rw [normalize, ← List.nil_append path.resolved, ← List.reverse_nil, ← reverse_stack]
  exact congrArg List.reverse hfold

theorem normalize_root_cons (h : Step.root ∉ path) :
    normalize (.root :: path) = .root :: path.resolved := by
  have hfold := foldl_resolveStep_stack h (.inr rfl) .start
  have hreverse := reverse_stack [.root] path
  rw [normalize, List.foldl_cons, resolveStep_root]
  exact (congrArg List.reverse hfold).trans hreverse

/-- A well-formed path is relative or goes to the root once, first. -/
theorem WellFormed.relative_or_absolute (h : path.WellFormed) :
    (path.isAbsolute = false ∧ Step.root ∉ path) ∨
      ∃ rest : Path, path = .root :: rest ∧ Step.root ∉ rest := by
  cases path with
  | nil => exact .inl ⟨rfl, List.not_mem_nil⟩
  | cons s rest =>
      cases s with
      | root => exact .inr ⟨rest, rfl, h⟩
      | up => exact .inl ⟨rfl, by simpa [WellFormed] using h⟩
      | name n => exact .inl ⟨rfl, by simpa [WellFormed] using h⟩

/-! ## Where paths lead -/

/-- The place to which a path leads from another place if all directories on its way are there. -/
def locationFrom (here path : Path) : Path := path.foldl locationStep here

/-- A step up from a place. -/
theorem locationStep_up (names : List String) :
    locationStep (place names) .up = place names.dropLast := by
  cases names with
  | nil => rfl
  | cons n names => simp [locationStep, place, List.dropLast_cons_of_ne_nil, List.map_dropLast]

theorem locationStep_spot {s : Step} (hs : s ≠ .root) (here : List String) (c : Course) :
    locationStep (c.spot here) s = (c.step s).spot here := by
  obtain ⟨up, down⟩ := c
  cases s with
  | root => exact absurd rfl hs
  | name n => simp [Course.spot, Course.step, locationStep, place]
  | up =>
      rw [Course.spot, locationStep_up, Course.spot]
      cases down with
      | cons n down =>
          congr 1
          simp [Course.step, ← List.append_assoc]
      | nil =>
          have htake : (here.take (here.length - up)).dropLast =
              here.take (here.length - (up + 1)) := by
            rw [List.dropLast_eq_take, List.take_take, List.length_take]
            congr 1
            omega
          simp [Course.step, htake]

/-- A relative path leads up from where it starts, and down by its names. -/
theorem locationFrom_place (h : Step.root ∉ path) (here : List String) :
    locationFrom (place here) path =
      place (here.take (here.length - path.climb) ++ path.below) := by
  have hfold : ∀ c : Course, locationFrom (c.spot here) path =
      (path.foldl Course.step c).spot here := by
    induction path with
    | nil => exact fun c => rfl
    | cons s path ih =>
        rw [List.mem_cons, not_or] at h
        intro c
        rw [locationFrom, List.foldl_cons, locationStep_spot (Ne.symm h.1)]
        exact ih h.2 _
  have hstart := hfold .start
  rwa [show Course.spot here .start = place here by simp [Course.spot, Course.start]] at hstart

/-- A path from the root leads to the place of its names, wherever it starts. -/
theorem locationFrom_root_cons (h : Step.root ∉ path) (here : Path) :
    locationFrom here (.root :: path) = place path.below := by
  have hroot := locationFrom_place h []
  rw [List.take_nil, List.nil_append] at hroot
  exact hroot

/-- Two paths lead to the same place from every directory that is deep enough. -/
def SameLocation (path other : Path) : Prop :=
  ∃ depth, ∀ here : List String, depth ≤ here.length →
    locationFrom (place here) path = locationFrom (place here) other

/-- From every directory that is deep enough, one path leads to the place of another one or below
it. -/
def Inside (base path : Path) : Prop :=
  ∃ depth, ∀ here : List String, depth ≤ here.length →
    locationFrom (place here) base <+: locationFrom (place here) path

theorem name_injective : Function.Injective Step.name := fun _ _ => Step.name.inj

theorem place_injective : Function.Injective place := by
  intro names others heq
  exact List.map_injective_iff.2 name_injective (List.cons.inj heq).2

theorem place_prefix_iff {names others : List String} :
    place names <+: place others ↔ names <+: others := by
  rw [place, place, List.cons_prefix_cons, List.prefix_map_iff_of_injective name_injective]
  exact and_iff_right rfl

/-! ## When normalizing keeps the location -/

theorem sameLocation_normalize_relative (h : Step.root ∉ path) :
    SameLocation path.normalize path ↔ path.climb ≤ 1 := by
  have hnormal : ∀ here, locationFrom (place here) path.normalize =
      place (here.take (here.length - path.climb % 2) ++ path.below) := fun here => by
    rw [normalize_eq h, resolved, locationFrom_place (root_not_mem_straight _ _), climb_straight,
      below_straight]
  constructor
  · rintro ⟨depth, hsame⟩
    -- From deep enough, each level that is not climbed makes the place a name longer.
    have hlength := congrArg List.length (place_injective
      ((hnormal (List.replicate (depth + path.climb) "")).symm.trans
        ((hsame _ (by simp)).trans (locationFrom_place h _))))
    simp only [List.length_append, List.length_take, List.length_replicate] at hlength
    omega
  · intro hle
    refine ⟨0, fun here _ => ?_⟩
    rw [hnormal, locationFrom_place h, Nat.mod_eq_of_lt (by omega)]

theorem sameLocation_normalize_absolute (h : Step.root ∉ path) :
    SameLocation (normalize (.root :: path)) (.root :: path) := by
  refine ⟨0, fun here _ => ?_⟩
  rw [normalize_root_cons h, resolved, locationFrom_root_cons (root_not_mem_straight _ _),
    below_straight, locationFrom_root_cons h]

/-- A normalized path leads to the same place if the path starts at the root or climbs one level at
most, and only then. -/
theorem sameLocation_normalize_iff (h : path.WellFormed) :
    SameLocation path.normalize path ↔ path.isAbsolute = true ∨ path.climb ≤ 1 := by
  rcases h.relative_or_absolute with ⟨habsolute, hroot⟩ | ⟨rest, rfl, hroot⟩
  · rw [sameLocation_normalize_relative hroot, habsolute]
    simp
  · exact ⟨fun _ => .inl rfl, fun _ => sameLocation_normalize_absolute hroot⟩

/-! ## What lies below a path -/

/-- Steps up and names that go on others: as many steps up and more names, or no names at first. -/
theorem straight_prefix {levels more : Nat} {names others : List String}
    (h : List.replicate levels Step.up ++ names.map .name <+:
      List.replicate more .up ++ others.map .name) :
    levels = more ∧ names <+: others ∨ levels < more ∧ names = [] := by
  induction levels generalizing more with
  | zero =>
      cases more with
      | zero =>
          rw [List.replicate_zero, List.nil_append, List.nil_append,
            List.prefix_map_iff_of_injective name_injective] at h
          exact .inl ⟨rfl, h⟩
      | succ more =>
          cases names with
          | nil => exact .inr ⟨by omega, rfl⟩
          | cons n names => simp [List.replicate_succ] at h
  | succ levels ih =>
      cases more with
      | zero =>
          cases others with
          | nil => simp [List.replicate_succ] at h
          | cons n others => simp [List.replicate_succ] at h
      | succ more =>
          simp only [List.replicate_succ, List.cons_append, List.cons_prefix_cons, true_and] at h
          exact (ih h).imp (.imp_left (congrArg (· + 1))) (.imp_left (by omega))

/-- What is found below a path from the root lies there. -/
theorem inside_of_absolute (hbase : Step.root ∉ base) (hpath : Step.root ∉ path)
    (h : normalize (.root :: base) <+: normalize (.root :: path)) :
    Inside (.root :: base) (.root :: path) := by
  rw [normalize_root_cons hbase, normalize_root_cons hpath, List.cons_prefix_cons] at h
  refine ⟨0, fun here _ => ?_⟩
  rw [locationFrom_root_cons hbase, locationFrom_root_cons hpath, place_prefix_iff]
  rcases straight_prefix h.2 with ⟨-, hprefix⟩ | ⟨-, hnil⟩
  · exact hprefix
  · rw [hnil]
    exact List.nil_prefix

/-- A path from the root leads to a fixed place, which cannot lie below that of a relative path from
everywhere. -/
theorem not_inside_absolute (hbase : Step.root ∉ base) (hpath : Step.root ∉ path) :
    ¬ Inside base (.root :: path) := by
  rintro ⟨depth, hinside⟩
  have hlength := (hinside (List.replicate (depth + base.climb + path.below.length + 1) "")
    (by simp; omega)).length_le
  rw [locationFrom_place hbase, locationFrom_root_cons hpath] at hlength
  simp only [place, List.length_cons, List.length_map, List.length_append, List.length_take,
    List.length_replicate] at hlength
  omega

/-- A path that climbs higher than another one leads out of it, from some directory. -/
theorem not_inside_of_climb_lt (hbase : Step.root ∉ base) (hpath : Step.root ∉ path)
    (h : base.climb < path.climb) : ¬ Inside base path := by
  rintro ⟨depth, hinside⟩
  -- A name by which the path does not go down again.
  have hfresh : Naming.unique "" path.below ∉ path.below := Naming.unique_not_mem _ _
  generalize Naming.unique "" path.below = fresh at hfresh
  have hprefix := hinside (List.replicate (depth + path.climb) fresh) (by simp)
  rw [locationFrom_place hbase, locationFrom_place hpath, place_prefix_iff, List.take_replicate,
    List.take_replicate, List.length_replicate] at hprefix
  obtain ⟨levels, hlevels⟩ : ∃ levels, min (depth + path.climb - base.climb) (depth + path.climb) =
      min (depth + path.climb - path.climb) (depth + path.climb) + (levels + 1) :=
    ⟨path.climb - base.climb - 1, by omega⟩
  rw [hlevels, List.replicate_add, List.append_assoc, List.prefix_append_right_inj,
    List.replicate_succ, List.cons_append] at hprefix
  exact hfresh (List.IsPrefix.subset hprefix List.mem_cons_self)

/-- What is found below a relative path lies there if it climbs no higher. -/
theorem inside_of_climb_eq (hbase : Step.root ∉ base) (hpath : Step.root ∉ path)
    (h : base.normalize <+: path.normalize) (hclimb : path.climb = base.climb) :
    Inside base path := by
  rw [normalize_eq hbase, normalize_eq hpath, resolved, resolved, hclimb] at h
  refine ⟨0, fun here _ => ?_⟩
  rw [locationFrom_place hbase, locationFrom_place hpath, hclimb, place_prefix_iff,
    List.prefix_append_right_inj]
  rcases straight_prefix h with ⟨-, hprefix⟩ | ⟨hlt, -⟩
  · exact hprefix
  · exact absurd hlt (Nat.lt_irrefl _)

/-- What is found below a path lies there, unless the path is relative and the other one starts at
the root or climbs higher. -/
theorem inside_iff (hbase : base.WellFormed) (hchild : child.WellFormed)
    (h : base.isBelow child = true) :
    Inside base (base.join child) ↔
      base.isAbsolute = true ∨
        child.isAbsolute = false ∧ (base ++ child).climb = base.climb := by
  have hprefix := (isBelow_iff.1 h).1
  rcases hbase.relative_or_absolute with ⟨hrelative, hbaseroot⟩ | ⟨rest, rfl, hrest⟩
  · rw [hrelative]
    rcases hchild.relative_or_absolute with ⟨hchildrelative, hchildroot⟩ | ⟨rest, rfl, hrest⟩
    · have hroot : Step.root ∉ base ++ child := by simp [hbaseroot, hchildroot]
      rw [join, if_neg (by simp [hchildrelative])] at hprefix ⊢
      constructor
      · intro hinside
        refine .inr ⟨hchildrelative, ?_⟩
        by_contra hne
        have hle := climb_le_climb_append hchildroot base
        exact not_inside_of_climb_lt hbaseroot hroot (by omega) hinside
      · rintro (hfalse | ⟨-, hclimb⟩)
        · cases hfalse
        · exact inside_of_climb_eq hbaseroot hroot hprefix hclimb
    · have hno := not_inside_absolute hbaseroot hrest
      simpa [join, isAbsolute] using hno
  · refine ⟨fun _ => .inl rfl, fun _ => ?_⟩
    have hjoin := hbase.join hchild
    obtain ⟨joined, heq⟩ : ∃ joined, join (.root :: rest) child = .root :: joined := by
      rcases hchild.relative_or_absolute with ⟨hchildrelative, _⟩ | ⟨other, rfl, _⟩
      · exact ⟨rest ++ child, by simp [join, hchildrelative]⟩
      · exact ⟨other, rfl⟩
    rw [heq] at hprefix hjoin ⊢
    exact inside_of_absolute hrest hjoin hprefix

/-! ## Paths as texts -/

/-- Normalizing a path keeps the location to which it leads, from every directory that is deep
enough, exactly if it starts at the root or climbs at most one level above its start. A path that
is accepted as one below `base` leads into `base` from every such directory exactly if `base`
starts at the root, or else the path is relative, too, and seen from `base` climbs no higher than
`base` itself. -/
theorem location_kept_iff (path base child : String) :
    (SameLocation (parse path).normalize (parse path) ↔
      (parse path).isAbsolute = true ∨ (parse path).climb ≤ 1) ∧
      ((parse base).isBelow (parse child) = true →
        (Inside (parse base) ((parse base).join (parse child)) ↔
          (parse base).isAbsolute = true ∨
            (parse child).isAbsolute = false ∧
              (parse base ++ parse child).climb = (parse base).climb)) :=
  ⟨sameLocation_normalize_iff (wellFormed_parse path),
    inside_iff (wellFormed_parse base) (wellFormed_parse child)⟩

/-- The path `a/../../lib` climbs one level, and `src/../a` behind `../lib` climbs no higher than
`../lib` alone. -/
theorem location_kept_lib :
    SameLocation (parse "a/../../lib").normalize (parse "a/../../lib") ∧
      (parse "../lib").isBelow (parse "src/../a") = true ∧
      Inside (parse "../lib") ((parse "../lib").join (parse "src/../a")) := by
  have hbelow : (parse "../lib").isBelow (parse "src/../a") = true := by decide
  obtain ⟨hsame, hinside⟩ := location_kept_iff "a/../../lib" "../lib" "src/../a"
  exact ⟨hsame.2 (by decide), hbelow, (hinside hbelow).2 (by decide)⟩

/-- Two steps up are taken for none. So a path that climbs two levels above `a`, to another
directory of that name, is accepted as one below `a`. -/
theorem not_location_kept :
    ¬ SameLocation (parse "../..").normalize (parse "../..") ∧
      (parse "a").isBelow (parse "../../../a/b") = true ∧
      ¬ Inside (parse "a") ((parse "a").join (parse "../../../a/b")) := by
  have hbelow : (parse "a").isBelow (parse "../../../a/b") = true := by decide
  rw [sameLocation_normalize_iff (wellFormed_parse _),
    inside_iff (wellFormed_parse _) (wellFormed_parse _) hbelow]
  exact ⟨by decide, hbelow, by decide⟩

end TypedClient.Files.Path
