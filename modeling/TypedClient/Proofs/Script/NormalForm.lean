import Mathlib.Data.List.Chain
import TypedClient.Proofs.Script.Exports

/-!
# Laid out texts

`InPlace` says which lines layout gives: trimmed lines at the level that the lines before them
leave, with single blank lines between them. Layout leaves such lines alone
(`InPlace.placeLines_eq_self`), so that it is idempotent. What the lines say is what it was before,
at levels that are counted in integers here (`indented`): there the depth could fall below zero,
and it does not (`depthAfter_nonneg`). Main statement: `layout_normalForm`.
-/

namespace TypedClient.Script

open Text (isBlank lineList)

variable {line raw core ws : List Char} {ls : List (List Char)}

/-! ## Trimmed lines -/

theorem trimLine_blanks_append (hws : ∀ w ∈ ws, isBlank w = true) (line : List Char) :
    trimLine (ws ++ line) = trimLine line := by
  rw [trimLine, List.dropWhile_append_of_pos hws, trimLine]

theorem trimLine_append_blanks (hws : ∀ w ∈ ws, isBlank w = true) (line : List Char) :
    trimLine (line ++ ws) = trimLine line := by
  induction ws generalizing line with
  | nil => rw [List.append_nil]
  | cons w ws ih =>
      rw [List.append_cons, ih fun v hv => hws v (List.mem_cons_of_mem _ hv),
        trimLine_append_blank (hws w List.mem_cons_self)]

/-- Nothing is left to trim. -/
@[simp]
theorem trimLine_trimLine (line : List Char) : trimLine (trimLine line) = trimLine line := by
  obtain ⟨before, after, heq, hbefore, hafter⟩ := exists_trimLine line
  calc trimLine (trimLine line)
      = trimLine (before ++ trimLine line ++ after) := by
        rw [trimLine_append_blanks hafter, trimLine_blanks_append hbefore]
    _ = trimLine line := by rw [heq]

/-- A trimmed line ends with no blank. -/
theorem isBlank_eq_false_of_mem_getLast?_trimLine {c : Char}
    (hc : c ∈ (trimLine line).getLast?) : isBlank c = false := by
  rw [trimLine, Text.dropEndWhile, List.getLast?_reverse] at hc
  have hhead := List.head?_dropWhile_not isBlank (line.dropWhile isBlank).reverse
  rw [Option.mem_def.1 hc] at hhead
  simpa using hhead

/-- A line in its place is the line behind blanks. -/
theorem exists_placeLine (level : Nat) (line : List Char) :
    ∃ indent, placeLine level line = indent ++ line ∧ ∀ w ∈ indent, isBlank w = true := by
  have hlevel : ∀ w ∈ List.replicate (level * indentWidth) ' ', isBlank w = true :=
    Lexer.isBlank_of_mem_replicate
  unfold placeLine
  split
  · refine ⟨List.replicate (level * indentWidth) ' ' ++ [' '], by simp, fun w hw => ?_⟩
    rcases List.mem_append.1 hw with hw | hw
    · exact hlevel w hw
    · obtain rfl := List.mem_singleton.1 hw
      decide
  · exact ⟨_, rfl, hlevel⟩

@[simp]
theorem trimLine_placeLine (level : Nat) (line : List Char) :
    trimLine (placeLine level line) = trimLine line := by
  obtain ⟨indent, heq, hindent⟩ := exists_placeLine level line
  rw [heq, trimLine_blanks_append hindent]

/-! ## Lines in place -/

theorem placeLines_blank (h : trimLine raw = []) (depth : Nat) (started gap : Bool)
    (ls : List (List Char)) :
    placeLines depth started gap (raw :: ls) = placeLines depth started true ls := by
  simp [placeLines, h]

theorem placeLines_line (h : trimLine raw ≠ []) (depth : Nat) (started gap : Bool)
    (ls : List (List Char)) :
    placeLines depth started gap (raw :: ls) =
      (if started && gap then [[]] else []) ++
        placeLine (levels depth (trimLine raw)).1 (trimLine raw) ::
          placeLines (levels depth (trimLine raw)).2 true false ls := by
  rw [placeLines, if_neg (by simpa using h)]
  dsimp only
  split <;> rfl

/-- The lines are in place from a depth on: each stands at its level and has no blanks at its end,
and blank lines stand alone between others. Only after another line one of them may come first. -/
inductive InPlace : Nat → Bool → List (List Char) → Prop
  | nil (depth : Nat) (started : Bool) : InPlace depth started []
  | line {depth : Nat} {started : Bool} {core : List Char} {rest : List (List Char)} :
      trimLine core = core → core ≠ [] → InPlace (levels depth core).2 true rest →
        InPlace depth started (placeLine (levels depth core).1 core :: rest)
  | gap {depth : Nat} {lines : List (List Char)} :
      InPlace depth false lines → lines ≠ [] → InPlace depth true ([] :: lines)

/-- Layout puts lines in place. -/
theorem inPlace_placeLines (depth : Nat) (started gap : Bool) (ls : List (List Char)) :
    InPlace depth started (placeLines depth started gap ls) := by
  induction ls generalizing depth started gap with
  | nil => exact .nil depth started
  | cons raw ls ih =>
      by_cases hblank : trimLine raw = []
      · rw [placeLines_blank hblank]
        exact ih depth started true
      · have hline (started : Bool) : InPlace depth started
            (placeLine (levels depth (trimLine raw)).1 (trimLine raw) ::
              placeLines (levels depth (trimLine raw)).2 true false ls) :=
          .line (trimLine_trimLine raw) hblank (ih _ _ _)
        rw [placeLines_line hblank]
        split
        · rename_i hgap
          obtain rfl : started = true := (Bool.and_eq_true_iff.1 hgap).1
          exact .gap (hline false) (List.cons_ne_nil _ _)
        · exact hline started

namespace InPlace

variable {depth : Nat} {started : Bool}

/-- Lines in place stay as they are. -/
theorem placeLines_eq_self (h : InPlace depth started ls) :
    placeLines depth started false ls = ls := by
  induction h with
  | nil => rfl
  | @line depth started core rest htrim hne _ ih =>
      have hplaced (level : Nat) : trimLine (placeLine level core) = core := by
        rw [trimLine_placeLine, htrim]
      rw [placeLines_line (by rwa [hplaced]), hplaced, ih]
      simp
  | @gap depth _ hlines hne ih =>
      cases hlines with
      | nil => exact absurd rfl hne
      | @line _ _ core rest htrim hcore _ =>
          -- The blank line is passed over, and shows before the line that follows.
          have hline : trimLine (placeLine (levels depth core).1 core) ≠ [] := by
            rwa [trimLine_placeLine, htrim]
          rw [placeLines_line hline] at ih
          rw [placeLines_blank rfl, placeLines_line hline]
          exact congrArg ([] :: ·) ih

/-- No line ends with a blank. -/
theorem isBlank_eq_false (h : InPlace depth started ls) :
    ∀ line ∈ ls, ∀ c ∈ line.getLast?, isBlank c = false := by
  induction h with
  | nil => simp
  | line htrim hne _ ih =>
      refine List.forall_mem_cons.2 ⟨fun c hc => ?_, ih⟩
      obtain ⟨indent, heq, -⟩ := exists_placeLine _ _
      rw [heq, List.getLast?_append_of_ne_nil _ hne, ← htrim] at hc
      exact isBlank_eq_false_of_mem_getLast?_trimLine hc
  | gap _ _ ih => exact List.forall_mem_cons.2 ⟨by simp, ih⟩

/-- The first line is not blank, unless another one came before it. -/
theorem head_not_blank (h : InPlace depth false ls) : ∀ line ∈ ls.head?, trimLine line ≠ [] := by
  cases h with
  | nil => simp
  | line htrim hne _ => simpa [htrim] using hne

/-- Of two lines in a row one is not blank. -/
theorem isChain (h : InPlace depth started ls) :
    ls.IsChain fun line next => trimLine line ≠ [] ∨ trimLine next ≠ [] := by
  induction h with
  | nil => exact .nil
  | line htrim hne _ ih =>
      refine ih.cons fun next _ => .inl ?_
      rwa [trimLine_placeLine, htrim]
  | gap hlines _ ih => exact ih.cons fun next hnext => .inr (hlines.head_not_blank next hnext)

/-- The last line is not blank. -/
theorem getLast_not_blank (h : InPlace depth started ls) :
    ∀ line ∈ ls.getLast?, trimLine line ≠ [] := by
  induction h with
  | nil => simp
  | @line depth started core rest htrim hne _ ih =>
      cases rest with
      | nil => simpa [htrim] using hne
      | cons next rest => simpa only [List.getLast?_cons_cons] using ih
  | @gap depth lines _ hne ih =>
      obtain ⟨next, rest, rfl⟩ := List.exists_cons_of_ne_nil hne
      simpa only [List.getLast?_cons_cons] using ih

end InPlace

/-! ## Depth as an integer -/

/-- The level that a line takes away, where one is left. -/
def closing (depth : Int) (line : List Char) : Int :=
  if closesLevel line = true ∧ 0 < depth then 1 else 0

/-- The level of a line at a given depth. -/
def levelAt (depth : Int) (line : List Char) : Int := depth - closing depth line

/-- The depth behind a line. -/
def depthBehind (depth : Int) (line : List Char) : Int :=
  depth + (if opensLevel line then 1 else 0) - closing depth line

/-- The depth behind some lines, from none on. -/
def depthAfter (lines : List (List Char)) : Int := lines.foldl depthBehind 0

/-- Each line at its level. -/
def indented (depth : Int) : List (List Char) → List (List Char)
  | [] => []
  | line :: rest =>
    placeLine (levelAt depth line).toNat line :: indented (depthBehind depth line) rest

theorem levels_fst (depth : Nat) (line : List Char) :
    ((levels depth line).1 : Int) = levelAt depth line := by
  unfold levels levelAt closing
  cases closesLevel line <;> cases depth <;> simp

theorem levels_snd (depth : Nat) (line : List Char) :
    ((levels depth line).2 : Int) = depthBehind depth line := by
  unfold levels depthBehind closing
  cases closesLevel line <;> cases opensLevel line <;> cases depth <;> simp

theorem closing_le {depth : Int} (h : 0 ≤ depth) (line : List Char) :
    closing depth line ≤ depth := by
  unfold closing
  split <;> omega

theorem levelAt_nonneg {depth : Int} (h : 0 ≤ depth) (line : List Char) :
    0 ≤ levelAt depth line := Int.sub_nonneg.2 (closing_le h line)

theorem depthBehind_nonneg {depth : Int} (h : 0 ≤ depth) (line : List Char) :
    0 ≤ depthBehind depth line := by
  have hclosing := closing_le h line
  unfold depthBehind
  split <;> omega

/-- The depth never falls below zero. -/
theorem depthAfter_nonneg (lines : List (List Char)) : 0 ≤ depthAfter lines := by
  have hfold : ∀ depth : Int, 0 ≤ depth → 0 ≤ lines.foldl depthBehind depth := by
    induction lines with
    | nil => exact fun _ h => h
    | cons line lines ih => exact fun depth h => ih _ (depthBehind_nonneg h line)
  exact hfold 0 (Int.le_refl 0)

/-! ## What lines say -/

/-- The lines that are not blank. -/
def shown (lines : List (List Char)) : List (List Char) :=
  lines.filter fun line => trimLine line ≠ []

/-- The lines that are not blank, without the blanks at their ends. -/
def contents (lines : List (List Char)) : List (List Char) := (shown lines).map trimLine

theorem shown_cons_blank (h : trimLine raw = []) (ls : List (List Char)) :
    shown (raw :: ls) = shown ls := List.filter_cons_of_neg (by simpa using h)

theorem shown_cons_line (h : trimLine raw ≠ []) (ls : List (List Char)) :
    shown (raw :: ls) = raw :: shown ls := List.filter_cons_of_pos (by simpa using h)

/-- The lines that are not blank stand at their levels. -/
theorem shown_placeLines (depth : Nat) (started gap : Bool) (ls : List (List Char)) :
    shown (placeLines depth started gap ls) = indented depth (contents ls) := by
  induction ls generalizing depth started gap with
  | nil => rfl
  | cons raw ls ih =>
      by_cases hblank : trimLine raw = []
      · rw [placeLines_blank hblank, ih, contents, contents, shown_cons_blank hblank]
      · have hgap (lines : List (List Char)) :
            shown ((if started && gap then [[]] else []) ++ lines) = shown lines := by
          split
          · exact shown_cons_blank rfl lines
          · rfl
        have hcontents : contents (raw :: ls) = trimLine raw :: contents ls := by
          rw [contents, shown_cons_line hblank, List.map_cons, contents]
        rw [placeLines_line hblank, hgap, shown_cons_line (by simpa using hblank), ih, hcontents,
          indented, ← levels_fst, ← levels_snd, Int.toNat_natCast]

/-- Lines at their levels say what they said. -/
theorem map_trimLine_indented (depth : Int) (ls : List (List Char)) :
    (indented depth ls).map trimLine = ls.map trimLine := by
  induction ls generalizing depth with
  | nil => rfl
  | cons line ls ih => rw [indented, List.map_cons, List.map_cons, trimLine_placeLine, ih]

theorem contents_placeLines (depth : Nat) (started gap : Bool) (ls : List (List Char)) :
    contents (placeLines depth started gap ls) = contents ls := by
  rw [contents, shown_placeLines, map_trimLine_indented, contents, List.map_map]
  exact List.map_congr_left fun line _ => trimLine_trimLine line

/-! ## Texts -/

/-- The lines of a text with a line feed behind each, if none of them ends with a blank. -/
theorem lineList_flatMap (hfeed : ∀ line ∈ ls, '\n' ∉ line)
    (hblank : ∀ line ∈ ls, ∀ c ∈ line.getLast?, isBlank c = false) :
    lineList (ls.flatMap (· ++ ['\n'])) = ls := by
  have hreturn : ls.map Text.dropReturn = ls := by
    refine (List.map_congr_left fun line hline => ?_).trans (List.map_id ls)
    exact if_neg fun hlast => absurd (hblank line hline '\r' hlast) (by decide)
  rw [lineList, splitList_flatMap hfeed, List.reverse_append]
  simp [List.map_reverse, hreturn]

/-- The lines of a text that is laid out are in place. -/
theorem lineList_layout (text : String) :
    lineList (layout text).toList = placeLines 0 false false (lineList text.toList) := by
  rw [layout, String.toList_ofList]
  exact lineList_flatMap
    (feed_not_mem_placeLines _ _ _ fun _ hline => Text.feed_not_mem_of_mem_lineList hline)
    (inPlace_placeLines _ _ _ _).isBlank_eq_false

/-- The lines of a text that are not blank, without the blanks at their ends. -/
def contentLines (text : String) : List (List Char) := contents (lineList text.toList)

theorem contentLines_layout (text : String) : contentLines (layout text) = contentLines text := by
  rw [contentLines, lineList_layout, contents_placeLines, contentLines]

theorem layout_layout (text : String) : layout (layout text) = layout text := by
  rw [layout, lineList_layout, (inPlace_placeLines _ _ _ _).placeLines_eq_self, layout]

/-- A text has no blank line at its start and no two blank lines in a row, and unless it is empty
it ends with one line feed. -/
structure Tidy (text : String) : Prop where
  first : ∀ line ∈ (lineList text.toList).head?, trimLine line ≠ []
  apart : (lineList text.toList).IsChain fun line next => trimLine line ≠ [] ∨ trimLine next ≠ []
  last : text = "" ∨ ∃ init c, text.toList = init ++ [c, '\n'] ∧ c ≠ '\n'

/-- Lines of which the last one is not blank end with one line feed. -/
theorem exists_flatMap_eq (hfeed : ∀ line ∈ ls, '\n' ∉ line)
    (hlast : ∀ line ∈ ls.getLast?, trimLine line ≠ []) (hne : ls ≠ []) :
    ∃ init c, ls.flatMap (· ++ ['\n']) = init ++ [c, '\n'] ∧ c ≠ '\n' := by
  obtain ⟨before, line, rfl⟩ := (List.eq_nil_or_concat' ls).resolve_left hne
  have hline : line ≠ [] := by
    rintro rfl
    exact hlast [] (by simp) rfl
  obtain ⟨start, c, rfl⟩ := (List.eq_nil_or_concat' line).resolve_left hline
  refine ⟨before.flatMap (· ++ ['\n']) ++ start, c, by simp, ?_⟩
  rintro rfl
  exact hfeed (start ++ ['\n']) (by simp) (by simp)

theorem tidy_layout (text : String) : Tidy (layout text) where
  first := by
    rw [lineList_layout]
    exact (inPlace_placeLines _ _ _ _).head_not_blank
  apart := by
    rw [lineList_layout]
    exact (inPlace_placeLines _ _ _ _).isChain
  last := by
    have hplaced := inPlace_placeLines 0 false false (lineList text.toList)
    by_cases hempty : placeLines 0 false false (lineList text.toList) = []
    · exact .inl (by rw [layout, hempty]; rfl)
    · have hfeed : ∀ line ∈ placeLines 0 false false (lineList text.toList), '\n' ∉ line :=
        feed_not_mem_placeLines _ _ _ fun _ hline => Text.feed_not_mem_of_mem_lineList hline
      rw [layout, String.toList_ofList]
      exact .inr (exists_flatMap_eq hfeed hplaced.getLast_not_blank hempty)

/-- Layout gives a normal form. Doing it twice changes nothing; the lines that are not blank stay
what they are and in order, each at the level that the lines before it leave; blank lines are not
at the start, not in a row, and one line feed ends the text. The depth is at least zero behind
every line, and so is the level of each. -/
theorem layout_normalForm (text : String) :
    layout (layout text) = layout text ∧
      contentLines (layout text) = contentLines text ∧
      Tidy (layout text) ∧
      shown (lineList (layout text).toList) = indented 0 (contentLines text) ∧
      ∀ n, 0 ≤ depthAfter ((contentLines text).take n) ∧
        ∀ line, 0 ≤ levelAt (depthAfter ((contentLines text).take n)) line := by
  refine ⟨layout_layout text, contentLines_layout text, tidy_layout text, ?_, fun n => ?_⟩
  · rw [lineList_layout, shown_placeLines]
    rfl
  · exact ⟨depthAfter_nonneg _, levelAt_nonneg (depthAfter_nonneg _)⟩

example : layout ")\n)\nx(\n\n\n y\n" = ")\n)\nx(\n\n    y\n" := by decide

end TypedClient.Script
