import TypedClient.Proofs.Script.Layout
import TypedClient.Proofs.Text.Pieces

/-!
# What a module exports by name

`exports` reads a module line by line: a line that is an export clause exports the name in its
braces. Laying out a text moves only blanks, and so keeps what is exported (`exports_layout`).
-/

namespace TypedClient.Script

open Text (words)

/-- The name that a line exports, by its words. -/
def exported? : List String → Option String
  | ["export", "\x7b", name, "\x7d", "from", _] => some name
  | ["export", "type", "\x7b", name, "\x7d", "from", _] => some name
  | ["export", "\x7b", "default", "as", name, "\x7d", "from", _] => some name
  | _ => none

/-- The names that lines export, in order. -/
def exportsOf (lines : List (List Char)) : List String := lines.filterMap (exported? ∘ words)

/-- The names that a module exports in its export clauses, in order. -/
def exports (text : String) : List String := exportsOf (Text.splitList (· == '\n') text.toList)

theorem exportsOf_append (ls ls' : List (List Char)) :
    exportsOf (ls ++ ls') = exportsOf ls ++ exportsOf ls' := List.filterMap_append

theorem exportsOf_cons (line : List Char) (ls : List (List Char)) :
    exportsOf (line :: ls) = exportsOf [line] ++ exportsOf ls := exportsOf_append [line] ls

/-- What a line exports depends on its words. -/
theorem exportsOf_congr {line line' : List Char} (h : words line = words line') :
    exportsOf [line] = exportsOf [line'] := by
  simp only [exportsOf, List.filterMap_cons, Function.comp_apply, h]

/-- A trimmed line has the same words. -/
theorem words_trimLine (line : List Char) : words (trimLine line) = words line := by
  obtain ⟨before, after, heq, hbefore, hafter⟩ := exists_trimLine line
  rw [← heq, Text.words_append_blank hafter, Text.words_blank_append hbefore, heq]

theorem words_placeLine (level : Nat) (line : List Char) :
    words (placeLine level line) = words line := by
  have hindent : ∀ w ∈ List.replicate (level * indentWidth) ' ', Text.isBlank w = true :=
    Lexer.isBlank_of_mem_replicate
  rw [placeLine, Text.words_blank_append hindent]
  split
  · exact Text.words_append_cons (by decide) [] line
  · rfl

/-- Lines that are put in place export the same. -/
theorem exportsOf_placeLines (depth : Nat) (started gap : Bool) (ls : List (List Char)) :
    exportsOf (placeLines depth started gap ls) = exportsOf ls := by
  induction ls generalizing depth started gap with
  | nil => rfl
  | cons line ls ih =>
      rw [exportsOf_cons line]
      by_cases hblank : (trimLine line).isEmpty = true
      · -- A blank line has no words.
        have hwords : words line = words [] := by
          rw [← words_trimLine, List.isEmpty_iff.1 hblank]
        rw [placeLines, if_pos hblank, ih, exportsOf_congr hwords]
        rfl
      · have hline (level : Nat) : exportsOf [placeLine level (trimLine line)] = exportsOf [line] :=
          exportsOf_congr (by rw [words_placeLine, words_trimLine])
        rw [placeLines, if_neg hblank]
        dsimp only
        split
        · rw [exportsOf_cons [], exportsOf_cons (placeLine _ _), hline, ih]
          rfl
        · rw [exportsOf_cons, hline, ih]

/-- Lines that hold no line feed are the pieces between the line feeds behind them. -/
theorem splitList_flatMap {ls : List (List Char)} (h : ∀ line ∈ ls, '\n' ∉ line) :
    Text.splitList (· == '\n') (ls.flatMap (· ++ ['\n'])) = ls ++ [[]] := by
  induction ls with
  | nil => rfl
  | cons line ls ih =>
      have hline : ∀ c ∈ line, (c == '\n') = false := by
        rintro c hc
        simpa using fun heq : c = '\n' => h line List.mem_cons_self (heq ▸ hc)
      rw [List.flatMap_cons, List.append_assoc, List.singleton_append,
        Text.splitList_append_cons (by simp), Text.splitList_eq_singleton hline,
        ih fun l hl => h l (List.mem_cons_of_mem _ hl)]
      rfl

theorem feed_not_mem_placeLines (depth : Nat) (started gap : Bool) {ls : List (List Char)}
    (h : ∀ line ∈ ls, '\n' ∉ line) : ∀ line ∈ placeLines depth started gap ls, '\n' ∉ line := by
  induction ls generalizing depth started gap with
  | nil => simp [placeLines]
  | cons raw ls ih =>
      have hrest (depth) (started) (gap) :=
        ih depth started gap fun line hline => h line (List.mem_cons_of_mem _ hline)
      have htrim : '\n' ∉ trimLine raw := by
        obtain ⟨before, after, heq, -, -⟩ := exists_trimLine raw
        refine fun hmem => h raw List.mem_cons_self ?_
        rw [← heq]
        simp [hmem]
      have hplaced (level : Nat) : '\n' ∉ placeLine level (trimLine raw) := by
        unfold placeLine
        split <;> simp [htrim]
      rw [placeLines]
      dsimp only
      split
      · exact hrest _ _ _
      · split
        · simpa [hplaced] using hrest _ _ _
        · simpa [hplaced] using hrest _ _ _

/-- Laying out a text keeps what it exports. -/
theorem exports_layout (text : String) : exports (layout text) = exports text := by
  have hpieces : ∀ line ∈ Text.splitList (· == '\n') text.toList, '\n' ∉ line :=
    fun _ => Text.feed_not_mem_of_mem_splitList
  rw [exports, layout, String.toList_ofList, placeLines_lineList,
    splitList_flatMap (feed_not_mem_placeLines _ _ _ hpieces), exportsOf_append,
    exportsOf_placeLines, exports]
  exact List.append_nil _

end TypedClient.Script
