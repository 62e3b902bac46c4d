import Mathlib.Data.List.TakeWhile
import TypedClient.Proofs.Script.Specifiers
import TypedClient.Script.Layout

/-!
# Layout keeps specifiers

Laying out a text moves blanks at the ends of its lines and drops blank lines. A line end puts the
lexer into a state that blanks do not change (`atLineStart_step`), and blanks before a line
end make no difference (`step_lineFeed_step`), except inside a string. So a text in which no
string is broken has the same specifiers once it is laid out: `specifiers_layout`.
-/

namespace TypedClient.Script

@[simp]
theorem Before.pause_pause (b : Before) : b.pause.pause = b.pause := by
  cases b <;> rfl

namespace Lexer

variable {q : Lexer} {w : Char} {cs ws : List Char}

/-! ## Blanks -/

/-- A blank is no other character. -/
theorem ne_of_isBlank {c : Char} (hw : Text.isBlank w = true) (hc : Text.isBlank c = false) :
    w ≠ c := by
  rintro rfl
  rw [hw] at hc
  cases hc

theorem found?_eq_none_of_isBlank (hw : Text.isBlank w = true) (q : Lexer) : q.found? w = none := by
  unfold found?
  split
  · rename_i double _ _
    exact if_neg (ne_of_isBlank hw (by cases double <;> decide))
  · rfl

theorem codeStep_of_isBlank (hw : Text.isBlank w = true) (q : Lexer) (b : Before) :
    q.codeStep b w = { q with mode := .code b.pause } := if_pos hw

/-- A blank in a string leaves it open, unless it ends the line. -/
theorem step_quoted_of_isBlank (hw : Text.isBlank w = true) {double escaped : Bool}
    {specifier : Option (List Char)} (hmode : q.mode = .quoted double escaped specifier) :
    (q.step w).broken = true ∨ ∃ specifier', (q.step w).mode = .quoted double false specifier' := by
  have hquote : w ≠ quote double := ne_of_isBlank hw (by cases double <;> decide)
  have hescape : w ≠ '\\' := ne_of_isBlank hw (by decide)
  unfold step
  rw [hmode]
  dsimp only
  split
  · exact .inl rfl
  · simp [hquote, hescape]

/-- A line end in a string breaks it. -/
theorem broken_step_quoted {double escaped : Bool} {specifier : Option (List Char)}
    (hmode : q.mode = .quoted double escaped specifier) : (q.step '\n').broken = true := by
  unfold step
  rw [hmode]
  rfl

/-- A blank before a line end makes no difference. -/
theorem step_lineFeed_step (hw : Text.isBlank w = true)
    (h : ((q.step w).step '\n').broken = false) : (q.step w).step '\n' = q.step '\n' := by
  have hfeed : Text.isBlank '\n' = true := by decide
  have hslash : w ≠ '/' := ne_of_isBlank hw (by decide)
  have hstar : w ≠ '*' := ne_of_isBlank hw (by decide)
  obtain ⟨mode, depths, broken⟩ := q
  cases mode with
  | code b => simp [step, codeStep_of_isBlank hw, codeStep_of_isBlank hfeed]
  | slash b => simp [step, codeStep_of_isBlank hw, codeStep_of_isBlank hfeed, hslash, hstar,
      Before.pause]
  | lineComment b =>
      have hlast : isLineEnd '\n' = true := by decide
      by_cases hend : isLineEnd w = true
      · simp [step, hend, hlast, codeStep_of_isBlank hfeed]
      · simp [step, hend]
  | blockComment b star => simp [step, hslash]
  | quoted double escaped specifier =>
      -- The line end is still inside the string.
      rcases step_quoted_of_isBlank hw (q := ⟨.quoted double escaped specifier, depths, broken⟩) rfl
        with hbroken | ⟨_, hmode⟩
      · rw [broken_step hbroken] at h
        cases h
      · rw [broken_step_quoted hmode] at h
        cases h
  | template escaped dollar =>
      have htick : w ≠ '\x60' := ne_of_isBlank hw (by decide)
      have hbrace : w ≠ '\x7b' := ne_of_isBlank hw (by decide)
      cases escaped <;> simp [step, htick, hbrace]

/-- Blanks do not change the state. -/
def AtLineStart (q : Lexer) : Prop := ∀ w, Text.isBlank w = true → q.step w = q

/-- A line starts after a line end. -/
theorem atLineStart_step (h : (q.step '\n').broken = false) : (q.step '\n').AtLineStart := by
  intro w hw
  have hfeed : Text.isBlank '\n' = true := by decide
  have hslash : w ≠ '/' := ne_of_isBlank hw (by decide)
  have hstar : w ≠ '*' := ne_of_isBlank hw (by decide)
  obtain ⟨mode, depths, broken⟩ := q
  cases mode with
  | code b => simp [step, codeStep_of_isBlank hw, codeStep_of_isBlank hfeed]
  | slash b => simp [step, codeStep_of_isBlank hw, codeStep_of_isBlank hfeed, Before.pause]
  | lineComment b => simp [step, codeStep_of_isBlank hw, isLineEnd]
  | blockComment b star => simp [step, hstar]
  | quoted double escaped specifier =>
      rw [broken_step_quoted rfl] at h
      cases h
  | template escaped dollar =>
      have htick : w ≠ '\x60' := ne_of_isBlank hw (by decide)
      have hescape : w ≠ '\\' := ne_of_isBlank hw (by decide)
      have hdollar : w ≠ '$' := ne_of_isBlank hw (by decide)
      cases escaped <;> simp [step, htick, hescape, hdollar]

theorem atLineStart_start : AtLineStart {} := by
  intro w hw
  exact codeStep_of_isBlank hw {} .other

/-- Blanks at the start of a line are passed over. -/
theorem AtLineStart.read_blanks (hq : q.AtLineStart) (hws : ∀ w ∈ ws, Text.isBlank w = true)
    (cs : List Char) : q.read (ws ++ cs) = q.read cs := by
  induction ws with
  | nil => rfl
  | cons w ws ih =>
      have hw := hws w List.mem_cons_self
      rw [List.cons_append, read_cons_of_found?_eq_none (found?_eq_none_of_isBlank hw q), hq w hw]
      exact ih fun v hv => hws v (List.mem_cons_of_mem _ hv)

/-- Blanks at the end of a line make no difference. -/
theorem read_append_lineFeed (hws : ∀ w ∈ ws, Text.isBlank w = true)
    (h : (q.read (ws ++ ['\n'])).1.broken = false) : q.read (ws ++ ['\n']) = q.read ['\n'] := by
  induction ws generalizing q with
  | nil => rfl
  | cons w ws ih =>
      have hw := hws w List.mem_cons_self
      have hfeed := found?_eq_none_of_isBlank (w := '\n') (by decide)
      have hrest : ∀ v ∈ ws, Text.isBlank v = true := fun v hv => hws v (List.mem_cons_of_mem _ hv)
      rw [List.cons_append, read_cons_of_found?_eq_none (found?_eq_none_of_isBlank hw q)] at h ⊢
      have hline := ih hrest h
      rw [hline] at h ⊢
      rw [read_cons_of_found?_eq_none (hfeed _)] at h ⊢
      rw [read_cons_of_found?_eq_none (hfeed _), step_lineFeed_step hw h]

/-! ## Lines -/

/-- A line that is trimmed and put behind other blanks reads the same. -/
theorem AtLineStart.read_line (hq : q.AtLineStart) {before after indent : List Char}
    (hbefore : ∀ w ∈ before, Text.isBlank w = true) (hafter : ∀ w ∈ after, Text.isBlank w = true)
    (hindent : ∀ w ∈ indent, Text.isBlank w = true) (core : List Char)
    (h : (q.read (before ++ core ++ after ++ ['\n'])).1.broken = false) :
    q.read (before ++ core ++ after ++ ['\n']) = q.read (indent ++ core ++ ['\n']) := by
  simp only [List.append_assoc] at h ⊢
  rw [hq.read_blanks hbefore] at h ⊢
  rw [hq.read_blanks hindent]
  rw [read_append] at h ⊢
  rw [read_append q core, read_append_lineFeed hafter h]

end Lexer

theorem dropEndWhile_append {α : Type} (p : α → Bool) (xs : List α) :
    Text.dropEndWhile p xs ++ (xs.reverse.takeWhile p).reverse = xs := by
  rw [Text.dropEndWhile, ← List.reverse_append, List.takeWhile_append_dropWhile,
    List.reverse_reverse]

/-- A line is what is left of it once it is trimmed, with blanks around it. -/
theorem exists_trimLine (line : List Char) :
    ∃ before after, before ++ trimLine line ++ after = line ∧
      (∀ w ∈ before, Text.isBlank w = true) ∧ ∀ w ∈ after, Text.isBlank w = true := by
  refine ⟨line.takeWhile Text.isBlank,
    ((line.dropWhile Text.isBlank).reverse.takeWhile Text.isBlank).reverse, ?_, ?_, ?_⟩
  · rw [trimLine, List.append_assoc, dropEndWhile_append, List.takeWhile_append_dropWhile]
  · exact fun w hw => List.mem_takeWhile_imp hw
  · exact fun w hw => List.mem_takeWhile_imp (List.mem_reverse.1 hw)

theorem trimLine_append_blank {w : Char} (hw : Text.isBlank w = true) (line : List Char) :
    trimLine (line ++ [w]) = trimLine line := by
  rw [trimLine, trimLine, List.dropWhile_append]
  split
  · rename_i hall
    simp [List.isEmpty_iff.1 hall, hw, Text.dropEndWhile]
  · simp [Text.dropEndWhile, hw]

/-- A carriage return at the end of a line does not show. -/
theorem trimLine_dropReturn (line : List Char) :
    trimLine (Text.dropReturn line) = trimLine line := by
  unfold Text.dropReturn
  split
  · rename_i hlast
    obtain ⟨init, rfl⟩ := List.getLast?_eq_some_iff.1 hlast
    rw [List.dropLast_concat, trimLine_append_blank (by decide)]
  · rfl

/-- Lines are put in place by what is left of them once they are trimmed. -/
theorem placeLines_congr {ls ls' : List (List Char)} (h : ls.map trimLine = ls'.map trimLine)
    (depth : Nat) (started gap : Bool) :
    placeLines depth started gap ls = placeLines depth started gap ls' := by
  induction ls generalizing ls' depth started gap with
  | nil =>
      obtain rfl := List.map_eq_nil_iff.1 h.symm
      rfl
  | cons line ls ih =>
      cases ls' with
      | nil => cases h
      | cons line' ls' =>
          obtain ⟨hline, hrest⟩ := List.cons.inj h
          simp only [placeLines, hline, ih hrest]

/-- A blank line at the end does not show. -/
theorem placeLines_append_nil (ls : List (List Char)) (depth : Nat) (started gap : Bool) :
    placeLines depth started gap (ls ++ [[]]) = placeLines depth started gap ls := by
  induction ls generalizing depth started gap with
  | nil => rfl
  | cons line ls ih => simp only [List.cons_append, placeLines, ih]

/-- The lines of a text show as what stands between its line feeds. -/
theorem placeLines_lineList (cs : List Char) (depth : Nat) (started gap : Bool) :
    placeLines depth started gap (Text.lineList cs) =
      placeLines depth started gap (Text.splitList (· == '\n') cs) := by
  unfold Text.lineList
  split
  · rename_i hnil
    rw [List.reverse_eq_nil_iff.1 hnil]
  · rename_i last ended hlines
    rw [← List.reverse_reverse (Text.splitList _ cs), hlines, List.reverse_cons]
    have hended : (ended.map Text.dropReturn).reverse.map trimLine =
        ended.reverse.map trimLine := by
      simp [List.map_reverse, trimLine_dropReturn]
    cases last with
    | nil =>
        rw [placeLines_append_nil]
        exact placeLines_congr (by simpa using hended) depth started gap
    | cons c cs => exact placeLines_congr (by simpa using hended) depth started gap

/-- A text is made of the pieces between its line feeds. -/
theorem flatMap_splitList (cs : List Char) :
    (Text.splitList (· == '\n') cs).flatMap (· ++ ['\n']) = cs ++ ['\n'] := by
  induction cs with
  | nil => rfl
  | cons c cs ih =>
      by_cases hc : c = '\n'
      · simp [Text.splitList, hc, ih]
      · have hne : (c == '\n') = false := by simpa using hc
        simp only [Text.splitList, hne, Bool.false_eq_true, if_false]
        split
        · rename_i hnil
          rw [hnil] at ih
          simp at ih
        · rename_i piece pieces hpieces
          rw [hpieces] at ih
          simpa using ih

namespace Lexer

variable {q : Lexer}

theorem isBlank_of_mem_replicate {n : Nat} : ∀ w ∈ List.replicate n ' ', Text.isBlank w = true := by
  intro w hw
  rw [List.eq_of_mem_replicate hw]
  decide

/-- A line in its place reads as it was. -/
theorem AtLineStart.read_placeLine (hq : q.AtLineStart) (level : Nat) {line : List Char}
    (h : (q.read (line ++ ['\n'])).1.broken = false) :
    q.read (placeLine level (trimLine line) ++ ['\n']) = q.read (line ++ ['\n']) := by
  obtain ⟨before, after, heq, hbefore, hafter⟩ := exists_trimLine line
  have hline : ∀ indent : List Char, (∀ w ∈ indent, Text.isBlank w = true) →
      q.read (line ++ ['\n']) = q.read (indent ++ trimLine line ++ ['\n']) := by
    intro indent hindent
    rw [← heq] at h ⊢
    rw [hq.read_line hbefore hafter hindent _ h, heq]
  unfold placeLine
  split
  · rw [hline (List.replicate (level * indentWidth) ' ' ++ [' '])]
    · simp
    · intro w hw
      rcases List.mem_append.1 hw with hw | hw
      · exact isBlank_of_mem_replicate w hw
      · obtain rfl := List.mem_singleton.1 hw
        decide
  · exact (hline _ isBlank_of_mem_replicate).symm

/-- A blank line changes nothing. -/
theorem AtLineStart.read_blankLine (hq : q.AtLineStart) {line : List Char}
    (h : (trimLine line).isEmpty = true) : q.read (line ++ ['\n']) = (q, []) := by
  obtain ⟨before, after, heq, hbefore, hafter⟩ := exists_trimLine line
  rw [List.isEmpty_iff.1 h, List.append_nil] at heq
  have hblank : ∀ w ∈ line ++ ['\n'], Text.isBlank w = true := by
    intro w hw
    rw [← heq, List.mem_append, List.mem_append, List.mem_singleton] at hw
    rcases hw with (hw | hw) | rfl
    · exact hbefore w hw
    · exact hafter w hw
    · decide
  simpa using hq.read_blanks hblank []

/-- After a line that breaks no string, the next line starts. -/
theorem atLineStart_read {line : List Char} (h : (q.read (line ++ ['\n'])).1.broken = false) :
    (q.read (line ++ ['\n'])).1.AtLineStart := by
  rw [read_append] at h ⊢
  exact atLineStart_step h

/-- Lines that are put in place read as they were. -/
theorem AtLineStart.read_placeLines (hq : q.AtLineStart) {ls : List (List Char)}
    (h : (q.read (ls.flatMap (· ++ ['\n']))).1.broken = false) (depth : Nat) (started gap : Bool) :
    q.read ((placeLines depth started gap ls).flatMap (· ++ ['\n'])) =
      q.read (ls.flatMap (· ++ ['\n'])) := by
  induction ls generalizing q depth started gap with
  | nil => rfl
  | cons line ls ih =>
      rw [List.flatMap_cons] at h ⊢
      rw [read_append] at h ⊢
      by_cases hblank : (trimLine line).isEmpty = true
      · rw [hq.read_blankLine hblank] at h ⊢
        simp only [placeLines, hblank, if_true]
        exact ih hq h _ _ _
      · have hline : (q.read (line ++ ['\n'])).1.broken = false := not_broken_of_read h
        have hplaced : q.read ((placeLine (levels depth (trimLine line)).1 (trimLine line) ::
            placeLines (levels depth (trimLine line)).2 true false ls).flatMap (· ++ ['\n'])) =
            (((q.read (line ++ ['\n'])).1.read (ls.flatMap (· ++ ['\n']))).1,
              (q.read (line ++ ['\n'])).2 ++
                ((q.read (line ++ ['\n'])).1.read (ls.flatMap (· ++ ['\n']))).2) := by
          rw [List.flatMap_cons, read_append, hq.read_placeLine _ hline,
            ih (atLineStart_read hline) h]
        rw [placeLines, if_neg hblank]
        dsimp only
        split
        · rw [List.flatMap_cons, List.nil_append, hq.read_blanks (List.all_eq_true.1 (by decide)),
            hplaced]
        · exact hplaced

end Lexer

/-- A text in which no string is broken has the same specifiers once it is laid out. -/
theorem specifiers_layout {text : String}
    (h : (({} : Lexer).read (text.toList ++ ['\n'])).1.broken = false) :
    specifiers (layout text) = specifiers text := by
  have hlast : ∀ q : Lexer, (q.read ['\n']).2 = [] := fun q => by
    rw [Lexer.read_cons_of_found?_eq_none (Lexer.found?_eq_none_of_isBlank (by decide) q),
      Lexer.read_nil]
  rw [← flatMap_splitList] at h
  have hread := Lexer.atLineStart_start.read_placeLines h 0 false false
  rw [flatMap_splitList, Lexer.read_append, hlast, List.append_nil] at hread
  rw [specifiers, layout, String.toList_ofList, placeLines_lineList, hread, specifiers]

end TypedClient.Script
