import Mathlib.Data.List.Basic
import TypedClient.Text.Basic
import TypedClient.Text.Order

/-!
# Pieces of a text, and names in order

Texts are put together piece by piece (`concat_append`, `append_eq_append_iff`), and fall into the
pieces between separators: those of a text around a separator are the pieces of both sides
(`splitList_append_cons`). The lines of a text are its pieces between line feeds, and hold none
(`feed_not_mem_of_mem_lineList`). The words of a line are its pieces between blanks, so that the
blanks at its ends do not matter (`words_blank_append`, `words_append_blank`).

Sorting names adds none and drops none (`mem_sortedNames`), and puts them in order
(`pairwise_sortedNames`).
-/

namespace TypedClient.Text

theorem concat_append (ss ts : List String) : concat (ss ++ ts) = concat ss ++ concat ts := by
  induction ss with
  | nil => simp [concat]
  | cons s ss ih => simpa [concat, String.append_assoc] using ih

/-- Two texts in a row are the same exactly if one of the first ones goes on into the second. -/
theorem append_eq_append_iff {a b c d : String} :
    a ++ b = c ++ d ↔ (∃ t, c = a ++ t ∧ b = t ++ d) ∨ ∃ t, a = c ++ t ∧ d = t ++ b := by
  constructor
  · intro h
    rw [← String.toList_inj, String.toList_append, String.toList_append,
      List.append_eq_append_iff] at h
    obtain ⟨t, hc, hb⟩ | ⟨t, ha, hd⟩ := h
    · exact .inl ⟨String.ofList t, by simp [← String.toList_inj, hc],
        by simp [← String.toList_inj, hb]⟩
    · exact .inr ⟨String.ofList t, by simp [← String.toList_inj, ha],
        by simp [← String.toList_inj, hd]⟩
  · rintro (⟨t, rfl, rfl⟩ | ⟨t, rfl, rfl⟩) <;> rw [String.append_assoc]

section Split

variable {α : Type} {p : α → Bool} {x : α} {xs piece : List α}

theorem splitList_ne_nil (p : α → Bool) (xs : List α) : splitList p xs ≠ [] := by
  cases xs with
  | nil => simp [splitList]
  | cons x xs =>
      rw [splitList]
      split
      · simp
      · split <;> simp

/-- Text around a separator falls into the pieces of both sides. -/
theorem splitList_append_cons (hx : p x = true) (xs ys : List α) :
    splitList p (xs ++ x :: ys) = splitList p xs ++ splitList p ys := by
  induction xs with
  | nil => simp [splitList, hx]
  | cons a xs ih =>
      rw [List.cons_append, splitList, splitList, ih]
      split
      · rfl
      · cases hpieces : splitList p xs with
        | nil => exact absurd hpieces (splitList_ne_nil p xs)
        | cons piece pieces => rfl

/-- Without separators there is one piece. -/
theorem splitList_eq_singleton (h : ∀ x ∈ xs, p x = false) : splitList p xs = [xs] := by
  induction xs with
  | nil => rfl
  | cons x xs ih =>
      rw [splitList, if_neg (by simp [h x List.mem_cons_self]),
        ih fun y hy => h y (List.mem_cons_of_mem _ hy)]

/-- The pieces between separators hold members of the list that are no separators. -/
theorem mem_of_mem_splitList (hpiece : piece ∈ splitList p xs) (hx : x ∈ piece) :
    x ∈ xs ∧ p x = false := by
  induction xs generalizing piece with
  | nil =>
      obtain rfl := List.mem_singleton.1 hpiece
      cases hx
  | cons y ys ih =>
      have hrest : ∀ other ∈ splitList p ys, x ∈ other → x ∈ y :: ys ∧ p x = false := by
        intro other hother hxo
        exact (ih hother hxo).imp_left (List.mem_cons_of_mem _)
      by_cases hy : p y = true
      · rw [splitList, if_pos hy] at hpiece
        rcases List.mem_cons.1 hpiece with rfl | hpiece
        · cases hx
        · exact hrest piece hpiece hx
      · have hhead : x = y → x ∈ y :: ys ∧ p x = false := by
          rintro rfl
          exact ⟨List.mem_cons_self, by simpa using hy⟩
        rw [splitList, if_neg hy] at hpiece
        split at hpiece
        · obtain rfl := List.mem_singleton.1 hpiece
          exact hhead (List.mem_singleton.1 hx)
        · rename_i first others hsplit
          rcases List.mem_cons.1 hpiece with rfl | hpiece
          · rcases List.mem_cons.1 hx with hx | hx
            · exact hhead hx
            · exact hrest first (by simp [hsplit]) hx
          · exact hrest piece (by simp [hsplit, hpiece]) hx

end Split

/-! ## Lines -/

section Lines

variable {cs line : List Char}

theorem feed_not_mem_of_mem_splitList (h : line ∈ splitList (· == '\n') cs) : '\n' ∉ line :=
  fun hmem => absurd (mem_of_mem_splitList h hmem).2 (by decide)

theorem mem_of_mem_dropReturn {c : Char} (h : c ∈ dropReturn line) : c ∈ line := by
  rw [dropReturn] at h
  split at h
  · exact List.dropLast_subset _ h
  · exact h

/-- No line of a text holds a line feed. -/
theorem feed_not_mem_of_mem_lineList (h : line ∈ lineList cs) : '\n' ∉ line := by
  rw [lineList] at h
  split at h
  · cases h
  · rename_i last ended hreverse
    have hmem : ∀ piece ∈ last :: ended, '\n' ∉ piece := fun piece hpiece =>
      feed_not_mem_of_mem_splitList (List.mem_reverse.1 (hreverse ▸ hpiece))
    rcases List.mem_append.1 h with h | h
    · obtain ⟨raw, hraw, rfl⟩ := List.mem_map.1 (List.mem_reverse.1 h)
      exact fun hfeed => hmem raw (List.mem_cons_of_mem _ hraw) (mem_of_mem_dropReturn hfeed)
    · split at h
      · cases h
      · obtain rfl := List.mem_singleton.1 h
        exact hmem line List.mem_cons_self

end Lines

/-! ## Words -/

/-- The words of a line, between blanks. -/
def words (line : List Char) : List String :=
  ((splitList isBlank line).filter (!·.isEmpty)).map String.ofList

variable {line xs ys : List Char}

/-- The words around a blank. -/
theorem words_append_cons {w : Char} (hw : isBlank w = true) (xs ys : List Char) :
    words (xs ++ w :: ys) = words xs ++ words ys := by
  simp [words, splitList_append_cons hw]

/-- Blanks in front add no words. -/
theorem words_blank_append (h : ∀ w ∈ xs, isBlank w = true) (ys : List Char) :
    words (xs ++ ys) = words ys := by
  induction xs with
  | nil => rfl
  | cons w ws ih =>
      have happend := words_append_cons (h w List.mem_cons_self) [] (ws ++ ys)
      rw [List.nil_append, ih fun v hv => h v (List.mem_cons_of_mem _ hv)] at happend
      exact happend

/-- Blanks alone have no words. -/
theorem words_of_blank (h : ∀ w ∈ line, isBlank w = true) : words line = [] := by
  rw [← List.append_nil line, words_blank_append h]
  rfl

/-- Blanks at the end add no words. -/
theorem words_append_blank (h : ∀ w ∈ ys, isBlank w = true) (xs : List Char) :
    words (xs ++ ys) = words xs := by
  cases ys with
  | nil => rw [List.append_nil]
  | cons w ws =>
      rw [words_append_cons (h w List.mem_cons_self),
        words_of_blank fun v hv => h v (List.mem_cons_of_mem _ hv), List.append_nil]

/-- A text has no blanks. -/
def HasNoBlank (text : String) : Prop := ∀ c ∈ text.toList, isBlank c = false

instance (text : String) : Decidable (HasNoBlank text) :=
  decidable_of_iff (text.toList.all (!isBlank ·) = true) (by simp [HasNoBlank])

theorem HasNoBlank.append {text other : String} (h : HasNoBlank text) (h' : HasNoBlank other) :
    HasNoBlank (text ++ other) := by
  intro c hc
  rw [String.toList_append] at hc
  exact (List.mem_append.1 hc).elim (h c) (h' c)

/-- A text without blanks is one word. -/
theorem words_of_hasNoBlank {word : String} (h : HasNoBlank word) (hne : word ≠ "") :
    words word.toList = [word] := by
  have hempty : word.toList.isEmpty = false := by simpa using hne
  simp [words, splitList_eq_singleton h, hempty]

/-! ## Sorted names -/

theorem mem_insertName {name other : String} {names : List String} :
    other ∈ insertName name names ↔ other = name ∨ other ∈ names := by
  induction names with
  | nil => simp [insertName]
  | cons first rest ih =>
      unfold insertName
      split
      · exact List.mem_cons
      · split
        · rename_i heq
          simp [heq]
        · rw [List.mem_cons, ih, List.mem_cons]
          exact or_left_comm

/-- The sorted names are the names that are sorted. -/
@[simp]
theorem mem_sortedNames {name : String} {names : List String} :
    name ∈ sortedNames names ↔ name ∈ names := by
  induction names with
  | nil => rfl
  | cons first rest ih =>
      rw [sortedNames, List.foldr_cons, mem_insertName, ← sortedNames, ih, List.mem_cons]

theorem pairwise_insertName {name : String} {names : List String} (h : names.Pairwise (· < ·)) :
    (insertName name names).Pairwise (· < ·) := by
  induction names with
  | nil => exact List.pairwise_singleton _ _
  | cons first rest ih =>
      obtain ⟨hfirst, hrest⟩ := List.pairwise_cons.1 h
      unfold insertName
      split
      · rename_i hlt
        refine List.pairwise_cons.2 ⟨fun other hother => ?_, h⟩
        rcases List.mem_cons.1 hother with rfl | hother
        · exact hlt
        · exact String.lt_trans hlt (hfirst other hother)
      · split
        · exact h
        · rename_i hnot hne
          have hlt : first < name := Decidable.byContradiction fun hge =>
            hne (String.le_antisymm (String.not_lt.1 hge) (String.not_lt.1 hnot))
          refine List.pairwise_cons.2 ⟨fun other hother => ?_, ih hrest⟩
          rcases mem_insertName.1 hother with rfl | hother
          · exact hlt
          · exact hfirst other hother

/-- The sorted names are in order. -/
theorem pairwise_sortedNames (names : List String) : (sortedNames names).Pairwise (· < ·) := by
  induction names with
  | nil => exact .nil
  | cons first rest ih => exact pairwise_insertName ih

theorem nodup_sortedNames (names : List String) : (sortedNames names).Nodup :=
  (pairwise_sortedNames names).imp String.ne_of_lt

end TypedClient.Text
