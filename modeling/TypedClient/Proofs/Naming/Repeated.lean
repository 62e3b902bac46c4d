import Mathlib.Data.List.Duplicate
import Mathlib.Data.List.Nodup

/-!
# The first repeated name

Promoted responses and definitions are both checked for names that stand earlier in their
list. `firstRepeat?` is the search that they share. It finds nothing exactly if the names
are pairwise different and free, and what it finds has a name that is taken or repeated, which
holds of no item before it: `firstRepeat?_eq_none_iff`, `firstRepeat?_eq_some` and
`exists_before_of_firstRepeat?`. Where names are pairwise different, every item is found under
its own, and no other one is: `find?_name_eq`, `filter_name_eq`.
-/

namespace TypedClient.Naming

variable {α : Type} {name : α → String}

/-- The first item whose name is taken or stands earlier in the list. -/
def firstRepeat? (name : α → String) (taken : List String) : List α → Option α
  | [] => none
  | a :: rest => if name a ∈ taken then some a else firstRepeat? name (name a :: taken) rest

/-- Nothing is found exactly if the names are pairwise different and free. -/
theorem firstRepeat?_eq_none_iff {taken : List String} {items : List α} :
    firstRepeat? name taken items = none ↔
      (items.map name).Nodup ∧ ∀ a ∈ items, name a ∉ taken := by
  induction items generalizing taken with
  | nil => simp [firstRepeat?]
  | cons a rest ih =>
      by_cases ha : name a ∈ taken
      · simp [firstRepeat?, ha]
      · simp only [firstRepeat?, ha, if_false, ih, List.map_cons, List.nodup_cons,
          List.mem_cons, forall_eq_or_imp, not_or, not_false_eq_true, true_and]
        constructor
        · rintro ⟨hnodup, hfree⟩
          refine ⟨⟨fun hmem => ?_, hnodup⟩, fun b hb => (hfree b hb).2⟩
          obtain ⟨b, hb, heq⟩ := List.mem_map.1 hmem
          exact (hfree b hb).1 heq
        · rintro ⟨⟨hne, hnodup⟩, hfree⟩
          refine ⟨hnodup, fun b hb => ⟨fun heq => hne ?_, hfree b hb⟩⟩
          exact List.mem_map.2 ⟨b, hb, heq⟩

/-- What is found has a name that is taken or repeated. -/
theorem firstRepeat?_eq_some {taken : List String} {items : List α} {a : α}
    (h : firstRepeat? name taken items = some a) :
    a ∈ items ∧ (name a ∈ taken ∨ List.Duplicate (name a) (items.map name)) := by
  induction items generalizing taken with
  | nil => cases h
  | cons b rest ih =>
      by_cases hb : name b ∈ taken
      · obtain rfl : b = a := by simpa [firstRepeat?, hb] using h
        exact ⟨List.mem_cons_self, .inl hb⟩
      · rw [firstRepeat?, if_neg hb] at h
        obtain ⟨hmem, htaken | hrepeated⟩ := ih h
        · refine ⟨List.mem_cons_of_mem _ hmem, ?_⟩
          -- For the rest of the list the name of `b` is taken, too.
          rcases List.mem_cons.1 htaken with heq | htaken
          · have hrest : name b ∈ rest.map name := heq ▸ List.mem_map_of_mem hmem
            rw [heq]
            exact .inr (List.Mem.duplicate_cons_self hrest)
          · exact .inl htaken
        · exact ⟨List.mem_cons_of_mem _ hmem, .inr (hrepeated.duplicate_cons _)⟩

/-- What is found is the first such item. -/
theorem exists_before_of_firstRepeat? {taken : List String} {items : List α} {a : α}
    (h : firstRepeat? name taken items = some a) :
    ∃ before after, items = before ++ a :: after ∧
      (name a ∈ taken ∨ ∃ b ∈ before, name b = name a) ∧
        firstRepeat? name taken before = none := by
  induction items generalizing taken with
  | nil => cases h
  | cons b rest ih =>
      by_cases hb : name b ∈ taken
      · obtain rfl : b = a := by simpa [firstRepeat?, hb] using h
        exact ⟨[], rest, rfl, .inl hb, rfl⟩
      · rw [firstRepeat?, if_neg hb] at h
        obtain ⟨before, after, rfl, htaken, hnone⟩ := ih h
        refine ⟨b :: before, after, rfl, ?_, by rwa [firstRepeat?, if_neg hb]⟩
        rcases htaken with htaken | ⟨c, hc, heq⟩
        · rcases List.mem_cons.1 htaken with heq | htaken
          · exact .inr ⟨b, List.mem_cons_self, heq.symm⟩
          · exact .inl htaken
        · exact .inr ⟨c, List.mem_cons_of_mem _ hc, heq⟩

/-- An item is found under its name if no other item has that name. -/
theorem find?_name_eq {items : List α} (hnodup : (items.map name).Nodup) {a : α}
    (ha : a ∈ items) : items.find? (name · == name a) = some a := by
  cases hfind : items.find? (name · == name a) with
  | none =>
      have hne := List.find?_eq_none.1 hfind a ha
      simp at hne
  | some found =>
      have hname : name found = name a := by simpa using List.find?_some hfind
      rw [List.inj_on_of_nodup_map hnodup (List.mem_of_find?_eq_some hfind) ha hname]

/-- It is the only one under that name. -/
theorem filter_name_eq {items : List α} (hnodup : (items.map name).Nodup) {a : α}
    (ha : a ∈ items) : items.filter (name · == name a) = [a] := by
  induction items with
  | nil => cases ha
  | cons b rest ih =>
      rw [List.map_cons, List.nodup_cons] at hnodup
      rcases List.mem_cons.1 ha with rfl | ha
      · rw [List.filter_cons_of_pos (by simp), List.filter_eq_nil_iff.2]
        intro b hb hname
        rw [beq_iff_eq] at hname
        exact hnodup.1 (hname ▸ List.mem_map_of_mem hb)
      · have hne : name b ≠ name a := fun heq => hnodup.1 (heq ▸ List.mem_map_of_mem ha)
        rw [List.filter_cons_of_neg (by simpa using hne)]
        exact ih hnodup.2 ha

end TypedClient.Naming
