import Mathlib.Data.List.Perm.Subperm
import Mathlib.Data.List.Nodup
import Mathlib.Order.Bounds.Defs
import Mathlib.Order.Interval.Finset.Nat
import TypedClient.Naming.Unique

/-!
# Free names are free

`unique_not_mem` says that the name which `unique` gives is never taken, whatever the
base and the taken names are: the numbered names are pairwise different, so that among
one more candidates than there are taken names at least one is free. `firstFree_spec`
adds that the search stops at the least free number. Free names for several items, given one
after the other, are free and pairwise different: `nodup_uniques`. `FreeName` says which
name is free without a search, and `InTurn` which names several items have; there is one
way of giving names in turn (`InTurn.map_snd_eq`).
-/

namespace TypedClient.Naming

/-- Different numbers give different names. -/
theorem numbered_injective (base : String) : Function.Injective (numbered base) := by
  intro m n h
  have hdigits : Nat.toDigits 10 m = Nat.toDigits 10 n := by
    have hrepr : m.repr = n.repr := (String.append_right_inj base).1 h
    rw [← Nat.toList_repr, ← Nat.toList_repr, hrepr]
  have hvalue := congrArg (Nat.ofDigitChars 10 · 0) hdigits
  simpa [Nat.ofDigitChars_toDigits] using hvalue

/-- Among one more candidates than there are taken names one is free. -/
theorem exists_numbered_not_mem (base : String) (taken : List String) (start : Nat) :
    ∃ n, start ≤ n ∧ n < start + (taken.length + 1) ∧ numbered base n ∉ taken := by
  by_contra h
  push Not at h
  have hsub : (List.range' start (taken.length + 1)).map (numbered base) ⊆ taken := by
    intro name hname
    obtain ⟨n, hn, rfl⟩ := List.mem_map.1 hname
    rw [List.mem_range'_1] at hn
    exact h n hn.1 hn.2
  have hnodup : ((List.range' start (taken.length + 1)).map (numbered base)).Nodup :=
    (List.nodup_range' 1).map (numbered_injective base)
  -- The candidates are different names, one more than there are taken ones.
  have hlength := (hnodup.subperm hsub).length_le
  simp only [List.length_map, List.length_range'] at hlength
  omega

/-- If one of the candidates is free, the search finds the first free one. -/
theorem firstFree_spec (base : String) (taken : List String) (fuel start : Nat)
    (h : ∃ n, start ≤ n ∧ n < start + fuel ∧ numbered base n ∉ taken) :
    ∃ n, start ≤ n ∧ firstFree base taken fuel start = numbered base n ∧
      numbered base n ∉ taken ∧ ∀ k, start ≤ k → k < n → numbered base k ∈ taken := by
  induction fuel generalizing start with
  | zero =>
      obtain ⟨n, hle, hlt, _⟩ := h
      omega
  | succ fuel ih =>
      by_cases hstart : numbered base start ∈ taken
      · obtain ⟨n, hle, hlt, hfree⟩ := h
        -- The free candidate is a later one, and the rest of the search has the fuel to reach it.
        have hne : n ≠ start := fun heq => hfree (heq ▸ hstart)
        obtain ⟨m, hm, heq, hmem, hleast⟩ := ih (start + 1) ⟨n, by omega, by omega, hfree⟩
        refine ⟨m, by omega, by simpa [firstFree, hstart] using heq, hmem, ?_⟩
        intro k hk hkm
        by_cases hks : k = start
        · exact hks ▸ hstart
        · exact hleast k (by omega) hkm
      · exact ⟨start, Nat.le_refl _, by simp [firstFree, hstart], hstart, by omega⟩

/-- A name that is free stays as it is. -/
theorem unique_of_not_mem {base : String} {taken : List String} (h : base ∉ taken) :
    unique base taken = base := by
  simp [unique, h]

/-- A name that is taken gets the least number from 2 on that makes it free. -/
theorem unique_of_mem {base : String} {taken : List String} (h : base ∈ taken) :
    ∃ n, 2 ≤ n ∧ unique base taken = numbered base n ∧ numbered base n ∉ taken ∧
      ∀ k, 2 ≤ k → k < n → numbered base k ∈ taken := by
  obtain ⟨n, hle, heq, hfree, hleast⟩ := firstFree_spec base taken (taken.length + 1) 2
    (exists_numbered_not_mem base taken 2)
  exact ⟨n, hle, by simpa [unique, h] using heq, hfree, hleast⟩

/-- The name that is given is never one of the taken names. -/
theorem unique_not_mem (base : String) (taken : List String) : unique base taken ∉ taken := by
  by_cases h : base ∈ taken
  · obtain ⟨n, _, heq, hfree, _⟩ := unique_of_mem h
    rwa [heq]
  · rwa [unique_of_not_mem h]

/-! ## Free names, declared -/

/-- The name that is given for a base where some names are taken: the base itself if it is free,
otherwise the base with the least free number from 2 on. -/
inductive FreeName (base : String) (taken : List String) : String → Prop
  | base : base ∉ taken → FreeName base taken base
  | numbered (n : Nat) : base ∈ taken → 2 ≤ n → numbered base n ∉ taken →
      (∀ k, 2 ≤ k → k < n → numbered base k ∈ taken) → FreeName base taken (numbered base n)

theorem freeName_unique (base : String) (taken : List String) :
    FreeName base taken (unique base taken) := by
  by_cases h : base ∈ taken
  · obtain ⟨n, hge, heq, hfree, hleast⟩ := unique_of_mem h
    rw [heq]
    exact .numbered n h hge hfree hleast
  · rw [unique_of_not_mem h]
    exact .base h

/-- The order in which names are taken makes no difference. -/
theorem FreeName.congr {base name : String} {taken other : List String}
    (h : FreeName base taken name) (hmem : ∀ n, n ∈ other ↔ n ∈ taken) :
    FreeName base other name := by
  cases h with
  | base hfree => exact .base (by rwa [hmem])
  | numbered n htaken hge hfree hleast =>
      refine .numbered n ((hmem _).2 htaken) hge (by rwa [hmem]) fun k hk hkn => ?_
      exact (hmem _).2 (hleast k hk hkn)

theorem FreeName.not_mem {base name : String} {taken : List String}
    (h : FreeName base taken name) : name ∉ taken := by
  cases h <;> assumption

/-- There is one free name. -/
theorem FreeName.eq_unique {base name : String} {taken : List String}
    (h : FreeName base taken name) : name = unique base taken := by
  cases h with
  | base hfree => exact (unique_of_not_mem hfree).symm
  | numbered n htaken hge hfree hleast =>
      obtain ⟨m, hm, heq, hfree', hleast'⟩ := unique_of_mem htaken
      -- Neither number is smaller, for all smaller ones are taken.
      obtain hlt | rfl | hgt := Nat.lt_trichotomy n m
      · exact absurd (hleast' n hge hlt) hfree
      · exact heq.symm
      · exact absurd (hleast m hm hgt) hfree'

/-- A free name is the base or the base with a number from 2 on. -/
theorem FreeName.eq_or_numbered {base name : String} {taken : List String}
    (h : FreeName base taken name) : name = base ∨ ∃ n, 2 ≤ n ∧ name = Naming.numbered base n := by
  cases h with
  | base _ => exact .inl rfl
  | numbered n _ hge _ _ => exact .inr ⟨n, hge, rfl⟩

/-! ## The search without a bound -/

/-- The search that goes from a number to the next one while the numbered name is taken. It ends
at the other number. -/
inductive Finds (base : String) (taken : List String) : Nat → Nat → Prop
  | here {n : Nat} : numbered base n ∉ taken → Finds base taken n n
  | next {n last : Nat} :
      numbered base n ∈ taken → Finds base taken (n + 1) last → Finds base taken n last

/-- The search goes on over taken numbers. -/
theorem Finds.of_forall_mem {base : String} {taken : List String} {start steps : Nat}
    (hbelow : ∀ k, start ≤ k → k < start + steps → numbered base k ∈ taken)
    (hfree : numbered base (start + steps) ∉ taken) : Finds base taken start (start + steps) := by
  induction steps generalizing start with
  | zero => exact .here hfree
  | succ steps ih =>
      rw [← Nat.succ_add_eq_add_succ] at hfree hbelow ⊢
      refine .next (hbelow start (Nat.le_refl _) (by omega)) (ih (fun k hk hlt => ?_) hfree)
      exact hbelow k (Nat.le_of_succ_le hk) hlt

/-- The search ends at the least free number from its start on, and nowhere else. -/
theorem finds_iff {base : String} {taken : List String} {start n : Nat} :
    Finds base taken start n ↔ IsLeast {k | start ≤ k ∧ numbered base k ∉ taken} n := by
  constructor
  · intro h
    induction h with
    | here hfree => exact ⟨⟨Nat.le_refl _, hfree⟩, fun k hk => hk.1⟩
    | @next m last htaken _ ih =>
        obtain ⟨⟨hle, hfree⟩, hleast⟩ := ih
        refine ⟨⟨by omega, hfree⟩, fun k ⟨hk, hkfree⟩ => hleast ⟨?_, hkfree⟩⟩
        have hne : k ≠ m := fun heq => hkfree (heq ▸ htaken)
        omega
  · rintro ⟨⟨hle, hfree⟩, hleast⟩
    obtain ⟨steps, rfl⟩ := Nat.exists_eq_add_of_le hle
    refine .of_forall_mem (fun k hk hlt => ?_) hfree
    by_contra hkfree
    exact Nat.not_lt_of_le (hleast ⟨hk, hkfree⟩) hlt

/-- A number behind a name makes another name. -/
theorem numbered_ne_base (base : String) (n : Nat) : numbered base n ≠ base := by
  intro h
  have hlength := congrArg (·.toList.length) h
  simp only [numbered, String.toList_append, List.length_append, Nat.add_eq_left,
    List.length_eq_zero_iff] at hlength
  have hdigits : (toString n).toList = Nat.toDigits 10 n := Nat.toList_repr
  exact Nat.toDigits_ne_nil (hdigits ▸ hlength)

/-- If the base and all numbered names below a number are taken, then that many names are taken. -/
theorem le_card_of_forall_mem {base : String} {taken : List String} {n : Nat} (h : base ∈ taken)
    (hbelow : ∀ k, 2 ≤ k → k < n → numbered base k ∈ taken) : n ≤ taken.toFinset.card + 1 := by
  have hbase : base ∉ (Finset.Ico 2 n).image (numbered base) := by
    intro hmem
    obtain ⟨k, _, heq⟩ := Finset.mem_image.1 hmem
    exact numbered_ne_base base k heq
  have hsub : insert base ((Finset.Ico 2 n).image (numbered base)) ⊆ taken.toFinset := by
    intro name hname
    rw [List.mem_toFinset]
    rcases Finset.mem_insert.1 hname with rfl | hname
    · exact h
    · obtain ⟨k, hk, rfl⟩ := Finset.mem_image.1 hname
      rw [Finset.mem_Ico] at hk
      exact hbelow k hk.1 hk.2
  have hcard := Finset.card_le_card hsub
  rw [Finset.card_insert_of_notMem hbase,
    Finset.card_image_of_injective _ (numbered_injective base), Nat.card_Ico] at hcard
  omega

/-- A number is written in decimal digits. -/
theorem isDigit_of_mem_toString {n : Nat} {d : Char} (h : d ∈ (toString n).toList) :
    d.isDigit = true :=
  Nat.isDigit_of_mem_toDigits (by decide) (by decide) (Nat.toList_repr ▸ h)

/-- The name ends with a decimal digit. -/
def EndsInDigit (name : String) : Prop := name.toList.getLast?.any Char.isDigit = true

instance (name : String) : Decidable (EndsInDigit name) :=
  inferInstanceAs (Decidable (_ = true))

theorem endsInDigit_numbered (base : String) (n : Nat) : EndsInDigit (numbered base n) := by
  have hdigits : (toString n).toList = Nat.toDigits 10 n := Nat.toList_repr
  have hlast : (numbered base n).toList.getLast? =
      some ((Nat.toDigits 10 n).getLast Nat.toDigits_ne_nil) := by
    rw [numbered, String.toList_append, hdigits, List.getLast?_append_of_ne_nil _
      Nat.toDigits_ne_nil, List.getLast?_eq_some_getLast]
  rw [EndsInDigit, hlast, Option.any_some]
  exact Nat.isDigit_of_mem_toDigits (by decide) (by decide) (List.getLast_mem _)

/-- What is put behind a name decides on the digit at its end. -/
theorem endsInDigit_append_iff (name : String) {ending : String} (h : ending ≠ "") :
    EndsInDigit (name ++ ending) ↔ EndsInDigit ending := by
  have hne : ending.toList ≠ [] := fun hnil => h (String.toList_eq_nil_iff.1 hnil)
  rw [EndsInDigit, EndsInDigit, String.toList_append, List.getLast?_append_of_ne_nil _ hne]

/-! ## Several names in a row -/

variable {α : Type} {base : α → String}

/-- Free names for some items, each different from the ones before it. -/
def uniques (base : α → String) (taken : List String) : List α → List String
  | [] => []
  | a :: rest =>
    let name := unique (base a) taken
    name :: uniques base (name :: taken) rest

@[simp]
theorem length_uniques (taken : List String) (items : List α) :
    (uniques base taken items).length = items.length := by
  induction items generalizing taken with
  | nil => rfl
  | cons a rest ih => simp [uniques, ih]

/-- No name that is given was taken before. -/
theorem not_mem_of_mem_uniques {taken : List String} {items : List α} {name : String}
    (h : name ∈ uniques base taken items) : name ∉ taken := by
  induction items generalizing taken with
  | nil => simp [uniques] at h
  | cons a rest ih =>
      rw [uniques, List.mem_cons] at h
      rcases h with rfl | h
      · exact unique_not_mem _ _
      · exact fun hmem => ih h (List.mem_cons_of_mem _ hmem)

/-- The names that are given are pairwise different. -/
theorem nodup_uniques (taken : List String) (items : List α) :
    (uniques base taken items).Nodup := by
  induction items generalizing taken with
  | nil => simp [uniques]
  | cons a rest ih =>
      rw [uniques, List.nodup_cons]
      exact ⟨fun hmem => not_mem_of_mem_uniques hmem List.mem_cons_self, ih _⟩

/-- Every name that is given is a free name for one of the items. -/
theorem exists_of_mem_uniques {taken : List String} {items : List α} {name : String}
    (h : name ∈ uniques base taken items) :
    ∃ a ∈ items, ∃ others, name = unique (base a) others := by
  induction items generalizing taken with
  | nil => simp [uniques] at h
  | cons a rest ih =>
      rw [uniques, List.mem_cons] at h
      rcases h with rfl | h
      · exact ⟨a, List.mem_cons_self, taken, rfl⟩
      · obtain ⟨b, hb, others, heq⟩ := ih h
        exact ⟨b, List.mem_cons_of_mem _ hb, others, heq⟩

/-- Further items at the end change no name that is given before. -/
theorem prefix_uniques (taken : List String) {items others : List α} (h : items <+: others) :
    uniques base taken items <+: uniques base taken others := by
  obtain ⟨later, rfl⟩ := h
  induction items generalizing taken with
  | nil => exact List.nil_prefix
  | cons a rest ih => exact List.cons_prefix_cons.2 ⟨rfl, ih _⟩

/-- The first names that are given depend on the first items only. -/
theorem take_uniques (taken : List String) (items : List α) (n : Nat) :
    (uniques base taken items).take n = uniques base taken (items.take n) := by
  have hprefix : uniques base taken (items.take n) <+: uniques base taken items :=
    prefix_uniques taken (List.take_prefix n items)
  rw [List.prefix_iff_eq_take.1 hprefix, length_uniques, List.length_take, List.take_eq_take_iff,
    length_uniques]
  omega

/-- The names depend on what the items ask for. -/
theorem uniques_map (base : α → String) (taken : List String) (items : List α) :
    uniques id taken (items.map base) = uniques base taken items := by
  induction items generalizing taken with
  | nil => rfl
  | cons a rest ih => rw [List.map_cons, uniques, uniques, ih, id_eq]

/-- Each name is free among the taken ones and those that are given before it. -/
theorem getElem?_uniques (taken : List String) (items : List α) (place : Nat) :
    (uniques base taken items)[place]? = items[place]?.map fun a =>
      unique (base a) ((uniques base taken (items.take place)).reverse ++ taken) := by
  induction items generalizing taken place with
  | nil => rfl
  | cons a rest ih =>
      cases place with
      | zero => rfl
      | succ place =>
          rw [uniques, List.getElem?_cons_succ, ih, List.getElem?_cons_succ, List.take_succ_cons,
            uniques]
          simp only [List.reverse_cons, List.append_assoc, List.singleton_append]

/-- The items have names that are given one after the other: each is the free name where the taken
ones and those before it are not free. -/
inductive InTurn (base : α → String) : List String → List (α × String) → Prop
  | nil (taken : List String) : InTurn base taken []
  | cons {taken : List String} {a : α} {name : String} {rest : List (α × String)} :
      FreeName (base a) taken name → InTurn base (name :: taken) rest →
        InTurn base taken ((a, name) :: rest)

theorem inTurn_uniques (taken : List String) (items : List α) :
    InTurn base taken (items.zip (uniques base taken items)) := by
  induction items generalizing taken with
  | nil => exact .nil taken
  | cons a rest ih => exact .cons (freeName_unique _ _) (ih _)

namespace InTurn

variable {taken : List String} {pairs later : List (α × String)}

/-- There is one way of giving names in turn. -/
theorem map_snd_eq (h : InTurn base taken pairs) :
    pairs.map (·.2) = uniques base taken (pairs.map (·.1)) := by
  induction h with
  | nil taken => rfl
  | cons hfree _ ih =>
      rw [List.map_cons, List.map_cons, uniques, ← hfree.eq_unique, ih]

/-- The order in which the other names were taken makes no difference. -/
theorem congr (h : InTurn base taken pairs) {others : List String}
    (hmem : ∀ name, name ∈ others ↔ name ∈ taken) : InTurn base others pairs := by
  induction h generalizing others with
  | nil taken => exact .nil others
  | cons hfree _ ih =>
      refine .cons (hfree.congr hmem) (ih fun name => ?_)
      rw [List.mem_cons, List.mem_cons, hmem]

/-- Names go on to be given where others have been given before. -/
theorem append (h : InTurn base taken pairs)
    (hlater : InTurn base (pairs.map (·.2) ++ taken) later) :
    InTurn base taken (pairs ++ later) := by
  induction h with
  | nil taken => exact hlater
  | cons hfree _ ih =>
      refine .cons hfree (ih (hlater.congr fun name => ?_))
      simp only [List.map_cons, List.cons_append, List.mem_append, List.mem_cons]
      tauto

/-- The names that are given in turn are those of a part at the front, too. -/
theorem left (h : InTurn base taken (pairs ++ later)) : InTurn base taken pairs := by
  induction pairs generalizing taken with
  | nil => exact .nil taken
  | cons pair pairs ih =>
      cases h with
      | cons hfree hrest => exact .cons hfree (ih hrest)

theorem nodup (h : InTurn base taken pairs) : (pairs.map (·.2)).Nodup := by
  rw [h.map_snd_eq]
  exact nodup_uniques _ _

/-- The name that an item asks for is given to this item or to another one, unless it was taken. -/
theorem base_mem (h : InTurn base taken pairs) {pair : α × String} (hpair : pair ∈ pairs) :
    base pair.1 ∈ taken ∨ base pair.1 ∈ pairs.map (·.2) := by
  induction h with
  | nil taken => cases hpair
  | cons hfree _ ih =>
      rw [List.map_cons, List.mem_cons]
      rcases List.mem_cons.1 hpair with rfl | hpair
      · cases hfree with
        | base _ => exact .inr (.inl rfl)
        | numbered n htaken _ _ _ => exact .inl htaken
      · rcases ih hpair with htaken | hgiven
        · exact (List.mem_cons.1 htaken).elim (fun hname => .inr (.inl hname)) .inl
        · exact .inr (.inr hgiven)

/-- Every name is made from its item, perhaps with a number from 2 on. -/
theorem eq_or_numbered (h : InTurn base taken pairs) {pair : α × String} (hpair : pair ∈ pairs) :
    pair.2 = base pair.1 ∨ ∃ n, 2 ≤ n ∧ pair.2 = numbered (base pair.1) n := by
  induction h with
  | nil taken => simp at hpair
  | cons hfree _ ih =>
      rcases List.mem_cons.1 hpair with rfl | hpair
      · exact hfree.eq_or_numbered
      · exact ih hpair

/-- A name without a digit at its end is given exactly if an item asks for it. -/
theorem mem_map_snd_iff (h : InTurn base [] pairs) {name : String} (hname : ¬ EndsInDigit name) :
    name ∈ pairs.map (·.2) ↔ name ∈ pairs.map fun pair => base pair.1 := by
  constructor
  · intro hmem
    obtain ⟨pair, hpair, rfl⟩ := List.mem_map.1 hmem
    rcases h.eq_or_numbered hpair with heq | ⟨n, _, heq⟩
    · exact List.mem_map.2 ⟨pair, hpair, heq.symm⟩
    · exact absurd (heq ▸ endsInDigit_numbered _ n) hname
  · intro hmem
    obtain ⟨pair, hpair, rfl⟩ := List.mem_map.1 hmem
    exact (h.base_mem hpair).resolve_left List.not_mem_nil

end InTurn

end TypedClient.Naming
