import Mathlib.Data.List.Basic
import Mathlib.Data.List.TakeWhile
import TypedClient.Naming.Identifier

/-!
# How a type name is made

In a type name every run of foreign characters is one underscore. `Collapses` says so of a text as a
whole, and there is one text into which a text collapses (`collapses_iff`).

A text gets its type name in one of three ways (`Makes`). If some of its characters can start a
name, then the name starts with the first of them. If there is none but there are digits, then the
name is an underscore and what stands from the first digit to the last one. A text without any
characters of names is called `Model`. Every text gets the name that is made in this way, and no
other one (`makes_iff`): the underscores which the definition drops at both ends are all that is
left of the foreign characters there.
-/

namespace TypedClient

namespace Text

variable {α : Type} {p : α → Bool}

/-- What is dropped at both ends does not matter, if what stands between them is kept. -/
theorem dropEndWhile_dropWhile_append {xs ys zs : List α} (hfront : ∀ x ∈ xs, p x = true)
    (hback : ∀ z ∈ zs, p z = true) (hfirst : ∃ y ∈ ys.head?, p y = false)
    (hlast : ∃ y ∈ ys.getLast?, p y = false) :
    dropEndWhile p ((xs ++ ys ++ zs).dropWhile p) = ys := by
  have hkept : ∀ {l : List α} (rest : List α), (∃ y ∈ l.head?, p y = false) →
      (l ++ rest).dropWhile p = l ++ rest := by
    rintro l rest ⟨y, hy, hpy⟩
    obtain ⟨l', rfl⟩ := List.head?_eq_some_iff.1 hy
    exact List.dropWhile_cons_of_neg (by simp [hpy])
  have hlast' : ∃ y ∈ ys.reverse.head?, p y = false := by rwa [List.head?_reverse]
  rw [List.append_assoc, List.dropWhile_append_of_pos hfront, hkept zs hfirst, dropEndWhile,
    List.reverse_append, List.dropWhile_append_of_pos fun z hz => hback z (List.mem_reverse.1 hz),
    ← List.append_nil ys.reverse, hkept [] hlast', List.append_nil, List.reverse_reverse]

/-- A list falls apart at its first member of a kind. -/
theorem exists_first {xs : List α} (h : ∃ x ∈ xs, p x = true) :
    ∃ front x rest, xs = front ++ x :: rest ∧ p x = true ∧ ∀ y ∈ front, p y = false := by
  obtain ⟨x, hfind⟩ := Option.isSome_iff_exists.1 (List.find?_isSome.2 h)
  obtain ⟨hx, front, rest, heq, hfront⟩ := List.find?_eq_some_iff_append.1 hfind
  exact ⟨front, x, rest, heq, hx, by simpa using hfront⟩

/-- A list falls apart at its first and its last member of a kind, which may be the same. -/
theorem exists_between {xs : List α} (h : ∃ x ∈ xs, p x = true) :
    ∃ front middle back, xs = front ++ middle ++ back ∧ (∀ x ∈ front ++ back, p x = false) ∧
      (∃ x ∈ middle.head?, p x = true) ∧ ∃ x ∈ middle.getLast?, p x = true := by
  obtain ⟨front, x, rest, rfl, hx, hfront⟩ := exists_first h
  have hmem : ∃ y ∈ (x :: rest).reverse, p y = true := ⟨x, by simp, hx⟩
  obtain ⟨back, z, more, hreverse, hz, hback⟩ := exists_first hmem
  have hrest : x :: rest = (more.reverse ++ [z]) ++ back.reverse := by
    rw [← List.reverse_reverse (x :: rest), hreverse]
    simp
  have hhead : (more.reverse ++ [z]).head? = some x := by
    have hfirst := congrArg List.head? hrest
    rw [List.head?_cons, List.head?_append_of_ne_nil _ (by simp)] at hfirst
    exact hfirst.symm
  refine ⟨front, more.reverse ++ [z], back.reverse, by rw [List.append_assoc, ← hrest], ?_,
    ⟨x, hhead, hx⟩, ⟨z, by simp, hz⟩⟩
  exact List.forall_mem_append.2 ⟨hfront, fun y hy => hback y (List.mem_reverse.1 hy)⟩

end Text

namespace Naming

variable {c : Char} {cs ds ys run : List Char}

/-! ## Characters of names -/

/-- A character with which a name may start may stand anywhere in it. -/
theorem isNameChar_of_isNameStart (h : isNameStart c = true) : isNameChar c = true := by
  simp only [isNameStart, isNameChar, Char.isAlphanum, Bool.or_eq_true] at h ⊢
  tauto

/-- The other characters of names are the digits. -/
theorem isDigit_of_isNameChar (h : isNameChar c = true) (hstart : isNameStart c = false) :
    c.isDigit = true := by
  simp only [isNameStart, Bool.or_eq_false_iff] at hstart
  obtain ⟨⟨halpha, hunder⟩, hdollar⟩ := hstart
  simpa [isNameChar, Char.isAlphanum, halpha, hunder, hdollar] using h

theorem isNameChar_of_isDigit (h : c.isDigit = true) : isNameChar c = true := by
  simp [isNameChar, Char.isAlphanum, h]

theorem isNameStart_eq_false (h : isNameChar c = false) : isNameStart c = false :=
  Bool.eq_false_iff.2 fun hstart => Bool.eq_false_iff.1 h (isNameChar_of_isNameStart hstart)

/-! ## Runs -/

/-- Every run of foreign characters of the first text is an underscore in the second one, and the
other characters are the same. -/
inductive Collapses : List Char → List Char → Prop
  | nil : Collapses [] []
  | keep {c : Char} {cs ds : List Char} :
      isNameChar c = true → Collapses cs ds → Collapses (c :: cs) (c :: ds)
  | run {run cs ds : List Char} :
      run ≠ [] → (∀ c ∈ run, isNameChar c = false) → (∀ c ∈ cs.head?, isNameChar c = true) →
        Collapses cs ds → Collapses (run ++ cs) ('_' :: ds)

theorem joinRuns_cons (hc : isNameChar c = true) (inRun : Bool) (cs : List Char) :
    joinRuns inRun (c :: cs) = c :: joinRuns false cs := by
  rw [joinRuns, if_pos hc]

/-- A run that has been entered is left at the first character of names. -/
theorem joinRuns_run_append (hrun : ∀ c ∈ run, isNameChar c = false)
    (hcs : ∀ c ∈ cs.head?, isNameChar c = true) :
    joinRuns true (run ++ cs) = joinRuns false cs := by
  induction run with
  | nil =>
      cases cs with
      | nil => rfl
      | cons c cs =>
          have hc : isNameChar c = true := hcs c rfl
          exact (joinRuns_cons hc true cs).trans (joinRuns_cons hc false cs).symm
  | cons d run ih =>
      rw [List.forall_mem_cons] at hrun
      simpa [joinRuns, hrun.1] using ih hrun.2

theorem Collapses.joinRuns_eq (h : Collapses cs ds) : joinRuns false cs = ds := by
  induction h with
  | nil => rfl
  | keep hc _ ih => rw [joinRuns_cons hc, ih]
  | @run run cs ds hne hrun hcs _ ih =>
      obtain ⟨d, run, rfl⟩ := List.exists_cons_of_ne_nil hne
      rw [List.forall_mem_cons] at hrun
      rw [List.cons_append, joinRuns, if_neg (by simp [hrun.1]), if_neg (by simp),
        joinRuns_run_append hrun.2 hcs, ih]

/-- Inside a run the characters before it matter, so that they stand in front here. -/
theorem collapses_joinRuns (cs : List Char) :
    Collapses cs (joinRuns false cs) ∧
      ∀ run, run ≠ [] → (∀ c ∈ run, isNameChar c = false) →
        Collapses (run ++ cs) ('_' :: joinRuns true cs) := by
  induction cs with
  | nil => exact ⟨.nil, fun run hne hrun => .run hne hrun (by simp) .nil⟩
  | cons c cs ih =>
      by_cases hc : isNameChar c = true
      · have hkeep : Collapses (c :: cs) (c :: joinRuns false cs) := .keep hc ih.1
        rw [joinRuns_cons hc, joinRuns_cons hc]
        exact ⟨hkeep, fun run hne hrun => .run hne hrun (by simp [hc]) hkeep⟩
      · have hforeign : isNameChar c = false := by simpa using hc
        constructor
        · have hrun := ih.2 [c] (by simp) (by simpa using hforeign)
          simpa [joinRuns, hforeign] using hrun
        · intro run hne hrun
          have hlonger := ih.2 (run ++ [c]) (by simp)
            (List.forall_mem_append.2 ⟨hrun, by simpa using hforeign⟩)
          simpa [joinRuns, hforeign] using hlonger

/-- There is one text into which a text collapses. -/
theorem collapses_iff : Collapses cs ds ↔ joinRuns false cs = ds :=
  ⟨Collapses.joinRuns_eq, fun h => h ▸ (collapses_joinRuns cs).1⟩

/-- What a text collapses into holds characters of names only. -/
theorem Collapses.isNameChar (h : Collapses cs ds) : ∀ d ∈ ds, isNameChar d = true := by
  induction h with
  | nil => simp
  | keep hc _ ih => exact List.forall_mem_cons.2 ⟨hc, ih⟩
  | run _ _ _ _ ih => exact List.forall_mem_cons.2 ⟨by decide, ih⟩

/-- Characters of names are left as they are. -/
theorem collapses_self (h : ∀ c ∈ cs, isNameChar c = true) : Collapses cs cs := by
  induction cs with
  | nil => exact .nil
  | cons c cs ih =>
      rw [List.forall_mem_cons] at h
      exact .keep h.1 (ih h.2)

/-- Where no underscore is left, there has been no run. -/
theorem Collapses.eq_self (h : Collapses cs ds) (hds : '_' ∉ ds) : ds = cs := by
  induction h with
  | nil => rfl
  | keep _ _ ih => rw [ih (List.not_mem_of_not_mem_cons hds)]
  | run => exact absurd List.mem_cons_self hds

/-- A character of names starts what is left of it and of the text behind it. -/
theorem joinRuns_append_cons (hc : isNameChar c = true) (inRun : Bool) (xs ys : List Char) :
    joinRuns inRun (xs ++ c :: ys) = joinRuns inRun xs ++ c :: joinRuns false ys := by
  induction xs generalizing inRun with
  | nil => exact joinRuns_cons hc inRun ys
  | cons x xs ih =>
      rw [List.cons_append, joinRuns, joinRuns, ih, ih]
      split
      · rfl
      · split <;> rfl

/-- Foreign characters leave nothing but underscores. -/
theorem eq_underscore_of_mem_joinRuns (h : ∀ c ∈ cs, isNameChar c = false) {inRun : Bool} {d : Char}
    (hd : d ∈ joinRuns inRun cs) : d = '_' := by
  induction cs generalizing inRun with
  | nil => simp [joinRuns] at hd
  | cons c cs ih =>
      rw [List.forall_mem_cons] at h
      cases inRun <;> simp only [joinRuns, h.1, Bool.false_eq_true, if_false, if_true,
        List.mem_cons] at hd
      case false => exact hd.elim id (ih h.2)
      case true => exact ih h.2 hd

/-- A text with characters of names at both ends keeps its place between two others. -/
theorem joinRuns_append_append (hfirst : ∃ c ∈ ys.head?, isNameChar c = true)
    (hlast : ∃ c ∈ ys.getLast?, isNameChar c = true) (xs zs : List Char) :
    joinRuns false (xs ++ ys ++ zs) =
      joinRuns false xs ++ joinRuns false ys ++ joinRuns false zs := by
  obtain ⟨c, hhead, hc⟩ := hfirst
  obtain ⟨d, hgetLast, hd⟩ := hlast
  have hbehind : joinRuns false (ys ++ zs) = joinRuns false ys ++ joinRuns false zs := by
    obtain ⟨front, rfl⟩ := List.getLast?_eq_some_iff.1 hgetLast
    have hnil := joinRuns_append_cons hd false front []
    rw [List.append_assoc, List.singleton_append, joinRuns_append_cons hd, hnil, List.append_assoc]
    rfl
  obtain ⟨back, rfl⟩ := List.head?_eq_some_iff.1 hhead
  have hstart := joinRuns_append_cons hc false [] (back ++ zs)
  rw [List.nil_append, ← List.cons_append, hbehind] at hstart
  rw [List.append_assoc, List.cons_append, joinRuns_append_cons hc, List.append_assoc, hstart]
  rfl

theorem head?_joinRuns (h : ∃ c ∈ cs.head?, isNameChar c = true) :
    (joinRuns false cs).head? = cs.head? := by
  obtain ⟨c, hhead, hc⟩ := h
  obtain ⟨rest, rfl⟩ := List.head?_eq_some_iff.1 hhead
  rw [joinRuns_cons hc, List.head?_cons, List.head?_cons]

theorem getLast?_joinRuns (h : ∃ c ∈ cs.getLast?, isNameChar c = true) :
    (joinRuns false cs).getLast? = cs.getLast? := by
  obtain ⟨c, hlast, hc⟩ := h
  obtain ⟨front, rfl⟩ := List.getLast?_eq_some_iff.1 hlast
  rw [joinRuns_append_cons hc, joinRuns, List.getLast?_concat, List.getLast?_concat]

/-! ## Three ways to a name -/

/-- The ways in which a text gets its type name. -/
inductive Makes : List Char → List Char → Prop
  /-- What stands in front of the first character that can start a name is dropped. -/
  | ofStart {front rest name : List Char} {c : Char} :
      (∀ d ∈ front, isNameStart d = false) → isNameStart c = true → Collapses (c :: rest) name →
        Makes (front ++ c :: rest) name
  /-- What stands around the digits is dropped, if nothing else can stand in a name. -/
  | ofDigits {front middle back body : List Char} :
      (∀ d ∈ front ++ back, isNameChar d = false) → (∀ d ∈ middle, isNameStart d = false) →
        (∃ d ∈ middle.head?, d.isDigit = true) → (∃ d ∈ middle.getLast?, d.isDigit = true) →
          Collapses middle body → Makes (front ++ middle ++ back) ('_' :: body)
  /-- There is nothing to make a name from. -/
  | ofNothing {cs : List Char} :
      (∀ c ∈ cs, isNameChar c = false) → Makes cs ['M', 'o', 'd', 'e', 'l']

theorem dropWhile_not_isNameStart_eq_nil (h : ∀ c ∈ cs, isNameStart c = false) :
    cs.dropWhile (!isNameStart ·) = [] :=
  List.dropWhile_eq_nil_iff.2 fun c hc => by simp [h c hc]

theorem dropWhile_not_isNameStart_of_foreign {front middle back : List Char}
    (houter : ∀ d ∈ front ++ back, isNameChar d = false)
    (hmiddle : ∀ d ∈ middle, isNameStart d = false) :
    (front ++ middle ++ back).dropWhile (!isNameStart ·) = [] := by
  obtain ⟨hfront, hback⟩ := List.forall_mem_append.1 houter
  refine dropWhile_not_isNameStart_eq_nil ?_
  rw [List.forall_mem_append, List.forall_mem_append]
  exact ⟨⟨fun d hd => isNameStart_eq_false (hfront d hd), hmiddle⟩,
    fun d hd => isNameStart_eq_false (hback d hd)⟩

theorem dropWhile_not_isNameStart_append {front rest : List Char}
    (hfront : ∀ d ∈ front, isNameStart d = false) (hc : isNameStart c = true) :
    (front ++ c :: rest).dropWhile (!isNameStart ·) = c :: rest := by
  rw [List.dropWhile_append_of_pos fun d hd => by simp [hfront d hd],
    List.dropWhile_cons_of_neg (by simp [hc])]

/-- The underscores that are dropped around the digits are those which foreign characters left. -/
theorem trim_joinRuns_append {front middle back : List Char}
    (houter : ∀ d ∈ front ++ back, isNameChar d = false)
    (hfirst : ∃ d ∈ middle.head?, d.isDigit = true)
    (hlast : ∃ d ∈ middle.getLast?, d.isDigit = true) :
    Text.dropEndWhile (· == '_')
      ((joinRuns false (front ++ middle ++ back)).dropWhile (· == '_')) =
        joinRuns false middle := by
  obtain ⟨hfront, hback⟩ := List.forall_mem_append.1 houter
  have hunder : ∀ cs : List Char, (∀ c ∈ cs, isNameChar c = false) →
      ∀ d ∈ joinRuns false cs, (d == '_') = true :=
    fun _ hforeign d hd => beq_iff_eq.2 (eq_underscore_of_mem_joinRuns hforeign hd)
  have hkept : ∀ {end? : Option Char}, (∃ d ∈ end?, d.isDigit = true) →
      (∃ d ∈ end?, isNameChar d = true) ∧ ∃ d ∈ end?, (d == '_') = false := by
    rintro end? ⟨d, hd, hdigit⟩
    refine ⟨⟨d, hd, isNameChar_of_isDigit hdigit⟩, d, hd, beq_eq_false_iff_ne.2 ?_⟩
    rintro rfl
    exact absurd hdigit (by decide)
  obtain ⟨hfirstName, hfirstKept⟩ := hkept hfirst
  obtain ⟨hlastName, hlastKept⟩ := hkept hlast
  rw [joinRuns_append_append hfirstName hlastName]
  refine Text.dropEndWhile_dropWhile_append (hunder _ hfront) (hunder _ hback) ?_ ?_
  · rwa [head?_joinRuns hfirstName]
  · rwa [getLast?_joinRuns hlastName]

namespace Makes

variable {name : List Char}

theorem typeNameList_eq (h : Makes cs name) : typeNameList cs = name := by
  cases h with
  | @ofStart front rest name c hfront hc hname =>
      rw [typeNameList, dropWhile_not_isNameStart_append hfront hc,
        ← hname.joinRuns_eq, joinRuns_cons (isNameChar_of_isNameStart hc)]
  | @ofDigits front middle back body houter hmiddle hfirst hlast hbody =>
      have htrim := trim_joinRuns_append houter hfirst hlast
      obtain ⟨c, hhead, hdigit⟩ := hfirst
      obtain ⟨rest, rfl⟩ := List.head?_eq_some_iff.1 hhead
      rw [hbody.joinRuns_eq] at htrim
      have hcons : body = c :: joinRuns false rest := by
        rw [← hbody.joinRuns_eq, joinRuns_cons (isNameChar_of_isDigit hdigit)]
      rw [typeNameList, dropWhile_not_isNameStart_of_foreign houter hmiddle, htrim, hcons]
      rfl
  | ofNothing hforeign =>
      have hdropped := dropWhile_not_isNameStart_eq_nil fun c hc =>
        isNameStart_eq_false (hforeign c hc)
      have hnothing : (joinRuns false cs).dropWhile (· == '_') = [] :=
        List.dropWhile_eq_nil_iff.2 fun d hd =>
          beq_iff_eq.2 (eq_underscore_of_mem_joinRuns hforeign hd)
      rw [typeNameList, hdropped, hnothing]
      rfl

/-- Whatever it is made from, a name starts with a letter, an underscore or a dollar sign, and
digits may follow. -/
theorem form (h : Makes cs name) :
    ∃ c rest, name = c :: rest ∧ isNameStart c = true ∧ ∀ d ∈ rest, isNameChar d = true := by
  cases h with
  | @ofStart front rest name c _ hc hname =>
      have hchars := hname.isNameChar
      rw [← hname.joinRuns_eq, joinRuns_cons (isNameChar_of_isNameStart hc)] at hchars ⊢
      exact ⟨c, _, rfl, hc, (List.forall_mem_cons.1 hchars).2⟩
  | ofDigits _ _ _ _ hbody => exact ⟨'_', _, rfl, by decide, hbody.isNameChar⟩
  | ofNothing _ =>
      have hchars : ['o', 'd', 'e', 'l'].all isNameChar = true := by decide
      exact ⟨'M', _, rfl, by decide, List.all_eq_true.1 hchars⟩

end Makes

/-- Every text gets a name in one of the ways. -/
theorem exists_makes (cs : List Char) : ∃ name, Makes cs name := by
  by_cases hstart : ∃ c ∈ cs, isNameStart c = true
  · obtain ⟨front, c, rest, rfl, hc, hfront⟩ := Text.exists_first hstart
    exact ⟨_, .ofStart hfront hc (collapses_joinRuns _).1⟩
  · have hnone : ∀ c ∈ cs, isNameStart c = false := by simpa using hstart
    by_cases hname : ∃ c ∈ cs, isNameChar c = true
    · obtain ⟨front, middle, back, rfl, houter, ⟨c, hhead, hc⟩, d, hlast, hd⟩ :=
        Text.exists_between hname
      have hmiddle : ∀ e ∈ middle, isNameStart e = false := fun e he =>
        hnone e (List.mem_append_left _ (List.mem_append_right _ he))
      have hfirst := isDigit_of_isNameChar hc (hmiddle c (List.mem_of_mem_head? hhead))
      have hend := isDigit_of_isNameChar hd (hmiddle d (List.mem_of_mem_getLast? hlast))
      exact ⟨_, .ofDigits houter hmiddle ⟨c, hhead, hfirst⟩ ⟨d, hlast, hend⟩
        (collapses_joinRuns _).1⟩
    · exact ⟨_, .ofNothing (by simpa using hname)⟩

/-- Every text gets the name that is made of it, and no other one. -/
theorem makes_iff {name : List Char} : Makes cs name ↔ typeNameList cs = name := by
  refine ⟨Makes.typeNameList_eq, ?_⟩
  rintro rfl
  obtain ⟨name, hname⟩ := exists_makes cs
  rwa [hname.typeNameList_eq]

end Naming

end TypedClient
