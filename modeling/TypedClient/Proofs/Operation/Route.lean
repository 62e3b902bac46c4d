import TypedClient.Proofs.Operation.Cut
import TypedClient.Proofs.Operation.Path

/-!
# Patterns for a router

A router sees a parameter at every colon that is not doubled. `cutRoute` cuts a pattern there. In
the pattern that a path is written as, the parameters are the placeholders of the path, in order,
exactly if every colon in the literal text is one of a pair. Two such paths share a pattern exactly
if they agree but for where the names of placeholders end: `route_read_iff`.
-/

namespace TypedClient.PathTemplate

/-- A pattern as a router reads it: the text in front of the first parameter, and for every
parameter what stands behind its colon, up to the next parameter. -/
def cutRoute : List Char → List Char × List (List Char)
  | ':' :: ':' :: cs => (':' :: ':' :: (cutRoute cs).1, (cutRoute cs).2)
  | ':' :: cs => ([], (cutRoute cs).1 :: (cutRoute cs).2)
  | c :: cs => (c :: (cutRoute cs).1, (cutRoute cs).2)
  | [] => ([], [])

/-- Every colon is one of a pair. -/
inductive ColonsPaired : List Char → Prop
  | nil : ColonsPaired []
  | pair {cs : List Char} : ColonsPaired cs → ColonsPaired (':' :: ':' :: cs)
  | cons {c : Char} {cs : List Char} : c ≠ ':' → ColonsPaired cs → ColonsPaired (c :: cs)

variable {cs text token : List Char}

/-! ## Reading patterns -/

theorem cutRoute_cons {c : Char} (hc : c ≠ ':') (cs : List Char) :
    cutRoute (c :: cs) = (c :: (cutRoute cs).1, (cutRoute cs).2) := by
  rw [cutRoute]
  · exact fun _ h _ => hc h
  · exact hc

/-- A colon is the start of a parameter if no other one follows. -/
theorem cutRoute_colon (h : cs.head? ≠ some ':') :
    cutRoute (':' :: cs) = ([], (cutRoute cs).1 :: (cutRoute cs).2) := by
  rw [cutRoute]
  rintro rest rfl
  exact h rfl

/-- Text with its colons in pairs holds no parameter. -/
theorem ColonsPaired.cutRoute_append (h : ColonsPaired text) (rest : List Char) :
    cutRoute (text ++ rest) = (text ++ (cutRoute rest).1, (cutRoute rest).2) := by
  induction h with
  | nil => rfl
  | pair _ ih => simp only [List.cons_append, cutRoute, ih]
  | cons hc _ ih => rw [List.cons_append, cutRoute_cons hc, ih, List.cons_append]

/-- In what lies between the starts of parameters the colons are paired. -/
theorem colonsPaired_cutRoute (cs : List Char) :
    ColonsPaired (cutRoute cs).1 ∧ ∀ piece ∈ (cutRoute cs).2, ColonsPaired piece := by
  fun_induction cutRoute cs with
  | case1 cs ih => exact ⟨.pair ih.1, ih.2⟩
  | case2 cs _ ih => exact ⟨.nil, List.forall_mem_cons.2 ih⟩
  | case3 c cs _ hc ih => exact ⟨.cons hc ih.1, ih.2⟩
  | case4 => exact ⟨.nil, by simp⟩

/-- Nothing of a pattern is lost but the colons that start parameters. -/
theorem append_cutRoute (cs : List Char) :
    (cutRoute cs).1 ++ (cutRoute cs).2.flatMap (':' :: ·) = cs := by
  fun_induction cutRoute cs with
  | case1 cs ih => rw [List.cons_append, List.cons_append, ih]
  | case2 cs _ ih => rw [List.nil_append, List.flatMap_cons, List.cons_append, ih]
  | case3 c cs _ _ ih => rw [List.cons_append, ih]
  | case4 => rfl

theorem colonsPaired_cons_iff {c : Char} (hc : c ≠ ':') :
    ColonsPaired (c :: cs) ↔ ColonsPaired cs := by
  refine ⟨fun h => ?_, .cons hc⟩
  cases h with
  | pair => exact absurd rfl hc
  | cons _ h => exact h

theorem colonsPaired_append_iff (htoken : ':' ∉ token) :
    ColonsPaired (token ++ text) ↔ ColonsPaired text := by
  induction token with
  | nil => rfl
  | cons c token ih =>
      rw [List.mem_cons, not_or] at htoken
      rw [List.cons_append, colonsPaired_cons_iff (Ne.symm htoken.1), ih htoken.2]

/-- The colons are paired exactly if a router sees no parameter. -/
theorem colonsPaired_iff : ColonsPaired cs ↔ (cutRoute cs).2 = [] := by
  constructor
  · intro h
    have hcut := h.cutRoute_append []
    rw [List.append_nil] at hcut
    rw [hcut]
    rfl
  · intro h
    have hloss := append_cutRoute cs
    rw [h, List.flatMap_nil, List.append_nil] at hloss
    exact hloss ▸ (colonsPaired_cutRoute cs).1

instance (cs : List Char) : Decidable (ColonsPaired cs) := decidable_of_iff _ colonsPaired_iff.symm

/-! ## Patterns of paths -/

/-- A placeholder as it is written behind its colon, with the text that follows. -/
def placeholderText (hole : String × String) : List Char := hole.1.toList ++ hole.2.toList

/-- The text in front of the first placeholder, and every placeholder with the text behind it. -/
def routePieces (t : PathTemplate) : List Char × List (List Char) :=
  (t.head.toList, t.holes.map placeholderText)

/-- The placeholders have names that a router can take over. -/
def HasRouteNames (t : PathTemplate) : Prop :=
  ∀ token ∈ t.tokens, token ≠ "" ∧ ':' ∉ token.toList

/-- No text has a colon by itself. -/
def HasRouteTexts (t : PathTemplate) : Prop := ∀ text ∈ t.literals, ColonsPaired text.toList

/-- A placeholder is the end of a segment: its name holds no slash, and one follows it, or nothing
does. -/
def EndsSegment (hole : String × String) : Prop :=
  '/' ∉ hole.1.toList ∧ ∀ c ∈ hole.2.toList.head?, c = '/'

instance (hole : String × String) : Decidable (EndsSegment hole) :=
  decidable_of_iff ('/' ∉ hole.1.toList ∧ hole.2.toList.head?.all (· == '/') = true)
    (by simp [EndsSegment, Option.all_eq_true])

instance (t : PathTemplate) : Decidable t.HasRouteNames :=
  inferInstanceAs (Decidable (∀ token ∈ t.tokens, _))

instance (t : PathTemplate) : Decidable t.HasRouteTexts :=
  inferInstanceAs (Decidable (∀ text ∈ t.literals, _))

/-- A pattern is written piece by piece. -/
theorem toList_route (path : String) :
    (route path).toList =
      (routePieces (parse path)).1 ++ (routePieces (parse path)).2.flatMap (':' :: ·) := by
  simp [route, toList_render, routePieces, placeholderText, List.flatMap_map]

/-- Where the text is free of single colons, every placeholder starts a parameter. -/
theorem cutRoute_placeholders {holes : List (String × String)}
    (hnames : ∀ hole ∈ holes, hole.1 ≠ "" ∧ ':' ∉ hole.1.toList)
    (htexts : ∀ hole ∈ holes, ColonsPaired hole.2.toList) :
    cutRoute ((holes.map placeholderText).flatMap (':' :: ·)) =
      ([], holes.map placeholderText) := by
  induction holes with
  | nil => rfl
  | cons hole holes ih =>
      obtain ⟨⟨hne, hcolon⟩, hnames⟩ := List.forall_mem_cons.1 hnames
      obtain ⟨htext, htexts⟩ := List.forall_mem_cons.1 htexts
      have hpiece : ColonsPaired (placeholderText hole) := (colonsPaired_append_iff hcolon).2 htext
      rw [List.map_cons, List.flatMap_cons, List.cons_append, cutRoute_colon,
        hpiece.cutRoute_append, ih hnames htexts, List.append_nil]
      -- The name in front of the rest is not empty, and starts with no colon.
      obtain ⟨c, cs, hname⟩ := List.exists_cons_of_ne_nil (mt String.toList_eq_nil_iff.1 hne)
      rw [hname, List.mem_cons, not_or] at hcolon
      rw [placeholderText, hname]
      simpa using Ne.symm hcolon.1

theorem forall_tokens_iff {t : PathTemplate} {P : String → Prop} :
    (∀ token ∈ t.tokens, P token) ↔ ∀ hole ∈ t.holes, P hole.1 :=
  List.forall_mem_map

theorem forall_literals_iff {t : PathTemplate} {P : String → Prop} :
    (∀ text ∈ t.literals, P text) ↔ P t.head ∧ ∀ hole ∈ t.holes, P hole.2 := by
  rw [literals, List.forall_mem_cons, List.forall_mem_map]

/-- The parameters of a pattern are the placeholders of the path exactly if no text has a colon by
itself. -/
theorem cutRoute_route_iff {path : String} (hnames : (parse path).HasRouteNames) :
    cutRoute (route path).toList = routePieces (parse path) ↔ (parse path).HasRouteTexts := by
  rw [HasRouteNames, forall_tokens_iff] at hnames
  rw [HasRouteTexts, forall_literals_iff]
  constructor
  · intro h
    have hpaired := colonsPaired_cutRoute (route path).toList
    rw [h, routePieces] at hpaired
    refine ⟨hpaired.1, fun hole hhole => ?_⟩
    have hpiece := hpaired.2 _ (List.mem_map_of_mem hhole)
    exact (colonsPaired_append_iff (hnames hole hhole).2).1 hpiece
  · rintro ⟨hhead, htexts⟩
    rw [toList_route, routePieces, hhead.cutRoute_append, cutRoute_placeholders hnames htexts,
      List.append_nil]

/-- The name of a placeholder goes up to the first slash. -/
theorem takeWhile_placeholderText {hole : String × String} (h : EndsSegment hole) :
    (placeholderText hole).takeWhile (· != '/') = hole.1.toList := by
  obtain ⟨hname, htext⟩ := h
  have hkeep : ∀ c ∈ hole.1.toList, (c != '/') = true := by
    intro c hc
    exact bne_iff_ne.2 fun hslash => hname (hslash ▸ hc)
  have hstop : hole.2.toList.takeWhile (· != '/') = [] := by
    cases hchars : hole.2.toList with
    | nil => rfl
    | cons c cs =>
        obtain rfl : c = '/' := htext c (by rw [hchars]; rfl)
        rfl
  rw [placeholderText, List.takeWhile_append_of_pos hkeep, hstop, List.append_nil]

theorem eq_of_placeholderText_eq {hole other : String × String} (h : EndsSegment hole)
    (h' : EndsSegment other) (heq : placeholderText hole = placeholderText other) :
    hole = other := by
  have hname : hole.1 = other.1 := String.toList_inj.1 (by
    rw [← takeWhile_placeholderText h, ← takeWhile_placeholderText h', heq])
  rw [placeholderText, placeholderText, hname, List.append_cancel_left_eq] at heq
  exact Prod.ext hname (String.toList_inj.1 heq)

theorem eq_of_map_placeholderText_eq {holes others : List (String × String)}
    (h : ∀ hole ∈ holes, EndsSegment hole) (h' : ∀ hole ∈ others, EndsSegment hole)
    (heq : holes.map placeholderText = others.map placeholderText) : holes = others := by
  induction holes generalizing others with
  | nil => exact (List.map_eq_nil_iff.1 heq.symm).symm
  | cons hole holes ih =>
      cases others with
      | nil => cases heq
      | cons other others =>
          obtain ⟨hfirst, hrest⟩ := List.cons.inj heq
          obtain ⟨hhole, hholes⟩ := List.forall_mem_cons.1 h
          obtain ⟨hother, hothers⟩ := List.forall_mem_cons.1 h'
          rw [eq_of_placeholderText_eq hhole hother hfirst, ih hholes hothers hrest]

/-- A path whose placeholders are ends of segments can be told from its pieces. -/
theorem eq_of_routePieces_eq {path other : String}
    (h : ∀ hole ∈ (parse path).holes, EndsSegment hole)
    (h' : ∀ hole ∈ (parse other).holes, EndsSegment hole)
    (heq : routePieces (parse path) = routePieces (parse other)) : path = other := by
  obtain ⟨hhead, hholes⟩ := Prod.mk.inj heq
  rw [(cuts_parse path).path_eq, (cuts_parse other).path_eq, String.toList_inj.1 hhead,
    eq_of_map_placeholderText_eq h h' hholes]

/-- The parameters that a router reads from the pattern of a path are the placeholders of the path,
each at its place, exactly if every colon of the literal text is one of a pair. Paths of this kind
share a pattern exactly if they have the same text in front of the placeholders, and the same names
with the text behind them; so they are the same if every placeholder ends a segment. -/
theorem route_read_iff (path : String) (hnames : (parse path).HasRouteNames) :
    (cutRoute (route path).toList = routePieces (parse path) ↔ (parse path).HasRouteTexts) ∧
      ∀ other, (parse other).HasRouteNames → (parse path).HasRouteTexts →
        (parse other).HasRouteTexts →
        (route path = route other ↔ routePieces (parse path) = routePieces (parse other)) ∧
        ((∀ hole ∈ (parse path).holes, EndsSegment hole) →
          (∀ hole ∈ (parse other).holes, EndsSegment hole) →
          (route path = route other ↔ path = other)) := by
  refine ⟨cutRoute_route_iff hnames, fun other hnames' htexts htexts' => ?_⟩
  have hroute : route path = route other ↔
      routePieces (parse path) = routePieces (parse other) := by
    constructor
    · intro h
      rw [← (cutRoute_route_iff hnames).2 htexts, ← (cutRoute_route_iff hnames').2 htexts', h]
    · intro h
      rw [← String.toList_inj, toList_route, toList_route, h]
  refine ⟨hroute, fun hends hends' => ⟨fun h => ?_, fun h => h ▸ rfl⟩⟩
  exact eq_of_routePieces_eq hends hends' (hroute.1 h)

theorem route_read_iff_photo :
    cutRoute (route "/v1/{pet-id}/urn::photo/{n}").toList =
        ("/v1/".toList, ["pet-id/urn::photo/".toList, "n".toList]) ∧
      (route "/v1/{pet-id}/urn::photo/{n}" = route "/v1/{pet}/{id}" ↔
        "/v1/{pet-id}/urn::photo/{n}" = "/v1/{pet}/{id}") := by
  obtain ⟨hread, hother⟩ := route_read_iff "/v1/{pet-id}/urn::photo/{n}" (by decide)
  refine ⟨(hread.2 (by decide)).trans (by decide), ?_⟩
  exact (hother "/v1/{pet}/{id}" (by decide) (by decide) (by decide)).2 (by decide) (by decide)

/-- A single colon in the text of a path is taken for a parameter, and the pattern may be that of a
path which has one. So it is, without any colon, where text follows a placeholder directly. -/
theorem not_route_read :
    (parse "/pets:feed").HasRouteNames ∧ (parse "/pets:feed").holes = [] ∧
      cutRoute (route "/pets:feed").toList = ("/pets".toList, ["feed".toList]) ∧
      route "/pets:feed" = route "/pets{feed}" ∧ route "/{a}b" = route "/{ab}" := by
  decide

end TypedClient.PathTemplate
