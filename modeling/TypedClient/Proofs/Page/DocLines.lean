import TypedClient.Page.Model
import TypedClient.Page.Service
import TypedClient.Proofs.Client.Drafted
import TypedClient.Proofs.Page.Comment
import TypedClient.Proofs.Text.Pieces

/-!
# Lines of doc comments

The lines that templates put into a doc comment are lines of the document and some of the
generator's own. Where they are made of a text they are good: each stays on its line and does not
end the comment. The failures of an operation are put behind their status as they are, so that its
comment is good exactly if their reasons are (`docLines_clean_iff`).
-/

namespace TypedClient

namespace Page

open Script.Lexer (terminator)
open Operation (Outcome failureOf)

/-! ## Good lines -/

/-- The line neither ends the comment that it stands in nor itself. -/
def Clean (line : String) : Prop := ¬ terminator <:+: line.toList ∧ '\n' ∉ line.toList

/-- Without an asterisk no comment ends. -/
theorem clean_of_not_mem {line : String} (hstar : '*' ∉ line.toList) (hfeed : '\n' ∉ line.toList) :
    Clean line := ⟨fun h => hstar (h.subset List.mem_cons_self), hfeed⟩

theorem terminator_infix_append {xs ys : List Char} (h : '*' ∉ xs) :
    terminator <:+: xs ++ ys ↔ terminator <:+: ys := by
  induction xs with
  | nil => rfl
  | cons x xs ih =>
      rw [List.mem_cons, not_or] at h
      rw [List.cons_append, List.infix_cons_iff, ih h.2, or_iff_right]
      intro hprefix
      exact h.1 (List.cons_prefix_cons.1 hprefix).1

/-- In front of a line there may be anything without an asterisk and a line feed. -/
theorem clean_append_iff {start text : String} (hstar : '*' ∉ start.toList)
    (hfeed : '\n' ∉ start.toList) : Clean (start ++ text) ↔ Clean text := by
  rw [Clean, Clean, String.toList_append, terminator_infix_append hstar, List.mem_append,
    or_iff_right hfeed]

theorem mem_of_mem_breakTerminators {cs : List Char} {c : Char} (h : c ∈ breakTerminators cs) :
    c ∈ cs ∨ c = '\\' := by
  induction cs using breakTerminators.induct with
  | case1 rest ih =>
      simp only [breakTerminators, List.mem_cons] at h ⊢
      tauto
  | case2 d rest hd ih =>
      rw [breakTerminators] at h
      · rw [List.mem_cons] at h ⊢
        tauto
      · exact hd
  | case3 => cases h

/-- The lines that are made of a text are good. -/
theorem clean_of_mem_commentLines {text line : String} (h : line ∈ commentLines text) :
    Clean line := by
  obtain ⟨raw, hraw, rfl⟩ := List.mem_map.1 h
  rw [Clean, String.toList_ofList]
  refine ⟨terminator_not_infix_breakTerminators _, fun hfeed => ?_⟩
  rcases mem_of_mem_breakTerminators hfeed with hfeed | hfeed
  · exact Text.feed_not_mem_of_mem_lineList hraw
      (List.mem_reverse.1 ((List.dropWhile_sublist _).mem (List.mem_reverse.1 hfeed)))
  · exact absurd hfeed (by decide)

theorem clean_of_mem_map_commentLines {text : Option String} {line : String}
    (h : line ∈ (text.map commentLines).getD []) : Clean line := by
  cases text with
  | none => cases h
  | some text => exact clean_of_mem_commentLines h

/-! ## Definitions -/

/-- All lines of doc comments on the page of a definition: its own, those of its properties and
those of its members. -/
def ModelPage.docLines (p : ModelPage) : List String :=
  p.doc ++ p.properties.flatMap (·.doc) ++ p.members.flatMap (·.doc)

theorem clean_of_mem_modelDoc {m : Model} {line : String} (h : line ∈ modelDoc m) : Clean line := by
  rcases List.mem_append.1 h with h | h
  · exact clean_of_mem_map_commentLines h
  · split at h
    · obtain rfl := List.mem_singleton.1 h
      exact clean_of_not_mem (by decide) (by decide)
    · cases h

theorem clean_of_mem_docLines {options : Options} {m : Model} {line : String}
    (h : line ∈ (ofModel options m).docLines) : Clean line := by
  rcases List.mem_append.1 h with h | h
  · rcases List.mem_append.1 h with h | h
    · exact clean_of_mem_modelDoc h
    · obtain ⟨_, hp, hline⟩ := List.mem_flatMap.1 h
      obtain ⟨p, _, rfl⟩ := List.mem_map.1 hp
      exact clean_of_mem_modelDoc hline
  · obtain ⟨_, hmember, hline⟩ := List.mem_flatMap.1 h
    obtain ⟨member, _, rfl⟩ := List.mem_map.1 hmember
    exact clean_of_mem_map_commentLines hline

/-! ## Operations -/

/-- The line for a failure. -/
def throwsLine (f : Operation.Failure) : String :=
  "@throws ApiError " ++ f.status.text ++ " " ++ f.reason

theorem clean_throwsLine_iff (f : Operation.Failure) : Clean (throwsLine f) ↔ Clean f.reason :=
  clean_append_iff (not_mem_throwsStart (by decide) (by decide) (by decide) f.status)
    (not_mem_throwsStart (by decide) (by decide) (by decide) f.status)

/-- A line of an operation is good, or it is the line for a failure. -/
theorem mem_operationDoc_cases {op : Operation} {options : Options} {line : String}
    (h : line ∈ operationDoc op options) :
    Clean line ∨
      options.throwOnRequestFailed = true ∧ ∃ f ∈ op.failureReasons, line = throwsLine f := by
  simp only [operationDoc, List.mem_append] at h
  rcases h with (((h | h) | h) | h) | h
  case inl.inl.inl.inl => exact .inl (clean_of_mem_map_commentLines h)
  case inl.inl.inl.inr => exact .inl (clean_of_mem_map_commentLines h)
  case inl.inl.inr =>
    split at h
    · obtain rfl := List.mem_singleton.1 h
      exact .inl (clean_of_not_mem (by decide) (by decide))
    · cases h
  case inl.inr =>
    obtain ⟨a, _, hline⟩ := List.mem_flatMap.1 h
    exact .inl (clean_of_mem_commentLines hline)
  case inr =>
    split at h
    · rename_i hthrows
      obtain ⟨f, hf, rfl⟩ := List.mem_map.1 h
      exact .inr ⟨hthrows, f, hf, rfl⟩
    · cases h

theorem throwsLine_mem_operationDoc {op : Operation} {options : Options} {f : Operation.Failure}
    (hthrows : options.throwOnRequestFailed = true) (hf : f ∈ op.failureReasons) :
    throwsLine f ∈ operationDoc op options := by
  rw [operationDoc, if_pos hthrows]
  exact List.mem_append_right _ (List.mem_map_of_mem (f := throwsLine) hf)

/-! ## Reasons -/

/-- The customary reasons are good. -/
theorem clean_of_reason? {status : Status} {reason : String} (h : status.reason? = some reason) :
    Clean reason := by
  have hall : ∀ entry ∈ Status.codeReasons ++ Status.rangeReasons,
      '*' ∉ entry.2.toList ∧ '\n' ∉ entry.2.toList := by
    decide +kernel
  have hmem : ∃ n, (n, reason) ∈ Status.codeReasons ++ Status.rangeReasons := by
    cases status with
    | code n =>
        obtain ⟨before, after, hentries, -⟩ := List.lookup_eq_some_iff.1 h
        exact ⟨n, List.mem_append_left _ (hentries ▸ List.mem_append_right _ List.mem_cons_self)⟩
    | range leading =>
        obtain ⟨before, after, hentries, -⟩ := List.lookup_eq_some_iff.1 h
        exact ⟨leading,
          List.mem_append_right _ (hentries ▸ List.mem_append_right _ List.mem_cons_self)⟩
    | default => cases h
  obtain ⟨n, hn⟩ := hmem
  exact clean_of_not_mem (hall _ hn).1 (hall _ hn).2

/-- The reason of a failure is good if its status has a customary one or its description is. -/
theorem clean_failureOf_iff (o : Outcome) :
    Clean (failureOf o).reason ↔ (o.status.reason? = none → Clean o.description) := by
  cases hreason : o.status.reason? with
  | some reason => simp [failureOf, hreason, clean_of_reason? hreason]
  | none =>
      simp only [failureOf, hreason, forall_const]
      split
      · rename_i hempty
        rw [String.isEmpty_iff.1 hempty]
        exact iff_of_true (clean_of_not_mem (by decide) (by decide))
          (clean_of_not_mem (by decide) (by decide))
      · rfl

/-- All lines of definitions are good, and with them those of their properties and members. Those of
an operation are good exactly if failures are not listed or their reasons are good. A reason can
only fail to be if it is the description of a response whose status has no customary reason. -/
theorem docLines_clean_iff (options : Options) :
    (∀ m : Model, ∀ line ∈ (ofModel options m).docLines, Clean line) ∧
    (∀ op : Operation, (∀ line ∈ (ofOperation options op).doc, Clean line) ↔
      (options.throwOnRequestFailed = true → ∀ f ∈ op.failureReasons, Clean f.reason)) ∧
    ∀ o : Outcome,
      Clean (failureOf o).reason ↔ (o.status.reason? = none → Clean o.description) := by
  refine ⟨fun m line => clean_of_mem_docLines, fun op => ⟨?_, ?_⟩, clean_failureOf_iff⟩
  · intro hall hthrows f hf
    exact (clean_throwsLine_iff f).1 (hall _ (throwsLine_mem_operationDoc hthrows hf))
  · intro hreasons line hline
    rcases mem_operationDoc_cases hline with hclean | ⟨hthrows, f, hf, rfl⟩
    · exact hclean
    · exact (clean_throwsLine_iff f).2 (hreasons hthrows f hf)

/-- The document of an operation that fails with a status of its own. -/
def teapotDocument (description : String) : Document where
  openapi := "3.0.0"
  paths := [("/pots", { operations := [(.get, {
    operationId := some "getPot"
    responses := [("418", .inline { description := description })] })] })]

/-- A description that ends the comment. -/
theorem docLines_not_clean :
    ∃ c, (Client.draft (teapotDocument "not **/ tea") true >>= Client.finish) = .ok c ∧
      ∃ s ∈ c.services, ∃ op ∈ s.operations,
        ∃ line ∈ (ofOperation { throwOnRequestFailed := true } op).doc,
          terminator <:+: line.toList := by
  refine ⟨_, Client.draft_bind_finish_eq_ok_iff.2 ⟨by decide +kernel, rfl⟩, ?_⟩
  obtain ⟨s, hs, op, hop, hline⟩ :
      ∃ s ∈ (Client.drafted (teapotDocument "not **/ tea") true).finished.services,
        ∃ op ∈ s.operations, "@throws ApiError 418 not **/ tea" ∈
          (ofOperation { throwOnRequestFailed := true } op).doc := by
    decide +kernel
  exact ⟨s, hs, op, hop, _, hline, "@throws ApiError 418 not *".toList, " tea".toList, by decide⟩

end Page

end TypedClient
