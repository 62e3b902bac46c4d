import TypedClient.Operation.Status
import TypedClient.Page.Comment
import TypedClient.Proofs.Decimal.Text
import TypedClient.Proofs.Script.Code

/-!
# Doc comments stay closed

A line without `*/` does not end the comment that it stands in (`passes_comment`). The lines that are
made of the texts of a document are of this kind, since the end of a comment is broken up in them
(`passes_commentLine`). What stands in front of the reason of a failure is, too
(`not_mem_throwsStart`).
-/

namespace TypedClient

/-- A status is written with digits and letters. -/
theorem Status.isAlphanum_of_mem_text {status : Status} {c : Char} (h : c ∈ status.text.toList) :
    c.isAlphanum = true := by
  have hdigits (n : Nat) (hc : c ∈ (Decimal.natText n).toList) : c.isAlphanum = true := by
    rw [Decimal.natText, String.toList_ofList] at hc
    rw [Char.isAlphanum, Decimal.isDigits_toDigits n c hc, Bool.or_true]
  have hrange : "XX".toList.all Char.isAlphanum = true := by decide
  have hdefault : "default".toList.all Char.isAlphanum = true := by decide
  cases status with
  | code n => exact hdigits n h
  | range leading =>
      rw [Status.text, String.toList_append, List.mem_append] at h
      rcases h with h | h
      · exact hdigits leading h
      · exact List.all_eq_true.1 hrange c h
  | default => exact List.all_eq_true.1 hdefault c h

namespace Script.Lexer

variable {b : Before} {cs : List Char}

/-- Inside a block comment, not behind an asterisk. -/
def AtComment (b : Before) (q : Lexer) : Prop := q = { mode := .blockComment b false }

/-- Inside a block comment. -/
def InComment (b : Before) (q : Lexer) : Prop := ∃ star, q = { mode := .blockComment b star }

/-- The end of a comment. -/
def terminator : List Char := ['*', '/']

/-- What holds no end of a comment stays in the comment. An asterisk before it must not make one. -/
theorem read_comment (hcs : ¬ terminator <:+: cs) {star : Bool}
    (hstar : star = true → cs.head? ≠ some '/') :
    InComment b (({ mode := .blockComment b star } : Lexer).read cs).1 ∧
      (({ mode := .blockComment b star } : Lexer).read cs).2 = [] := by
  induction cs generalizing star with
  | nil => exact ⟨⟨star, rfl⟩, rfl⟩
  | cons c cs ih =>
      have hstep : ({ mode := .blockComment b star } : Lexer).step c =
          { mode := .blockComment b (c == '*') } := by
        refine if_neg fun hend => ?_
        rw [Bool.and_eq_true, beq_iff_eq] at hend
        exact hstar hend.1 (by rw [hend.2]; rfl)
      have hrest : ¬ terminator <:+: cs := fun h => hcs (h.trans (List.suffix_cons c cs).isInfix)
      rw [read_cons_of_found?_eq_none rfl, hstep]
      refine ih hrest fun hc => ?_
      cases cs with
      | nil => simp
      | cons d cs =>
          intro hd
          rw [beq_iff_eq] at hc
          rw [List.head?_cons, Option.some.injEq] at hd
          subst hc hd
          exact hcs (List.prefix_append ['*', '/'] cs).isInfix

theorem passes_comment (hcs : ¬ terminator <:+: cs) : Passes (AtComment b) (InComment b) cs := by
  rintro _ rfl
  exact read_comment hcs (by simp)

/-- Without an asterisk not even the beginning of an end is made. -/
theorem passes_comment_of_not_mem (h : '*' ∉ cs) : Passes (AtComment b) (AtComment b) cs := by
  refine .of_forall fun c hc => ?_
  rintro _ rfl
  have hstar : (c == '*') = false := by
    rw [beq_eq_false_iff_ne]
    rintro rfl
    exact h hc
  simp [AtComment, read_cons, step, found?, hstar]

end Script.Lexer

namespace Page

open Script.Lexer (terminator AtComment InComment passes_comment)

theorem head?_breakTerminators (cs : List Char) : (breakTerminators cs).head? = cs.head? := by
  fun_cases breakTerminators cs <;> rfl

/-- No end of a comment is left once all are broken up. -/
theorem terminator_not_infix_breakTerminators (cs : List Char) :
    ¬ terminator <:+: breakTerminators cs := by
  induction cs using breakTerminators.induct with
  | case1 rest ih =>
      simpa [breakTerminators, terminator, List.infix_cons_iff, List.cons_prefix_cons] using ih
  | case2 c rest hc ih =>
      rw [breakTerminators]
      · rw [List.infix_cons_iff, not_or]
        refine ⟨fun hprefix => ?_, ih⟩
        obtain ⟨rfl, hslash⟩ := List.cons_prefix_cons.1 hprefix
        -- The asterisk would stand before a slash, so that the first equation applies.
        have hhead := head?_breakTerminators rest
        obtain ⟨others, hothers⟩ := hslash
        rw [← hothers] at hhead
        cases rest with
        | nil => cases hhead
        | cons d rest => exact hc rest rfl (by rw [Option.some.inj hhead])
      · exact hc
  | case3 => simp [breakTerminators, terminator]

/-- The lines of a text of the document stay in the comment. -/
theorem passes_commentLine {text line : String} (h : line ∈ commentLines text)
    (b : Script.Before) : Script.Lexer.Passes (AtComment b) (InComment b) line.toList := by
  obtain ⟨raw, _, rfl⟩ := List.mem_map.1 h
  rw [String.toList_ofList]
  exact passes_comment (terminator_not_infix_breakTerminators _)

/-- In front of the reason of a failure there are letters and digits, an at sign and blanks. -/
theorem not_mem_throwsStart {c : Char} (hc : c.isAlphanum = false)
    (hkeyword : c ∉ "@throws ApiError ".toList) (hspace : c ∉ " ".toList) (status : Status) :
    c ∉ ("@throws ApiError " ++ status.text ++ " ").toList := by
  have hstatus : c ∉ status.text.toList := fun h =>
    absurd (Status.isAlphanum_of_mem_text h) (by simp [hc])
  simp only [String.toList_append, List.mem_append, hkeyword, hstatus, hspace, or_self,
    not_false_eq_true]

end Page

end TypedClient
