import TypedClient.Operation.Path
import TypedClient.Proofs.Script.Literal

/-!
# Paths as templates

A path becomes the text of a template, in which backticks are escaped and every placeholder is an
expression in braces. Unless the path itself holds a backslash or opens such an expression
(`PathTemplate.IsPlain`), it stays inside the template: `passes_pathText`.
-/

namespace TypedClient

namespace Script.Lexer

variable {cs : List Char} {c : Char}

/-- Inside a template, not behind a dollar sign. -/
def AtTemplate (q : Lexer) : Prop := q = { mode := .template false false }

/-- Inside a template. -/
def InTemplate (q : Lexer) : Prop := ∃ dollar, q = { mode := .template false dollar }

/-- Inside an expression of a template. -/
def InHole (q : Lexer) : Prop := ∃ b, q = { mode := .code b, depths := [0] }

/-- The start of an expression in a template. -/
def holeStart : List Char := ['$', '\x7b']

/-- A character with backticks escaped. -/
def escapeTick (c : Char) : List Char := if c = '\x60' then ['\\', '\x60'] else [c]

/-- What neither escapes anything nor starts an expression stays in the template. -/
theorem read_template (hescape : '\\' ∉ cs) (hhole : ¬ holeStart <:+: cs) {dollar : Bool}
    (hdollar : dollar = true → cs.head? ≠ some '\x7b') :
    InTemplate (({ mode := .template false dollar } : Lexer).read (cs.flatMap escapeTick)).1 ∧
      (({ mode := .template false dollar } : Lexer).read (cs.flatMap escapeTick)).2 = [] := by
  induction cs generalizing dollar with
  | nil => exact ⟨⟨dollar, rfl⟩, rfl⟩
  | cons c cs ih =>
      rw [List.mem_cons, not_or] at hescape
      have hrest : ¬ holeStart <:+: cs := fun h => hhole (h.trans (List.suffix_cons c cs).isInfix)
      rw [List.flatMap_cons]
      by_cases htick : c = '\x60'
      · -- The backtick is escaped, and the template goes on.
        have hread : ({ mode := .template false dollar } : Lexer).read (escapeTick c) =
            ({ mode := .template false false }, []) := by
          rw [escapeTick, if_pos htick]
          cases dollar <;> rfl
        rw [read_append, hread]
        exact ih hescape.2 hrest (by simp)
      · have hstep : ({ mode := .template false dollar } : Lexer).step c =
            { mode := .template false (c == '$') } := by
          have hbrace : (dollar && c == '\x7b') = false := by
            rw [Bool.and_eq_false_iff, ← Bool.not_eq_true, beq_eq_false_iff_ne]
            by_cases hd : dollar = true
            · exact .inr fun hc => hdollar hd (by rw [hc]; rfl)
            · exact .inl hd
          have hslash : (c == '\\') = false := by simpa using Ne.symm hescape.1
          simp [step, htick, hbrace, hslash]
        rw [escapeTick, if_neg htick, List.singleton_append, read_cons_of_found?_eq_none rfl, hstep]
        refine ih hescape.2 hrest fun hc hhead => ?_
        cases cs with
        | nil => cases hhead
        | cons d cs =>
            rw [beq_iff_eq] at hc
            rw [List.head?_cons, Option.some.injEq] at hhead
            subst hc hhead
            exact hhole (List.prefix_append holeStart cs).isInfix

theorem passes_template (hescape : '\\' ∉ cs) (hhole : ¬ holeStart <:+: cs) :
    Passes AtTemplate InTemplate (cs.flatMap escapeTick) := by
  rintro _ rfl
  exact read_template hescape hhole (by simp)

/-! ## Expressions -/

/-- The characters of expressions in paths. -/
def isHoleChar (c : Char) : Bool := Naming.isNameChar c || c == '.'

theorem passes_hole (h : ∀ c ∈ cs, isHoleChar c = true) : Passes InHole InHole cs := by
  refine .of_forall fun c hc => ?_
  rintro _ ⟨b, rfl⟩
  refine ⟨?_, rfl⟩
  change InHole (({ mode := .code b, depths := [0] } : Lexer).codeStep b c)
  unfold codeStep
  split
  · exact ⟨_, rfl⟩
  · split
    · exact ⟨_, rfl⟩
    · rename_i hword
      have hname : Naming.isNameChar c = false := by
        rw [isWordChar, Bool.or_eq_true, not_or] at hword
        simpa using hword.1
      obtain rfl : c = '.' := by simpa [isHoleChar, hname] using h c hc
      exact ⟨.other, rfl⟩

theorem passes_interpolation (h : ∀ c ∈ cs, isHoleChar c = true) :
    Passes InTemplate AtTemplate ('$' :: '\x7b' :: cs ++ ['\x7d']) := by
  have hopen : Passes InTemplate InHole ['$', '\x7b'] := by
    rintro _ ⟨dollar, rfl⟩
    cases dollar <;> exact ⟨⟨.other, rfl⟩, rfl⟩
  have hclose : Passes InHole AtTemplate ['\x7d'] := by
    rintro _ ⟨b, rfl⟩
    exact ⟨rfl, rfl⟩
  exact (hopen.append (passes_hole h)).append hclose

end Script.Lexer

namespace PathTemplate

open Script.Lexer

/-- A path that neither escapes anything nor starts an expression outside of its placeholders. -/
def IsPlain (t : PathTemplate) : Prop :=
  ∀ piece ∈ t.head :: t.holes.map (·.2), '\\' ∉ piece.toList ∧ ¬ holeStart <:+: piece.toList

theorem toList_escapedTicks (text : String) :
    (Text.replaceChar '\x60' "\\\x60" text).toList = text.toList.flatMap escapeTick := by
  rw [Text.replaceChar, String.toList_ofList]
  rfl

theorem toList_concat (texts : List String) :
    (Text.concat texts).toList = texts.flatMap String.toList := by
  induction texts with
  | nil => rfl
  | cons text rest ih => rw [Text.concat, List.foldr_cons, String.toList_append, List.flatMap_cons,
      ← ih, Text.concat]

theorem flatMap_escapeTick {cs : List Char} (h : '\x60' ∉ cs) : cs.flatMap escapeTick = cs := by
  induction cs with
  | nil => rfl
  | cons c cs ih =>
      rw [List.mem_cons, not_or] at h
      rw [List.flatMap_cons, ih h.2, escapeTick, if_neg (Ne.symm h.1), List.singleton_append]

theorem toList_interpolation (expression : String) :
    (interpolation expression).toList = '$' :: '\x7b' :: expression.toList ++ ['\x7d'] := by
  simp [interpolation]

/-- Placeholders and plain text stay inside the template. -/
theorem passes_holes {write : String → String} {holes : List (String × String)}
    (hwrite : ∀ token, ∀ c ∈ (write token).toList, isHoleChar c = true)
    (hholes : ∀ hole ∈ holes, '\\' ∉ hole.2.toList ∧ ¬ holeStart <:+: hole.2.toList) :
    Passes InTemplate InTemplate
      ((holes.flatMap fun hole => (interpolation (write hole.1) ++ hole.2).toList).flatMap
        escapeTick) := by
  induction holes with
  | nil => exact .nil fun _ => id
  | cons hole rest ih =>
      obtain ⟨hhole, hrest⟩ := List.forall_mem_cons.1 hholes
      rw [List.flatMap_cons, List.flatMap_append, String.toList_append, List.flatMap_append]
      refine Passes.append (Passes.append ?_ (passes_template hhole.1 hhole.2)) (ih hrest)
      rw [toList_interpolation, flatMap_escapeTick]
      · exact passes_interpolation (hwrite hole.1)
      · have htick : '\x60' ∉ (write hole.1).toList := fun h => absurd (hwrite _ _ h) (by decide)
        simpa using htick

theorem toList_render (write : String → String) (t : PathTemplate) :
    (t.render write).toList =
      t.head.toList ++ t.holes.flatMap fun hole => (write hole.1 ++ hole.2).toList := by
  rw [render, String.toList_append, toList_concat, List.flatMap_map]

/-- A plain path stays inside the template that it is written into. -/
theorem passes_pathText {path : String} (hpath : (parse path).IsPlain)
    {identifier : String → String}
    (hidentifier : ∀ token, ∀ c ∈ (identifier token).toList, Naming.isNameChar c = true) :
    Passes AtTemplate InTemplate
      (Text.replaceChar '\x60' "\\\x60" (literalWith identifier path)).toList := by
  have hwrite : ∀ token, ∀ c ∈ (if token = versionPlaceholder then versionExpression
      else identifier token).toList, isHoleChar c = true := by
    intro token c hc
    split at hc
    · have hversion : versionExpression.toList.all isHoleChar = true := by decide +kernel
      exact List.all_eq_true.1 hversion c hc
    · simp [isHoleChar, hidentifier token c hc]
  obtain ⟨hhead, hholes⟩ := List.forall_mem_cons.1 hpath
  rw [toList_escapedTicks, literalWith, toList_render, List.flatMap_append]
  have hrest := passes_holes hwrite fun hole hhole => hholes hole.2 (List.mem_map_of_mem hhole)
  exact (passes_template hhead.1 hhead.2).append hrest

end PathTemplate

end TypedClient
