import TypedClient.Proofs.Operation.Cut
import TypedClient.Proofs.Operation.Path
import TypedClient.Proofs.Script.Quoting
import TypedClient.Proofs.Script.StringValue

/-!
# The values of template literals

How a script reads a template between backticks: the text with its escape sequences, in which every
line end is a line feed, and expressions in braces behind a dollar sign. Of expressions, references
to variables and to their members are read. The value of the template follows from the values of
its expressions.

A text whose backticks are escaped, and nothing else, is read as it stands if it holds no backslash,
no carriage return and no start of an expression (`readTemplate_verbatim`). Where a template gives
its own text back once every expression stands for itself, it holds no backslash and no carriage
return (`not_mem_of_echo`), since whatever is read is no longer than what was written
(`length_readTemplate`).
-/

namespace TypedClient.Script

open Lexer (escapeTick holeStart isHoleChar)

/-! ## Reading templates -/

/-- A part of a template: a UTF-16 unit of its text, or an expression. -/
inductive TemplatePart where
  | unit (n : Nat)
  | expression (source : String)
deriving DecidableEq, Repr

/-- The units of a part, if expressions have the given values. -/
def TemplatePart.value (assign : String → List Nat) : TemplatePart → List Nat
  | unit n => [n]
  | expression source => assign source

/-- The value of a template, if expressions have the given values. -/
def templateValue (assign : String → List Nat) (parts : List TemplatePart) : List Nat :=
  parts.flatMap (·.value assign)

/-- A text as a part of a template. -/
def textParts (cs : List Char) : List TemplatePart := (textUnits cs).map .unit

/-- A variable, or a member of one. -/
def isReference (source : String) : Bool :=
  match Text.split (· == '.') source with
  | [] => false
  | name :: members =>
    isIdentifier name && !decide (name ∈ Naming.reservedWords) && members.all isIdentifier

/-- Where the reader of a template is. -/
inductive TemplateState where
  /-- In the text, or in an escape sequence of the text. -/
  | literal (q : StringState)
  /-- Behind a dollar sign, which is text unless a brace follows. -/
  | dollar
  /-- In an expression, behind these characters of it. -/
  | expression (source : List Char)
deriving DecidableEq, Repr

namespace TemplateState

/-- What a character of the text does. What ends a line is a line feed in the value. -/
def textStep (c : Char) : Option (List TemplatePart × TemplateState) :=
  if c = '\x60' then none
  else if c = '$' then some ([], dollar)
  else if c = '\\' then some ([], literal .escape)
  else if c = '\r' then some ([.unit 10], literal .continuation)
  else some (textParts [c], literal .text)

/-- What a character does in the text or in an escape sequence. Escape sequences are those of
strings. -/
def literalStep (q : StringState) (c : Char) : Option (List TemplatePart × TemplateState) :=
  match q with
  | .text => textStep c
  | .zero => if c.isDigit then none else textStep c
  | .continuation => if c = '\n' then some ([], literal .text) else textStep c
  | q => (q.step c).map fun (units, next) => (units.map .unit, literal next)

/-- The parts that are complete with a character, and the place behind it. -/
def step (q : TemplateState) (c : Char) : Option (List TemplatePart × TemplateState) :=
  match q with
  | literal q => literalStep q c
  | dollar =>
    if c = '\x7b' then some ([], expression [])
    else (textStep c).map fun (parts, next) => (textParts ['$'] ++ parts, next)
  | expression source =>
    if c = '\x7d' then
      if isReference (String.ofList source) then
        some ([.expression (String.ofList source)], literal .text)
      else none
    else if isHoleChar c then some ([], expression (source ++ [c]))
    else none

/-- The parts that are complete with the end of the template. -/
def finish? : TemplateState → Option (List TemplatePart)
  | literal q => if q.isText then some [] else none
  | dollar => some (textParts ['$'])
  | expression _ => none

end TemplateState

/-- The parts of what is left of a template, up to its end. -/
def readTemplate (q : TemplateState) : List Char → Option (List TemplatePart)
  | [] => q.finish?
  | c :: cs => (q.step c).bind fun (parts, next) => (readTemplate next cs).map (parts ++ ·)

/-- The parts of a template. -/
abbrev templateParts? (cs : List Char) : Option (List TemplatePart) :=
  readTemplate (.literal .text) cs

/-- Escapes and expressions in a template, and a backtick that ends it too early. -/
example : templateParts? "a\\n$$\x7bpet.id\x7d".toList =
      some (textParts "a\n$".toList ++ [.expression "pet.id"]) ∧
    templateParts? "a\x60b".toList = none := by
  decide

variable {q next : TemplateState} {c : Char} {cs ks : List Char} {parts : List TemplatePart}
  {assign : String → List Nat}

theorem templateValue_append (assign : String → List Nat) (parts others : List TemplatePart) :
    templateValue assign (parts ++ others) =
      templateValue assign parts ++ templateValue assign others :=
  List.flatMap_append

theorem templateValue_units (assign : String → List Nat) (units : List Nat) :
    templateValue assign (units.map .unit) = units := by
  rw [templateValue, List.flatMap_map]
  exact List.flatMap_singleton' units

theorem templateValue_textParts (assign : String → List Nat) (cs : List Char) :
    templateValue assign (textParts cs) = textUnits cs :=
  templateValue_units assign _

theorem textParts_append (cs ds : List Char) :
    textParts (cs ++ ds) = textParts cs ++ textParts ds := by
  rw [textParts, textUnits_append, List.map_append, textParts, textParts]

theorem readTemplate_step (h : q.step c = some (parts, next)) (cs : List Char) :
    readTemplate q (c :: cs) = (readTemplate next cs).map (parts ++ ·) := by
  simp [readTemplate, h]

/-- A template goes on behind a step. -/
theorem readTemplate_cons_eq_some (h : readTemplate q (c :: cs) = some parts) :
    ∃ first next others, q.step c = some (first, next) ∧ readTemplate next cs = some others ∧
      parts = first ++ others := by
  obtain ⟨⟨first, next⟩, hstep, hread⟩ := Option.bind_eq_some_iff.1 h
  obtain ⟨others, hothers, rfl⟩ := Option.map_eq_some_iff.1 hread
  exact ⟨first, next, others, hstep, hothers, rfl⟩

/-! ## Texts as they stand -/

/-- A text that a template takes as it stands, but for backticks. -/
def IsVerbatim (cs : List Char) : Prop := '\\' ∉ cs ∧ '\r' ∉ cs ∧ ¬ holeStart <:+: cs

instance (cs : List Char) : Decidable (IsVerbatim cs) := inferInstanceAs (Decidable (_ ∧ _))

/-- A dollar sign is text unless a brace follows. -/
theorem readTemplate_dollar (h : cs.head? ≠ some '\x7b') :
    readTemplate .dollar cs = (templateParts? cs).map (textParts ['$'] ++ ·) := by
  cases cs with
  | nil => rfl
  | cons c cs =>
      have hc : c ≠ '\x7b' := by simpa using h
      have hstep : TemplateState.dollar.step c =
          ((TemplateState.literal .text).step c).map fun (parts, next) =>
            (textParts ['$'] ++ parts, next) := if_neg hc
      rw [readTemplate, hstep, templateParts?, readTemplate]
      cases (TemplateState.literal .text).step c with
      | none => rfl
      | some result => simp [Function.comp_def]

/-- A character is read as it stands, behind a backslash if it is a backtick. -/
theorem templateParts?_escapeTick (hslash : c ≠ '\\') (hreturn : c ≠ '\r')
    (hbrace : c = '$' → cs.head? ≠ some '\x7b') :
    templateParts? (escapeTick c ++ cs) = (templateParts? cs).map (textParts [c] ++ ·) := by
  by_cases htick : c = '\x60'
  · have hopen : (TemplateState.literal .text).step '\\' = some ([], .literal .escape) := rfl
    have hread : (TemplateState.literal .escape).step '\x60' =
        some (textParts ['\x60'], .literal .text) := rfl
    rw [escapeTick, if_pos htick, htick]
    change templateParts? ('\\' :: '\x60' :: cs) = _
    rw [templateParts?, readTemplate_step hopen, readTemplate_step hread, Option.map_map]
    rfl
  · rw [escapeTick, if_neg htick, List.singleton_append, templateParts?]
    by_cases hdollar : c = '$'
    · have hopen : (TemplateState.literal .text).step '$' = some ([], .dollar) := rfl
      rw [hdollar, readTemplate_step hopen, readTemplate_dollar (hbrace hdollar), Option.map_map]
      rfl
    · have hread : (TemplateState.literal .text).step c =
          some (textParts [c], .literal .text) := by
        simp [TemplateState.step, TemplateState.literalStep, TemplateState.textStep, htick, hdollar,
          hslash, hreturn]
      rw [readTemplate_step hread]

/-- What starts with a character starts with it or its backslash once backticks are escaped. -/
theorem head?_flatMap_escapeTick (h : ks.head? ≠ some '\x7b') (hrest : cs.head? ≠ some '\x7b') :
    (ks.flatMap escapeTick ++ cs).head? ≠ some '\x7b' := by
  cases ks with
  | nil => exact hrest
  | cons c ks =>
      have hc : c ≠ '\x7b' := by simpa using h
      rw [List.flatMap_cons, escapeTick]
      split <;> simp [hc]

theorem head?_ne_of_not_hole (h : ¬ holeStart <+: c :: ks) (hc : c = '$') :
    ks.head? ≠ some '\x7b' := by
  intro hhead
  obtain ⟨after, rfl⟩ := List.head?_eq_some_iff.1 hhead
  exact h (hc ▸ List.prefix_append holeStart after)

/-- A text is read as it stands if nothing in it but backticks has a meaning of its own. -/
theorem readTemplate_verbatim (h : IsVerbatim ks) (hrest : cs.head? ≠ some '\x7b') :
    templateParts? (ks.flatMap escapeTick ++ cs) =
      (templateParts? cs).map (textParts ks ++ ·) := by
  induction ks with
  | nil => simp [textParts, textUnits]
  | cons c ks ih =>
      obtain ⟨hslash, hreturn, hhole⟩ := h
      rw [List.mem_cons, not_or] at hslash hreturn
      rw [List.infix_cons_iff, not_or] at hhole
      have hbrace (hc : c = '$') : (ks.flatMap escapeTick ++ cs).head? ≠ some '\x7b' :=
        head?_flatMap_escapeTick (head?_ne_of_not_hole hhole.1 hc) hrest
      rw [List.flatMap_cons, List.append_assoc,
        templateParts?_escapeTick (Ne.symm hslash.1) (Ne.symm hreturn.1) hbrace,
        ih ⟨hslash.2, hreturn.2, hhole.2⟩, Option.map_map]
      refine congrArg (Option.map · _) (funext fun parts => ?_)
      rw [Function.comp_apply, ← List.append_assoc, ← textParts_append, List.singleton_append]

/-! ## Expressions -/

theorem readTemplate_expression {front : List Char}
    (href : isReference (String.ofList (front ++ ks)) = true)
    (hchars : ∀ c ∈ ks, isHoleChar c = true) (cs : List Char) :
    readTemplate (.expression front) (ks ++ '\x7d' :: cs) =
      (templateParts? cs).map (.expression (String.ofList (front ++ ks)) :: ·) := by
  induction ks generalizing front with
  | nil =>
      rw [List.append_nil] at href ⊢
      have hclose : (TemplateState.expression front).step '\x7d' =
          some ([.expression (String.ofList front)], .literal .text) := by
        simp [TemplateState.step, href]
      rw [List.nil_append, readTemplate_step hclose]
      rfl
  | cons c ks ih =>
      rw [List.forall_mem_cons] at hchars
      have hc : c ≠ '\x7d' := by
        rintro rfl
        exact absurd hchars.1 (by decide)
      have hstep : (TemplateState.expression front).step c =
          some ([], .expression (front ++ [c])) := by
        simp [TemplateState.step, hc, hchars.1]
      have hfront : front ++ c :: ks = (front ++ [c]) ++ ks := by simp
      rw [hfront] at href ⊢
      rw [List.cons_append, readTemplate_step hstep, ih href hchars.2]
      exact Option.map_id_apply

/-- A brace behind a dollar sign starts an expression. -/
theorem templateParts?_open (cs : List Char) :
    templateParts? ('$' :: '\x7b' :: cs) = readTemplate (.expression []) cs := by
  have hdollar : (TemplateState.literal .text).step '$' = some ([], .dollar) := rfl
  have hbrace : TemplateState.dollar.step '\x7b' = some ([], .expression []) := rfl
  rw [templateParts?, readTemplate_step hdollar, readTemplate_step hbrace]
  cases readTemplate (.expression []) cs <;> rfl

/-- An interpolation is read as its expression. -/
theorem readTemplate_interpolation {source : String} (href : isReference source = true)
    (hchars : ∀ c ∈ source.toList, isHoleChar c = true) (cs : List Char) :
    templateParts? ((PathTemplate.interpolation source).toList ++ cs) =
      (templateParts? cs).map (.expression source :: ·) := by
  have hsource : isReference (String.ofList ([] ++ source.toList)) = true := by simpa using href
  have hread := readTemplate_expression hsource hchars cs
  rw [List.nil_append, String.ofList_toList] at hread
  have htext : (PathTemplate.interpolation source).toList ++ cs =
      '$' :: '\x7b' :: (source.toList ++ '\x7d' :: cs) := by
    simp [PathTemplate.toList_interpolation]
  rw [htext, templateParts?_open, hread]

/-- An expression that is not closed has no end. -/
theorem readTemplate_unclosed {source : List Char} (h : '\x7d' ∉ cs) :
    readTemplate (.expression source) cs = none := by
  induction cs generalizing source with
  | nil => rfl
  | cons c cs ih =>
      rw [List.mem_cons, not_or] at h
      by_cases hc : isHoleChar c = true
      · simp [readTemplate, TemplateState.step, Ne.symm h.1, hc, ih h.2]
      · simp [readTemplate, TemplateState.step, Ne.symm h.1, hc]

/-- Escaping backticks adds no brace. -/
theorem not_mem_flatMap_escapeTick (hc : c ∉ ['\\', '\x60']) (h : c ∉ ks) :
    c ∉ ks.flatMap escapeTick := by
  intro hmem
  obtain ⟨d, hd, hcd⟩ := List.mem_flatMap.1 hmem
  rw [escapeTick] at hcd
  split at hcd
  · exact hc hcd
  · exact h (List.mem_singleton.1 hcd ▸ hd)

/-- In a template a text starts no expression that it does not close. -/
theorem not_isInfix_holeStart (h : templateParts? (ks.flatMap escapeTick) = some parts)
    (hslash : '\\' ∉ ks) (hreturn : '\r' ∉ ks) (hopens : ¬ PathTemplate.Opens ks) :
    ¬ holeStart <:+: ks := by
  induction ks generalizing parts with
  | nil => simp [holeStart]
  | cons c ks ih =>
      rw [List.mem_cons, not_or] at hslash hreturn
      have hstart : ¬ holeStart <+: c :: ks := by
        rintro ⟨after, heq⟩
        rw [← heq] at h hopens
        have hclosed : '\x7d' ∉ after := fun hmem => hopens ⟨['$'], after, rfl, hmem⟩
        change templateParts? ('$' :: '\x7b' :: after.flatMap escapeTick) = _ at h
        rw [templateParts?_open,
          readTemplate_unclosed (not_mem_flatMap_escapeTick (by decide) hclosed)] at h
        cases h
      have hbrace (hc : c = '$') : (ks.flatMap escapeTick).head? ≠ some '\x7b' := by
        have hhead : (ks.flatMap escapeTick ++ []).head? ≠ some '\x7b' :=
          head?_flatMap_escapeTick (head?_ne_of_not_hole hstart hc) (by simp)
        simpa using hhead
      rw [List.flatMap_cons,
        templateParts?_escapeTick (Ne.symm hslash.1) (Ne.symm hreturn.1) hbrace] at h
      obtain ⟨others, hothers, -⟩ := Option.map_eq_some_iff.1 h
      have hrest : ¬ PathTemplate.Opens ks := by
        rintro ⟨before, after, rfl, hclosed⟩
        exact hopens ⟨c :: before, after, rfl, hclosed⟩
      rw [List.infix_cons_iff, not_or]
      exact ⟨hstart, ih hothers hslash.2 hreturn.2 hrest⟩

/-! ## Templates that give their text back -/

/-- What an interpolation looks like, as its value. -/
def echo (source : String) : List Nat := textUnits (PathTemplate.interpolation source).toList

namespace TemplateState

/-- The units that have been read, but are in no part yet. -/
def pending : TemplateState → List Nat
  | literal _ => []
  | dollar => textUnits ['$']
  | expression source => textUnits ('$' :: '\x7b' :: source)

/-- By how much the rest of the value can be longer than what is left to read. -/
def slack : TemplateState → Nat
  | literal q => q.slack
  | dollar => 1
  | expression source => (textUnits source).length + 2

/-- In no escape sequence. -/
def IsOpen : TemplateState → Prop
  | literal q => q = .text
  | _ => True

theorem length_textStep (h : textStep c = some (parts, next)) :
    (templateValue echo parts).length + next.slack ≤ (codeUnits c.toNat).length := by
  have hpos := (length_codeUnits c.toNat).1
  unfold textStep at h
  split_ifs at h with _ hdollar
  · obtain ⟨rfl, rfl⟩ := Prod.mk.inj (Option.some.inj h)
    rw [hdollar]
    decide
  · obtain ⟨rfl, rfl⟩ := Prod.mk.inj (Option.some.inj h)
    exact Nat.zero_le _
  · obtain ⟨rfl, rfl⟩ := Prod.mk.inj (Option.some.inj h)
    exact hpos
  · obtain ⟨rfl, rfl⟩ := Prod.mk.inj (Option.some.inj h)
    rw [templateValue_textParts]
    simp [textUnits, slack, StringState.slack]

/-- In the text a character is text, and an escape sequence goes on as in a string. -/
theorem literalStep_cases {s : StringState} (h : literalStep s c = some (parts, next)) :
    textStep c = some (parts, next) ∨
      ∃ units t, s.step c = some (units, t) ∧ parts = units.map .unit ∧ next = literal t := by
  have hstring (h : ((s.step c).map fun (units, next) => (units.map .unit, literal next)) =
      some (parts, next)) :
      ∃ units t, s.step c = some (units, t) ∧ parts = units.map .unit ∧ next = literal t := by
    obtain ⟨⟨units, t⟩, hstep, heq⟩ := Option.map_eq_some_iff.1 h
    obtain ⟨rfl, rfl⟩ := Prod.mk.inj heq
    exact ⟨units, t, hstep, rfl, rfl⟩
  cases s with
  | text => exact .inl h
  | zero => exact .inl (Option.ite_none_left_eq_some.1 h).2
  | continuation =>
      simp only [literalStep] at h
      split at h
      · rename_i hc
        obtain ⟨rfl, rfl⟩ := Prod.mk.inj (Option.some.inj h)
        exact .inr ⟨[], .text, if_pos hc, rfl, rfl⟩
      · exact .inl h
  | escape => exact .inr (hstring h)
  | digits left value => exact .inr (hstring h)
  | unicode => exact .inr (hstring h)
  | braces value => exact .inr (hstring h)

/-- A step completes no more units than its character has. -/
theorem length_step (h : q.step c = some (parts, next)) :
    (templateValue echo parts).length + next.slack ≤ (codeUnits c.toNat).length + q.slack := by
  have hpos := (length_codeUnits c.toNat).1
  cases q with
  | literal s =>
      rcases literalStep_cases h with htext | ⟨units, t, hstep, rfl, rfl⟩
      · exact Nat.le_add_right_of_le (length_textStep htext)
      · rw [templateValue_units]
        exact StringState.length_step hstep
  | dollar =>
      simp only [step] at h
      split at h
      · obtain ⟨rfl, rfl⟩ := Prod.mk.inj (Option.some.inj h)
        exact Nat.succ_le_succ hpos
      · obtain ⟨⟨others, t⟩, htext, heq⟩ := Option.map_eq_some_iff.1 h
        obtain ⟨rfl, rfl⟩ := Prod.mk.inj heq
        have hlength := length_textStep htext
        have hdollar : (textUnits ['$']).length = 1 := rfl
        rw [templateValue_append, templateValue_textParts, List.length_append, hdollar, slack]
        dsimp only
        omega
  | expression source =>
      have hclose : (textUnits ['\x7d']).length = 1 := rfl
      simp only [step] at h
      split_ifs at h
      · obtain ⟨rfl, rfl⟩ := Prod.mk.inj (Option.some.inj h)
        have hvalue : templateValue echo [.expression (String.ofList source)] =
            textUnits ['$', '\x7b'] ++ (textUnits source ++ textUnits ['\x7d']) := by
          simp [templateValue, TemplatePart.value, echo, PathTemplate.toList_interpolation,
            ← textUnits_append]
        have hopen : (textUnits ['$', '\x7b']).length = 2 := rfl
        have htext : (literal .text).slack = 0 := rfl
        rw [hvalue, List.length_append, List.length_append, hclose, hopen, htext, slack]
        omega
      · obtain ⟨rfl, rfl⟩ := Prod.mk.inj (Option.some.inj h)
        have hunits : textUnits [c] = codeUnits c.toNat := List.append_nil _
        rw [slack, slack, textUnits_append, List.length_append, hunits]
        change 0 + _ ≤ _
        omega

/-- What is pending is part of the value yet to come. -/
theorem length_pending_le (q : TemplateState) : q.pending.length ≤ q.slack := by
  cases q with
  | literal s => exact Nat.zero_le _
  | dollar => exact Nat.le_refl _
  | expression source => exact Nat.le_refl _

/-- A backslash starts an escape sequence, unless it ends one. -/
theorem step_backslash (h : q.step '\\' = some (parts, next)) :
    next = literal .escape ∧ templateValue echo parts = q.pending ∨
      q = literal .escape ∧ next = literal .text := by
  have hnone : Text.digitIn? 16 '\\' = none := by decide
  cases q with
  | literal s =>
      rcases literalStep_cases h with htext | ⟨units, t, hstep, rfl, rfl⟩
      · obtain ⟨rfl, rfl⟩ := Prod.mk.inj (Option.some.inj htext)
        exact .inl ⟨rfl, rfl⟩
      · rw [templateValue_units]
        cases s with
        | escape =>
            obtain ⟨rfl, rfl⟩ := Prod.mk.inj (Option.some.inj hstep)
            exact .inr ⟨rfl, rfl⟩
        | digits left value => simp [StringState.step, hnone] at hstep
        | unicode => simp [StringState.step, hnone] at hstep
        | braces value => simp [StringState.step, hnone] at hstep
        | text | zero | continuation =>
            obtain ⟨rfl, rfl⟩ := Prod.mk.inj (Option.some.inj hstep)
            exact .inl ⟨rfl, rfl⟩
  | dollar =>
      obtain ⟨rfl, rfl⟩ := Prod.mk.inj (Option.some.inj h)
      exact .inl ⟨rfl, rfl⟩
  | expression source => cases h

/-- A carriage return is read as a line feed. -/
theorem step_return (hq : q.IsOpen) (h : q.step '\r' = some (parts, next)) :
    templateValue echo parts = q.pending ++ [10] := by
  cases q with
  | literal s =>
      obtain rfl : s = .text := hq
      obtain ⟨rfl, rfl⟩ := Prod.mk.inj (Option.some.inj h)
      rfl
  | dollar =>
      obtain ⟨rfl, rfl⟩ := Prod.mk.inj (Option.some.inj h)
      rfl
  | expression source => cases h

/-- Where no escape sequence is open, the units of a character are read or pending. -/
theorem step_open (hq : q.IsOpen) (hc : c ∉ ['\x60', '\\', '\r'])
    (h : q.step c = some (parts, next)) :
    next.IsOpen ∧ templateValue echo parts ++ next.pending = q.pending ++ codeUnits c.toNat := by
  simp only [List.mem_cons, List.not_mem_nil, or_false, not_or] at hc
  have hunits : textUnits [c] = codeUnits c.toNat := List.append_nil _
  have htext : ∀ {parts next}, textStep c = some (parts, next) →
      next.IsOpen ∧ templateValue echo parts ++ next.pending = codeUnits c.toNat := by
    intro parts next h
    rw [textStep, if_neg hc.1] at h
    split_ifs at h with hdollar
    · obtain ⟨rfl, rfl⟩ := Prod.mk.inj (Option.some.inj h)
      exact ⟨trivial, hdollar ▸ rfl⟩
    · exact absurd ‹c = '\\'› hc.2.1
    · exact absurd ‹c = '\r'› hc.2.2
    · obtain ⟨rfl, rfl⟩ := Prod.mk.inj (Option.some.inj h)
      rw [templateValue_textParts, hunits]
      exact ⟨rfl, List.append_nil _⟩
  cases q with
  | literal s =>
      obtain rfl : s = .text := hq
      exact htext h
  | dollar =>
      simp only [step] at h
      split at h
      · rename_i hbrace
        obtain ⟨rfl, rfl⟩ := Prod.mk.inj (Option.some.inj h)
        exact ⟨trivial, hbrace ▸ rfl⟩
      · obtain ⟨⟨others, t⟩, hstep, heq⟩ := Option.map_eq_some_iff.1 h
        obtain ⟨rfl, rfl⟩ := Prod.mk.inj heq
        obtain ⟨hopen, hvalue⟩ := htext hstep
        refine ⟨hopen, ?_⟩
        rw [templateValue_append, templateValue_textParts, List.append_assoc, hvalue, pending]
  | expression source =>
      simp only [step] at h
      split_ifs at h with hclose
      · obtain ⟨rfl, rfl⟩ := Prod.mk.inj (Option.some.inj h)
        refine ⟨rfl, ?_⟩
        rw [pending, pending, ← hunits, ← textUnits_append, List.append_nil, hclose]
        simp [templateValue, TemplatePart.value, echo, PathTemplate.toList_interpolation]
      · obtain ⟨rfl, rfl⟩ := Prod.mk.inj (Option.some.inj h)
        refine ⟨trivial, ?_⟩
        rw [pending, pending, ← hunits, ← textUnits_append]
        rfl

end TemplateState

open TemplateState

/-- A backtick can be escaped in the text only, and it is read as itself there. -/
theorem exists_of_readTemplate_tick (h : readTemplate q ('\\' :: '\x60' :: cs) = some parts) :
    ∃ first others, readTemplate (.literal .text) cs = some others ∧
      templateValue echo first = q.pending ∧
      parts = first ++ (textParts ['\x60'] ++ others) := by
  obtain ⟨first, behind, rest, hslash, hrest, rfl⟩ := readTemplate_cons_eq_some h
  obtain ⟨second, last, others, htick, hothers, rfl⟩ := readTemplate_cons_eq_some hrest
  rcases step_backslash hslash with ⟨rfl, hfirst⟩ | ⟨-, rfl⟩
  · obtain ⟨rfl, rfl⟩ := Prod.mk.inj (Option.some.inj htick)
    exact ⟨first, others, hothers, hfirst, rfl⟩
  · -- Behind an escaped backslash the backtick is the end of the template.
    cases htick

/-- The value of a template whose expressions are echoed is no longer than the text of it. -/
theorem length_readTemplate (h : readTemplate q (ks.flatMap escapeTick) = some parts) :
    (templateValue echo parts).length ≤ (textUnits ks).length + q.slack := by
  induction ks generalizing q parts with
  | nil =>
      cases q with
      | literal s =>
          simp only [List.flatMap_nil, readTemplate, finish?] at h
          split at h
          · obtain rfl := Option.some.inj h
            exact Nat.zero_le _
          · cases h
      | dollar =>
          obtain rfl := Option.some.inj h
          exact Nat.le_refl _
      | expression source => cases h
  | cons c ks ih =>
      rw [List.flatMap_cons] at h
      rw [textUnits_cons, List.length_append]
      by_cases htick : c = '\x60'
      · rw [htick] at h ⊢
        obtain ⟨first, others, hothers, hfirst, rfl⟩ := exists_of_readTemplate_tick h
        have hrest : (templateValue echo others).length ≤ (textUnits ks).length := ih hothers
        have hpending := q.length_pending_le
        have hunit : (textUnits ['\x60']).length = 1 := rfl
        have hcode : (codeUnits ('\x60').toNat).length = 1 := rfl
        rw [templateValue_append, templateValue_append, templateValue_textParts, hfirst,
          List.length_append, List.length_append, hunit, hcode]
        omega
      · rw [escapeTick, if_neg htick, List.singleton_append] at h
        obtain ⟨first, behind, others, hstep, hothers, rfl⟩ := readTemplate_cons_eq_some h
        have hfirst := length_step hstep
        have hrest := ih hothers
        rw [templateValue_append, List.length_append]
        omega

/-- A template that says what is written in it has no escape sequences but those for backticks, and
no carriage returns. -/
theorem not_mem_of_echo (hq : q.IsOpen) (h : readTemplate q (ks.flatMap escapeTick) = some parts)
    (hvalue : templateValue echo parts = q.pending ++ textUnits ks) : '\\' ∉ ks ∧ '\r' ∉ ks := by
  induction ks generalizing q parts with
  | nil => simp
  | cons c ks ih =>
      rw [List.flatMap_cons] at h
      rw [textUnits_cons] at hvalue
      by_cases htick : c = '\x60'
      · rw [htick] at h hvalue ⊢
        obtain ⟨first, others, hothers, hfirst, rfl⟩ := exists_of_readTemplate_tick h
        rw [templateValue_append, templateValue_append, templateValue_textParts, hfirst,
          List.append_cancel_left_eq] at hvalue
        have hrest := ih (q := .literal .text) rfl hothers (List.append_cancel_left hvalue)
        simpa using hrest
      rw [escapeTick, if_neg htick, List.singleton_append] at h
      obtain ⟨first, behind, others, hstep, hothers, rfl⟩ := readTemplate_cons_eq_some h
      rw [templateValue_append] at hvalue
      by_cases hslash : c = '\\'
      · -- What is left is one unit too short for the value.
        rw [hslash] at hstep hvalue
        rcases step_backslash hstep with ⟨rfl, hfirst⟩ | ⟨rfl, -⟩
        · rw [hfirst, List.append_cancel_left_eq] at hvalue
          have hlength := length_readTemplate hothers
          rw [hvalue, List.length_append] at hlength
          exact absurd hlength (Nat.not_le.2 (Nat.lt_add_of_pos_left Nat.one_pos))
        · cases hq
      by_cases hreturn : c = '\r'
      · rw [hreturn] at hstep hvalue
        rw [step_return hq hstep, List.append_assoc, List.append_cancel_left_eq] at hvalue
        exact absurd (List.cons.inj hvalue).1 (by decide)
      · have hc : c ∉ ['\x60', '\\', '\r'] := by simp [htick, hslash, hreturn]
        obtain ⟨hopen, hunits⟩ := step_open hq hc hstep
        rw [← List.append_assoc, ← hunits, List.append_assoc, List.append_cancel_left_eq] at hvalue
        obtain ⟨hslashes, hreturns⟩ := ih hopen hothers hvalue
        exact ⟨List.not_mem_cons_of_ne_of_not_mem (Ne.symm hslash) hslashes,
          List.not_mem_cons_of_ne_of_not_mem (Ne.symm hreturn) hreturns⟩

end TypedClient.Script
