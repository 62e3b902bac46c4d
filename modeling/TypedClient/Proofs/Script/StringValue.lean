import TypedClient.Proofs.Script.Specifiers
import TypedClient.Proofs.Script.TypeReader
import TypedClient.Text.Digit

/-!
# The values of string literals

How a script reads a string between single quotes: character by character, with all escape sequences
of a module, up to the closing quote. The value is made of UTF-16 units.

An escaped text has the text as its value (`readString_escape`). A text that is written as it stands
has itself as its value exactly if there is nothing to escape in it (`readString_raw_iff`). The
reason is that whatever is read is no longer than what was written, and shorter behind a backslash
(`readString_length_lt`).
-/

namespace TypedClient.Script

/-- The UTF-16 units of a code point. -/
def codeUnits (n : Nat) : List Nat :=
  if n < 0x10000 then [n] else [0xD800 + (n - 0x10000) / 0x400, 0xDC00 + (n - 0x10000) % 0x400]

/-- The UTF-16 units of a text. -/
def textUnits (cs : List Char) : List Nat := cs.flatMap fun c => codeUnits c.toNat

/-- Where the reader of a string is. -/
inductive StringState where
  | text
  /-- Behind a backslash. -/
  | escape
  /-- Behind an escaped zero. -/
  | zero
  /-- Behind an escaped carriage return. -/
  | continuation
  /-- In an escape sequence with this many more digits, behind digits of this value. -/
  | digits (left value : Nat)
  /-- Behind the letter of an escape sequence for a code point. -/
  | unicode
  /-- Between the braces of an escape sequence, behind digits of this value. -/
  | braces (value : Option Nat)
deriving DecidableEq, Repr

namespace StringState

/-- Whether a quote ends the string here. -/
def isText : StringState → Bool
  | text | zero | continuation => true
  | _ => false

/-- The letters of escape sequences for control characters. -/
def controlEscapes : List (Char × Nat) :=
  [('b', 8), ('t', 9), ('n', 10), ('v', 11), ('f', 12), ('r', 13)]

/-- The units of a character of the text, and the place behind it. -/
def textStep (c : Char) : Option (List Nat × StringState) :=
  if c = '\\' then some ([], escape)
  else if c = '\n' ∨ c = '\r' then none
  else some (codeUnits c.toNat, text)

/-- What a character behind a backslash does. A module has no octal escape sequences. -/
def escapeStep (c : Char) : Option (List Nat × StringState) :=
  if c = 'x' then some ([], digits 2 0)
  else if c = 'u' then some ([], unicode)
  else if c = '0' then some ([0], zero)
  else if c.isDigit then none
  else if c = '\r' then some ([], continuation)
  else if isLineEnd c then some ([], text)
  else some (codeUnits ((controlEscapes.lookup c).getD c.toNat), text)

/-- One more digit in an escape sequence. -/
def digitStep (left value digit : Nat) : List Nat × StringState :=
  if left ≤ 1 then ([16 * value + digit], text) else ([], digits (left - 1) (16 * value + digit))

/-- The units that are complete with a character, and the place behind it. -/
def step (q : StringState) (c : Char) : Option (List Nat × StringState) :=
  match q with
  | text => textStep c
  | escape => escapeStep c
  | zero => if c.isDigit then none else textStep c
  | continuation => if c = '\n' then some ([], text) else textStep c
  | digits left value => (Text.digitIn? 16 c).map (digitStep left value)
  | unicode =>
    if c = '\x7b' then some ([], braces none) else (Text.digitIn? 16 c).map (digitStep 4 0)
  | braces value =>
    if c = '\x7d' then value.map fun n => (codeUnits n, text)
    else (Text.digitIn? 16 c).bind fun digit =>
      let n := 16 * value.getD 0 + digit
      if n < 0x110000 then some ([], braces (some n)) else none

end StringState

/-- The value of a string up to the closing quote, and what follows. -/
def readString (q : StringState) : List Char → Option (List Nat × List Char)
  | [] => none
  | c :: cs =>
    if q.isText && c == '\'' then some ([], cs)
    else (q.step c).bind fun (units, next) =>
      (readString next cs).map fun (value, rest) => (units ++ value, rest)

/-- Escape sequences for code points and for parts of characters beyond those of one unit. -/
example : readString .text "\\x41\\u\x7b1f600\x7d\\ud83d' + a".toList =
    some ([0x41, 0xD83D, 0xDE00, 0xD83D], " + a".toList) := by decide

variable {q next : StringState} {c : Char} {cs rest : List Char} {units value : List Nat}

theorem readString_close (h : q.isText = true) (rest : List Char) :
    readString q ('\'' :: rest) = some ([], rest) := by
  rw [readString, h]
  rfl

theorem readString_step (hquote : q.isText = false ∨ c ≠ '\'') (h : q.step c = some (units, next))
    (cs : List Char) :
    readString q (c :: cs) =
      (readString next cs).map fun (value, rest) => (units ++ value, rest) := by
  have hopen : (q.isText && c == '\'') = false := by
    rw [Bool.and_eq_false_iff, beq_eq_false_iff_ne]
    exact hquote
  simp [readString, hopen, h]

/-- A string ends with a character, or it goes on behind a step. -/
theorem readString_cons_cases (h : readString q (c :: cs) = some (value, rest)) :
    q.isText = true ∧ c = '\'' ∧ value = [] ∧ rest = cs ∨
      (q.isText = false ∨ c ≠ '\'') ∧ ∃ units next others, q.step c = some (units, next) ∧
        readString next cs = some (others, rest) ∧ value = units ++ others := by
  rw [readString] at h
  split at h
  · rename_i hclose
    rw [Bool.and_eq_true, beq_iff_eq] at hclose
    obtain ⟨rfl, rfl⟩ := Prod.mk.inj (Option.some.inj h)
    exact .inl ⟨hclose.1, hclose.2, rfl, rfl⟩
  · rename_i hopen
    rw [Bool.not_eq_true, Bool.and_eq_false_iff, beq_eq_false_iff_ne] at hopen
    obtain ⟨⟨units, next⟩, hstep, hread⟩ := Option.bind_eq_some_iff.1 h
    obtain ⟨⟨others, after⟩, hothers, heq⟩ := Option.map_eq_some_iff.1 hread
    obtain ⟨rfl, rfl⟩ := Prod.mk.inj heq
    exact .inr ⟨hopen, units, next, others, hstep, hothers, rfl⟩

/-! ## Escaped texts -/

/-- A character without a meaning of its own stands for itself. -/
theorem StringState.step_text_of_not_mem (h : c ∉ ['\\', '\n', '\r']) :
    text.step c = some (codeUnits c.toNat, text) := by
  simp only [List.mem_cons, List.not_mem_nil, or_false, not_or] at h
  rw [step, textStep, if_neg h.1, if_neg (not_or.2 h.2)]

/-- The escape sequences for quotes, backslashes and line ends are read as such. -/
theorem StringState.step_escape_of_unescape {d : Char} (h : unescape c = some d) :
    escape.step c = some (codeUnits d.toNat, text) := by
  unfold unescape at h
  split at h
  · obtain rfl := Option.some.inj h
    decide
  · obtain rfl := Option.some.inj h
    decide
  · obtain rfl := Option.some.inj h
    decide
  · obtain rfl := Option.some.inj h
    decide
  · cases h

/-- What is read with these escape sequences alone is the value. -/
theorem readString_of_readQuoted {text : List Char} (h : readQuoted cs = some (text, rest)) :
    readString .text cs = some (textUnits text, rest) := by
  fun_induction readQuoted cs generalizing text with
  | case1 => cases h
  | case2 => cases h
  | case3 => cases h
  | case4 after =>
      obtain ⟨rfl, rfl⟩ := Prod.mk.inj (Option.some.inj h)
      exact readString_close rfl _
  | case5 c cs ih =>
      obtain ⟨d, hd, hread⟩ := Option.bind_eq_some_iff.1 h
      obtain ⟨⟨text, rest⟩, hrest, heq⟩ := Option.map_eq_some_iff.1 hread
      obtain ⟨rfl, rfl⟩ := Prod.mk.inj heq
      have hslash : StringState.text.step '\\' = some ([], .escape) := rfl
      rw [readString_step (.inr (by decide)) hslash,
        readString_step (.inl rfl) (StringState.step_escape_of_unescape hd), ih hrest]
      rfl
  | case6 c cs hfeed hreturn hquote hescape ih =>
      obtain ⟨⟨text, rest⟩, hrest, heq⟩ := Option.map_eq_some_iff.1 h
      obtain ⟨rfl, rfl⟩ := Prod.mk.inj heq
      -- A backslash at the end of a text starts no escape sequence, and the text has no end then.
      have hslash : c ≠ '\\' := by
        rintro rfl
        cases cs with
        | nil => cases hrest
        | cons d cs => exact hescape d cs rfl rfl
      have hplain : c ∉ ['\\', '\n', '\r'] := by
        simp only [List.mem_cons, List.not_mem_nil, or_false, not_or]
        exact ⟨hslash, hfeed, hreturn⟩
      rw [readString_step (.inr hquote) (StringState.step_text_of_not_mem hplain), ih hrest]
      rfl

/-- An escaped text is read back, up to the closing quote. -/
theorem readString_escape (text : String) (rest : List Char) :
    readString .text ((escape text).toList ++ '\'' :: rest) =
      some (textUnits text.toList, rest) := by
  rw [escape, String.toList_ofList]
  exact readString_of_readQuoted (readQuoted_escape text.toList rest)

/-! ## The length of a value -/

theorem length_codeUnits (n : Nat) : 0 < (codeUnits n).length ∧ (codeUnits n).length ≤ 2 := by
  unfold codeUnits
  split <;> simp

theorem textUnits_cons (c : Char) (cs : List Char) :
    textUnits (c :: cs) = codeUnits c.toNat ++ textUnits cs := rfl

theorem textUnits_append (xs ys : List Char) :
    textUnits (xs ++ ys) = textUnits xs ++ textUnits ys :=
  List.flatMap_append

namespace StringState

/-- By how much the value of an escape sequence can be longer than what is left of it. -/
def slack : StringState → Nat
  | braces _ => 1
  | _ => 0

/-- A character of the text is a unit or two, or it starts an escape sequence. -/
theorem textStep_cases (h : textStep c = some (units, next)) :
    c = '\\' ∧ units = [] ∧ next = escape ∨
      c ∉ ['\\', '\n', '\r'] ∧ units = codeUnits c.toNat ∧ next = text := by
  unfold textStep at h
  split_ifs at h with hslash hend
  · obtain ⟨rfl, rfl⟩ := Prod.mk.inj (Option.some.inj h)
    exact .inl ⟨hslash, rfl, rfl⟩
  · obtain ⟨rfl, rfl⟩ := Prod.mk.inj (Option.some.inj h)
    exact .inr ⟨by simpa [hslash] using hend, rfl, rfl⟩

theorem length_textStep (h : textStep c = some (units, next)) :
    units.length + next.slack ≤ (codeUnits c.toNat).length := by
  rcases textStep_cases h with ⟨-, rfl, rfl⟩ | ⟨-, rfl, rfl⟩
  · exact Nat.zero_le _
  · exact Nat.le_refl _

/-- The letter of a control character stands for one unit. -/
theorem length_control (c : Char) :
    (codeUnits ((controlEscapes.lookup c).getD c.toNat)).length ≤ (codeUnits c.toNat).length := by
  have hcontrol : ∀ entry ∈ controlEscapes, (codeUnits entry.2).length = 1 := by decide
  cases hlookup : controlEscapes.lookup c with
  | none => exact Nat.le_refl _
  | some n =>
      obtain ⟨front, back, hsplit, -⟩ := List.lookup_eq_some_iff.1 hlookup
      have hmem : (c, n) ∈ controlEscapes := by simp [hsplit]
      rw [Option.getD_some, hcontrol _ hmem]
      exact (length_codeUnits _).1

theorem length_escapeStep (h : escapeStep c = some (units, next)) :
    units.length + next.slack ≤ (codeUnits c.toNat).length := by
  have hpos := (length_codeUnits c.toNat).1
  unfold escapeStep at h
  split_ifs at h
  · obtain ⟨rfl, rfl⟩ := Prod.mk.inj (Option.some.inj h)
    exact Nat.zero_le _
  · obtain ⟨rfl, rfl⟩ := Prod.mk.inj (Option.some.inj h)
    exact Nat.zero_le _
  · obtain ⟨rfl, rfl⟩ := Prod.mk.inj (Option.some.inj h)
    exact hpos
  · obtain ⟨rfl, rfl⟩ := Prod.mk.inj (Option.some.inj h)
    exact Nat.zero_le _
  · obtain ⟨rfl, rfl⟩ := Prod.mk.inj (Option.some.inj h)
    exact Nat.zero_le _
  · obtain ⟨rfl, rfl⟩ := Prod.mk.inj (Option.some.inj h)
    exact length_control c

theorem length_digitStep (left value digit : Nat) :
    (digitStep left value digit).1.length + (digitStep left value digit).2.slack ≤ 1 := by
  unfold digitStep
  split <;> simp [slack]

/-- A step completes no more units than its character has. -/
theorem length_step (h : q.step c = some (units, next)) :
    units.length + next.slack ≤ (codeUnits c.toNat).length + q.slack := by
  have hpos := (length_codeUnits c.toNat).1
  cases q with
  | text => exact length_textStep h
  | escape => exact length_escapeStep h
  | zero =>
      simp only [step, Option.ite_none_left_eq_some] at h
      exact length_textStep h.2
  | continuation =>
      simp only [step] at h
      split at h
      · obtain ⟨rfl, rfl⟩ := Prod.mk.inj (Option.some.inj h)
        exact Nat.zero_le _
      · exact length_textStep h
  | digits left value =>
      obtain ⟨digit, -, heq⟩ := Option.map_eq_some_iff.1 h
      have hdigit := length_digitStep left value digit
      rw [heq] at hdigit
      exact hdigit.trans hpos
  | unicode =>
      simp only [step] at h
      split at h
      · obtain ⟨rfl, rfl⟩ := Prod.mk.inj (Option.some.inj h)
        exact hpos
      · obtain ⟨digit, -, heq⟩ := Option.map_eq_some_iff.1 h
        have hdigit := length_digitStep 4 0 digit
        rw [heq] at hdigit
        exact hdigit.trans hpos
  | braces value =>
      simp only [step] at h
      split at h
      · obtain ⟨n, -, heq⟩ := Option.map_eq_some_iff.1 h
        obtain ⟨rfl, rfl⟩ := Prod.mk.inj heq
        exact (length_codeUnits n).2.trans (Nat.succ_le_succ hpos)
      · obtain ⟨digit, -, hdigit⟩ := Option.bind_eq_some_iff.1 h
        split at hdigit
        · obtain ⟨rfl, rfl⟩ := Prod.mk.inj (Option.some.inj hdigit)
          exact Nat.le_add_left 1 _
        · cases hdigit

end StringState

/-- The value of a string is shorter than what was written up to the closing quote. -/
theorem readString_length_lt (h : readString q cs = some (value, rest)) :
    value.length + (textUnits rest).length < (textUnits cs).length + q.slack := by
  induction cs generalizing q value with
  | nil => cases h
  | cons c cs ih =>
      have hpos := (length_codeUnits c.toNat).1
      rw [textUnits_cons, List.length_append]
      rcases readString_cons_cases h with
        ⟨-, -, rfl, rfl⟩ | ⟨-, units, next, others, hstep, hothers, rfl⟩
      · rw [List.length_nil]
        omega
      · have hunits := StringState.length_step hstep
        have hvalue := ih hothers
        rw [List.length_append]
        omega

/-! ## Texts as they stand -/

/-- A text without quotes, backslashes and line ends. -/
def NeedsNoEscape (cs : List Char) : Prop := ∀ c ∈ cs, c ∉ ['\'', '\\', '\n', '\r']

instance (cs : List Char) : Decidable (NeedsNoEscape cs) :=
  decidable_of_iff (cs.all (fun c => decide (c ∉ ['\'', '\\', '\n', '\r'])) = true)
    (by simp [NeedsNoEscape])

/-- A text that is written between quotes as it stands is read back, up to the closing quote,
exactly if there is nothing to escape in it. -/
theorem readString_raw_iff (cs rest : List Char) :
    readString .text (cs ++ '\'' :: rest) = some (textUnits cs, rest) ↔ NeedsNoEscape cs := by
  induction cs with
  | nil => exact iff_of_true (readString_close rfl rest) fun _ hc => absurd hc List.not_mem_nil
  | cons c cs ih =>
      rw [NeedsNoEscape, List.forall_mem_cons, ← NeedsNoEscape, ← ih, List.cons_append]
      constructor
      · intro h
        have hpos := (length_codeUnits c.toNat).1
        rcases readString_cons_cases h with
          ⟨-, -, hvalue, -⟩ | ⟨hopen, units, next, others, hstep, hothers, hvalue⟩
        · -- A quote would end the string before its first character.
          rw [textUnits_cons, List.append_eq_nil_iff] at hvalue
          rw [hvalue.1] at hpos
          exact absurd hpos (Nat.lt_irrefl 0)
        · rcases StringState.textStep_cases hstep with ⟨-, rfl, rfl⟩ | ⟨hplain, rfl, rfl⟩
          · -- Behind a backslash there are too few characters for the value.
            have hlength := readString_length_lt hothers
            have hquote : (textUnits ('\'' :: rest)).length = (textUnits rest).length + 1 := rfl
            have hslack : StringState.escape.slack = 0 := rfl
            rw [List.nil_append] at hvalue
            rw [← hvalue, textUnits_cons, textUnits_append, List.length_append, List.length_append,
              hquote, hslack] at hlength
            omega
          · rw [textUnits_cons, List.append_cancel_left_eq] at hvalue
            rw [← hvalue] at hothers
            have hquote := hopen.resolve_left (by decide)
            simp only [List.mem_cons, List.not_mem_nil, or_false, not_or] at hplain ⊢
            exact ⟨⟨hquote, hplain⟩, hothers⟩
      · rintro ⟨hc, hrest⟩
        simp only [List.mem_cons, List.not_mem_nil, or_false, not_or] at hc
        have hplain : c ∉ ['\\', '\n', '\r'] := by
          simp only [List.mem_cons, List.not_mem_nil, or_false, not_or]
          exact hc.2
        rw [readString_step (.inr hc.1) (StringState.step_text_of_not_mem hplain), hrest]
        rfl

end TypedClient.Script
