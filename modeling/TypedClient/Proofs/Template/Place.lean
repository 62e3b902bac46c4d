import TypedClient.Proofs.Operation.Path
import TypedClient.Proofs.Page.Comment
import TypedClient.Proofs.Script.Layout

/-!
# Places in a module

A template is read without the values that are put into it. `Place` says what is known of the lexer
at a place, `Content` what is known of a value, and `Pattern` which specifiers there may be. `Leads`
says that a text leads from one place to another with such specifiers; fixed texts do
(`leads_read`), and so do values that fit their content (`leads_value`).
-/

namespace TypedClient.Template

open Script Script.Lexer

/-- What a name names, as far as it matters. -/
inductive Role where
  | definition
  | validator
  | module
deriving DecidableEq, Repr

/-- What is known of the text of a value. -/
inductive Content where
  | name (role : Role)
  /-- A type, a parameter list or a key. -/
  | type
  /-- Names between punctuation. -/
  | list
  /-- The inside of a string. -/
  | string
  /-- A line of a comment. -/
  | line
  /-- The inside of a template. -/
  | path
deriving DecidableEq, Repr

/-- What specifiers look like. -/
inductive Pattern where
  | fixed (specifier : List Char)
  /-- A text with a name behind it. -/
  | named (stem : List Char) (role : Role)
deriving DecidableEq, Repr

/-- What is known of the lexer at a place. -/
inductive Place where
  | exactly (q : Lexer)
  /-- In the code, where a string is no specifier. -/
  | calm
  /-- In the code, at the start of a word. -/
  | spaced
  | code
  | comment (b : Before)
  | template
  /-- In a specifier, behind a text and a name. -/
  | specifier (stem : List Char) (role : Role)
deriving DecidableEq, Repr

/-- The names that there are, by what they name. -/
abbrev Names := Role → String → Prop

variable {names : Names}

/-- Whether a text is what it is taken for. -/
def Content.Fits (names : Names) : Content → String → Prop
  | .name role, text => names role text ∧ ∀ c ∈ text.toList, Naming.isNameChar c = true
  | .type, text => Passes Calm InCode text.toList
  | .list, text => ∀ c ∈ text.toList, isHarmless c = true
  | .string, text => Passes (InString false) (InString false) text.toList
  | .line, text => ∀ b, Passes (AtComment b) (InComment b) text.toList
  | .path, text => Passes AtTemplate InTemplate text.toList

/-- Whether a specifier looks as it should. -/
def Pattern.Matches (names : Names) : Pattern → List Char → Prop
  | .fixed specifier, cs => cs = specifier
  | .named stem role, cs => ∃ name, names role name ∧ cs = stem ++ name.toList

namespace Place

/-- The states at a place. -/
def Holds (names : Names) : Place → Lexer → Prop
  | .exactly q, q' => q' = q
  | .calm, q => Calm q
  | .spaced, q => ∃ b : Before, b.pause = b ∧ q = { mode := .code b }
  | .code, q => InCode q
  | .comment b, q => InComment b q
  | .template, q => InTemplate q
  | .specifier stem role, q =>
    ∃ name, names role name ∧ q = { mode := .quoted false false (some (stem ++ name.toList)) }

/-- Whether a place is in calm code. -/
def isCalm : Place → Bool
  | .exactly ⟨.code b, [], false⟩ => b.isCalm
  | .calm => true
  | _ => false

/-- Whether a place is in the code. -/
def isCode : Place → Bool
  | .exactly ⟨.code _, [], false⟩ => true
  | .calm | .spaced | .code => true
  | _ => false

/-- Whether a place is in a given comment. -/
def isComment (b : Before) : Place → Bool
  | .exactly ⟨.blockComment b' _, [], false⟩ => b' = b
  | .comment b' => b' = b
  | _ => false

/-- The place behind a fixed character, and the specifiers that it ends. -/
def step : Place → Char → Option (Place × List Pattern)
  | .exactly q, c =>
    if (q.step c).broken then none
    else some (.exactly (q.step c), (q.found? c).toList.map .fixed)
  | .spaced, c =>
    if Text.isBlank c then some (.spaced, [])
    else if isWordChar c then some (.exactly { mode := .code (.word [c] false) }, [])
    else if isPunctuation c then some (.exactly {}, [])
    else none
  | .code, c =>
    if Text.isBlank c then some (.spaced, [])
    else if isPunctuation c then some (.exactly {}, [])
    else if isHarmless c then some (.code, [])
    else none
  | .comment b, c =>
    if c = '/' then none else some (.exactly { mode := .blockComment b (c == '*') }, [])
  | .template, c => if c = '\x60' then some (.exactly {}, []) else none
  | .specifier stem role, c =>
    if c = '\'' then some (.exactly {}, [.named stem role]) else none
  | .calm, _ => none

/-- The place behind a fixed text, and the specifiers in it. -/
def read (p : Place) : List Char → Option (Place × List Pattern)
  | [] => some (p, [])
  | c :: cs =>
    (p.step c).bind fun first => (read first.1 cs).map fun last => (last.1, first.2 ++ last.2)

/-- The place behind a long text, which is read in blocks so that the recursion stays shallow. -/
def readBlocks (p : Place) : Nat → List Char → Option (Place × List Pattern)
  | 0, cs => p.read cs
  | n + 1, cs =>
    if cs.isEmpty then some (p, [])
    else
      (p.read (cs.take 64)).bind fun first =>
        (readBlocks first.1 n (cs.drop 64)).map fun last => (last.1, first.2 ++ last.2)

/-- The place behind a value. -/
def value (p : Place) : Content → Option Place
  | .name role =>
    match p with
    | .exactly ⟨.quoted false false (some stem), [], false⟩ => some (.specifier stem role)
    | _ => if p.isCode then some .code else none
  | .type => if p.isCalm then some .code else none
  | .list => if p.isCode then some .code else none
  | .string => if p = .exactly { mode := .quoted false false none } then some p else none
  | .line =>
    match p with
    | .exactly ⟨.blockComment b false, [], false⟩ => some (.comment b)
    | _ => none
  | .path => if p = .exactly { mode := .template false false } then some .template else none

/-- What is known at a place that is reached from two others. -/
def join (p p' : Place) : Option Place :=
  if p = p' then some p
  else if p.isCalm && p'.isCalm then some .calm
  else if p.isCode && p'.isCode then some .code
  else match p' with
    | .comment b => if p.isComment b then some (.comment b) else none
    | _ => none

theorem calm_of_isCalm {p : Place} (h : p.isCalm = true) {q : Lexer} (hq : p.Holds names q) :
    Calm q := by
  unfold isCalm at h
  split at h
  · obtain rfl := hq
    exact ⟨_, h, rfl⟩
  · exact hq
  · cases h

theorem inCode_of_isCode {p : Place} (h : p.isCode = true) {q : Lexer} (hq : p.Holds names q) :
    InCode q := by
  unfold isCode at h
  split at h
  · obtain rfl := hq
    exact ⟨_, rfl⟩
  · exact Calm.inCode hq
  · obtain ⟨b, _, rfl⟩ := hq
    exact ⟨b, rfl⟩
  · exact hq
  · cases h

theorem inComment_of_isComment {b : Before} {p : Place} (h : p.isComment b = true) {q : Lexer}
    (hq : p.Holds names q) : InComment b q := by
  unfold isComment at h
  split at h
  · obtain rfl := hq
    obtain rfl := of_decide_eq_true h
    exact ⟨_, rfl⟩
  · obtain rfl := of_decide_eq_true h
    exact hq
  · cases h

/-- What is known where two ways meet holds on both of them. -/
theorem holds_of_join {p p' r : Place} (h : p.join p' = some r) {q : Lexer}
    (hq : p.Holds names q ∨ p'.Holds names q) : r.Holds names q := by
  unfold join at h
  split at h
  · rename_i heq
    subst heq
    cases h
    exact hq.elim id id
  · split at h
    · rename_i hcalm
      rw [Bool.and_eq_true] at hcalm
      cases h
      exact hq.elim (calm_of_isCalm hcalm.1) (calm_of_isCalm hcalm.2)
    · split at h
      · rename_i hcode
        rw [Bool.and_eq_true] at hcode
        cases h
        exact hq.elim (inCode_of_isCode hcode.1) (inCode_of_isCode hcode.2)
      · split at h
        · split at h
          · rename_i hcomment
            cases h
            exact hq.elim (inComment_of_isComment hcomment) id
          · cases h
        · cases h

end Place

/-! ## Ways between places -/

/-- A text leads from one place to another, and its specifiers look like one of the patterns. -/
def Leads (names : Names) (p : Place) (cs : List Char) (p' : Place) (patterns : List Pattern) :
    Prop :=
  ∀ q, p.Holds names q → p'.Holds names (q.read cs).1 ∧
    ∀ specifier ∈ (q.read cs).2, ∃ pattern ∈ patterns, pattern.Matches names specifier

namespace Leads

variable {p p' p'' : Place} {xs ys : List Char} {patterns patterns' : List Pattern}

theorem nil (h : ∀ q, p.Holds names q → p'.Holds names q) : Leads names p [] p' patterns :=
  fun q hq => ⟨h q hq, by simp⟩

theorem append (hxs : Leads names p xs p' patterns) (hys : Leads names p' ys p'' patterns') :
    Leads names p (xs ++ ys) p'' (patterns ++ patterns') := by
  intro q hq
  obtain ⟨hfirst, hpatterns⟩ := hxs q hq
  obtain ⟨hlast, hpatterns'⟩ := hys _ hfirst
  rw [read_append]
  refine ⟨hlast, fun specifier hspecifier => ?_⟩
  rcases List.mem_append.1 hspecifier with hspecifier | hspecifier
  · obtain ⟨pattern, hmem, hmatches⟩ := hpatterns specifier hspecifier
    exact ⟨pattern, List.mem_append_left _ hmem, hmatches⟩
  · obtain ⟨pattern, hmem, hmatches⟩ := hpatterns' specifier hspecifier
    exact ⟨pattern, List.mem_append_right _ hmem, hmatches⟩

theorem mono (h : Leads names p xs p' patterns) (hplace : ∀ q, p'.Holds names q → p''.Holds names q)
    (hpatterns : patterns ⊆ patterns') : Leads names p xs p'' patterns' := by
  intro q hq
  obtain ⟨hlast, hmatches⟩ := h q hq
  refine ⟨hplace _ hlast, fun specifier hspecifier => ?_⟩
  obtain ⟨pattern, hmem, hpattern⟩ := hmatches specifier hspecifier
  exact ⟨pattern, hpatterns hmem, hpattern⟩

/-- What holds no specifier leads to where it passes. -/
theorem of_passes (h : Passes (p.Holds names) (p'.Holds names) xs) :
    Leads names p xs p' patterns := by
  intro q hq
  obtain ⟨hlast, hnone⟩ := h q hq
  rw [hnone]
  exact ⟨hlast, by simp⟩

end Leads

/-! ## Fixed texts -/

theorem letter_of_pause_eq {b : Before} (h : b.pause = b) (c : Char) :
    b.letter c = .word [c] false := by
  match b, h with
  | .word _ true, _ | .opened, _ | .other, _ => rfl

variable {p p' : Place} {c : Char} {cs : List Char} {patterns : List Pattern}

theorem leads_step_spaced (h : Place.spaced.step c = some (p', patterns)) :
    Leads names .spaced [c] p' patterns := by
  have hcode : ∀ q, Place.spaced.Holds names q → InCode q := by
    rintro _ ⟨b, _, rfl⟩
    exact ⟨b, rfl⟩
  simp only [Place.step] at h
  split at h
  · rename_i hblank
    cases h
    refine .of_passes (passes_singleton_code (fun b _ => ?_) hcode)
    rw [codeStep_of_isBlank hblank]
    exact ⟨b.pause, Before.pause_pause b, rfl⟩
  · rename_i hblank
    split at h
    · rename_i hword
      cases h
      refine .of_passes (passes_singleton_code ?_ hcode)
      rintro b ⟨b', hpause, hb⟩
      obtain rfl : b = b' := by simpa using congrArg Lexer.mode hb
      rw [codeStep_of_isWordChar (by simpa using hblank) hword, letter_of_pause_eq hpause]
      rfl
    · split at h
      · rename_i hpunctuation
        cases h
        exact .of_passes (passes_singleton_code
          (fun b _ => codeStep_of_isPunctuation hpunctuation b b) hcode)
      · cases h

theorem leads_step_code (h : Place.code.step c = some (p', patterns)) :
    Leads names .code [c] p' patterns := by
  simp only [Place.step] at h
  split at h
  · rename_i hblank
    cases h
    refine .of_passes (passes_singleton_code (fun b _ => ?_) fun _ => id)
    rw [codeStep_of_isBlank hblank]
    exact ⟨b.pause, Before.pause_pause b, rfl⟩
  · split at h
    · rename_i hpunctuation
      cases h
      exact .of_passes (passes_singleton_code
        (fun b _ => codeStep_of_isPunctuation hpunctuation b b) fun _ => id)
    · split at h
      · rename_i hharmless
        cases h
        exact .of_passes (passes_singleton_code
          (fun b _ => inCode_codeStep hharmless b b) fun _ => id)
      · cases h

/-- A fixed character leads to the place behind it. -/
theorem leads_step (h : p.step c = some (p', patterns)) : Leads names p [c] p' patterns := by
  cases p with
  | exactly q =>
      simp only [Place.step] at h
      split at h
      · cases h
      · cases h
        rintro _ rfl
        refine ⟨rfl, fun specifier hspecifier => ?_⟩
        rw [read_cons, read_nil, List.append_nil] at hspecifier
        exact ⟨.fixed specifier, List.mem_map_of_mem hspecifier, rfl⟩
  | calm => cases h
  | spaced => exact leads_step_spaced h
  | code => exact leads_step_code h
  | comment b =>
      simp only [Place.step] at h
      split at h
      · cases h
      · rename_i hslash
        cases h
        refine .of_passes ?_
        rintro _ ⟨star, rfl⟩
        simp [Place.Holds, read_cons, Lexer.step, found?, hslash]
  | template =>
      simp only [Place.step] at h
      split at h
      · rename_i htick
        cases h
        subst htick
        refine .of_passes ?_
        rintro _ ⟨dollar, rfl⟩
        exact ⟨rfl, rfl⟩
      · cases h
  | specifier stem role =>
      simp only [Place.step] at h
      split at h
      · rename_i hquote
        cases h
        subst hquote
        rintro _ ⟨name, hname, rfl⟩
        refine ⟨rfl, fun specifier hspecifier => ⟨_, List.mem_cons_self, name, hname, ?_⟩⟩
        exact List.mem_singleton.1 hspecifier
      · cases h

/-- A fixed text leads to the place behind it. -/
theorem leads_read (h : p.read cs = some (p', patterns)) : Leads names p cs p' patterns := by
  induction cs generalizing p patterns with
  | nil =>
      cases h
      exact .nil fun _ => id
  | cons c cs ih =>
      simp only [Place.read, Option.bind_eq_some_iff, Option.map_eq_some_iff] at h
      obtain ⟨⟨mid, first⟩, hstep, ⟨last, rest⟩, hread, heq⟩ := h
      cases heq
      exact (leads_step hstep).append (ih hread)

theorem leads_readBlocks {n : Nat} (h : p.readBlocks n cs = some (p', patterns)) :
    Leads names p cs p' patterns := by
  induction n generalizing p cs patterns with
  | zero => exact leads_read h
  | succ n ih =>
      rw [Place.readBlocks] at h
      split at h
      · rename_i hempty
        obtain rfl := List.isEmpty_iff.1 hempty
        cases h
        exact .nil fun _ => id
      · simp only [Option.bind_eq_some_iff, Option.map_eq_some_iff] at h
        obtain ⟨first, hfirst, last, hlast, heq⟩ := h
        cases heq
        rw [← List.take_append_drop 64 cs]
        exact (leads_read hfirst).append (ih hlast)

/-! ## Values -/

/-- A name continues a specifier. -/
theorem read_specifier_of_name {cs : List Char} (h : ∀ c ∈ cs, Naming.isNameChar c = true)
    (stem : List Char) :
    ({ mode := .quoted false false (some stem) } : Lexer).read cs =
      ({ mode := .quoted false false (some (stem ++ cs)) }, []) := by
  induction cs generalizing stem with
  | nil => rw [List.append_nil]; rfl
  | cons c cs ih =>
      have hother : ∀ d ∈ ['\'', '\\', '\n', '\r'], c ≠ d := by
        rintro d hd rfl
        have hnot : ['\'', '\\', '\n', '\r'].all (!Naming.isNameChar ·) = true := by decide
        have hc : Naming.isNameChar c = false := by simpa using List.all_eq_true.1 hnot c hd
        exact absurd (h c List.mem_cons_self) (by simp [hc])
      have hquote : c ≠ quote false := hother '\'' (by simp)
      have hescape : c ≠ '\\' := hother _ (by simp)
      have hfeed : c ≠ '\n' := hother _ (by simp)
      have hreturn : c ≠ '\r' := hother _ (by simp)
      rw [read_cons_of_found?_eq_none (by simp [found?, hquote])]
      have hstep : ({ mode := .quoted false false (some stem) } : Lexer).step c =
          { mode := .quoted false false (some (stem ++ [c])) } := by
        simp [Lexer.step, hquote, hescape, hfeed, hreturn]
      rw [hstep, ih fun d hd => h d (List.mem_cons_of_mem _ hd), List.append_assoc,
        List.singleton_append]

/-- A value that is what it is taken for leads to the place behind it. -/
theorem leads_value {content : Content} {text : String} (h : p.value content = some p')
    (hfits : content.Fits names text) : Leads names p text.toList p' [] := by
  cases content with
  | name role =>
      obtain ⟨hname, hchars⟩ := hfits
      simp only [Place.value] at h
      split at h
      · cases h
        rintro _ rfl
        rw [read_specifier_of_name hchars]
        exact ⟨⟨text, hname, rfl⟩, by simp⟩
      · split at h
        · rename_i hcode
          cases h
          refine .of_passes ((passes_inCode fun c hc => ?_).mono
            (fun _ => Place.inCode_of_isCode hcode) fun _ => id)
          exact isHarmless_of_isNameChar (hchars c hc)
        · cases h
  | type =>
      simp only [Place.value] at h
      split at h
      · rename_i hcalm
        cases h
        exact .of_passes (Passes.mono hfits (fun _ => Place.calm_of_isCalm hcalm) fun _ => id)
      · cases h
  | list =>
      simp only [Place.value] at h
      split at h
      · rename_i hcode
        cases h
        exact .of_passes ((passes_inCode hfits).mono
          (fun _ => Place.inCode_of_isCode hcode) fun _ => id)
      · cases h
  | string =>
      simp only [Place.value] at h
      split at h
      · rename_i hplace
        cases h
        subst hplace
        exact .of_passes hfits
      · cases h
  | line =>
      simp only [Place.value] at h
      split at h
      · rename_i b
        cases h
        exact .of_passes (hfits b)
      · cases h
  | path =>
      simp only [Place.value] at h
      split at h
      · rename_i hplace
        cases h
        subst hplace
        exact .of_passes hfits
      · cases h

end TypedClient.Template
