import Mathlib.Data.List.Induction
import TypedClient.Operation.Path

/-!
# The one way to cut a path

A path is literal text with tokens in braces between. `Cuts path t` says that a template is such a
reading of a path: no token goes on behind a closing brace, no literal in front of a token has an
opening one, and no opening brace of the last literal is ever closed. Every path has exactly one
such reading, which is the one that `PathTemplate.parse` finds: `exists_unique_cut`.
-/

namespace TypedClient.PathTemplate

/-- Some opening brace is closed further on. -/
def Opens (cs : List Char) : Prop := ∃ before after, cs = before ++ '\x7b' :: after ∧ '\x7d' ∈ after

/-- The characters are cut into a literal and the tokens behind it, each with its own literal. -/
inductive IsCut : List Char → List Char → List (List Char × List Char) → Prop
  | last (text : List Char) : ¬ Opens text → IsCut text text []
  | hole (text token : List Char) {cs next : List Char} {holes : List (List Char × List Char)} :
      '\x7b' ∉ text → '\x7d' ∉ token → IsCut cs next holes →
      IsCut (text ++ '\x7b' :: (token ++ '\x7d' :: cs)) text ((token, next) :: holes)

variable {cs : List Char}

/-! ## Scanning -/

theorem cutHole_append {token : List Char} (htoken : '\x7d' ∉ token) (cs : List Char) :
    cutHole (token ++ '\x7d' :: cs) = (token, (cutText cs).1) :: (cutText cs).2 := by
  induction token with
  | nil => simp [cutHole]
  | cons c token ih =>
      rw [List.mem_cons, not_or] at htoken
      rw [List.cons_append, cutHole, if_neg (Ne.symm htoken.1), ih htoken.2]

theorem cutText_append {text token : List Char} (htext : '\x7b' ∉ text) (htoken : '\x7d' ∉ token)
    (cs : List Char) :
    cutText (text ++ '\x7b' :: (token ++ '\x7d' :: cs)) =
      (text, (token, (cutText cs).1) :: (cutText cs).2) := by
  induction text with
  | nil =>
      have hclosed : '\x7d' ∈ token ++ '\x7d' :: cs := by simp
      rw [List.nil_append, cutText, if_pos ⟨rfl, hclosed⟩, cutHole_append htoken]
  | cons c text ih =>
      rw [List.mem_cons, not_or] at htext
      have hc : ¬ (c = '\x7b' ∧ '\x7d' ∈ text ++ '\x7b' :: (token ++ '\x7d' :: cs)) :=
        fun h => htext.1 h.1.symm
      rw [List.cons_append, cutText, if_neg hc, ih htext.2]

theorem cutText_of_not_opens (h : ¬ Opens cs) : cutText cs = (cs, []) := by
  induction cs with
  | nil => rfl
  | cons c cs ih =>
      have hc : ¬ (c = '\x7b' ∧ '\x7d' ∈ cs) := by
        rintro ⟨rfl, hclosed⟩
        exact h ⟨[], cs, rfl, hclosed⟩
      have hrest : ¬ Opens cs := by
        rintro ⟨before, after, rfl, hclosed⟩
        exact h ⟨c :: before, after, rfl, hclosed⟩
      rw [cutText, if_neg hc, ih hrest]

/-- Scanning finds every cut, so that there is at most one. -/
theorem IsCut.cutText_eq {head : List Char} {holes : List (List Char × List Char)}
    (h : IsCut cs head holes) : cutText cs = (head, holes) := by
  induction h with
  | last text hopens => exact cutText_of_not_opens hopens
  | hole text token htext htoken _ ih => rw [cutText_append htext htoken, ih]

/-- A brace that is closed further on is so already where one opens for the first time. -/
theorem exists_first_token (h : Opens cs) :
    ∃ text token rest, cs = text ++ '\x7b' :: (token ++ '\x7d' :: rest) ∧ '\x7b' ∉ text ∧
      '\x7d' ∉ token := by
  obtain ⟨before, after, rfl, hclosed⟩ := h
  have hopening : '\x7b' ∈ before ++ '\x7b' :: after := by simp
  obtain ⟨text, inside, hcs, htext⟩ := List.eq_append_cons_of_mem hopening
  have hinside : '\x7d' ∈ inside := by
    -- The first opening brace is no later than the one that is known to be closed.
    rcases List.append_eq_append_iff.1 hcs with ⟨mid, rfl, hmid⟩ | ⟨mid, rfl, hmid⟩
    · cases mid with
      | nil =>
          obtain ⟨-, rfl⟩ := List.cons.inj hmid
          exact hclosed
      | cons c mid =>
          obtain ⟨rfl, -⟩ := List.cons.inj hmid
          exact absurd (by simp) htext
    · cases mid with
      | nil =>
          obtain ⟨-, rfl⟩ := List.cons.inj hmid
          exact hclosed
      | cons c mid =>
          obtain ⟨-, rfl⟩ := List.cons.inj hmid
          simp [hclosed]
  obtain ⟨token, rest, rfl, htoken⟩ := List.eq_append_cons_of_mem hinside
  exact ⟨text, token, rest, hcs, htext, htoken⟩

/-- Every text can be cut. -/
theorem exists_isCut (cs : List Char) : ∃ head holes, IsCut cs head holes := by
  -- The induction is on the length, since the rest behind a token is no direct part of the text.
  induction hlength : cs.length using Nat.strongRecOn generalizing cs with
  | ind length ih =>
      by_cases hopens : Opens cs
      · obtain ⟨text, token, rest, rfl, htext, htoken⟩ := exists_first_token hopens
        have hshorter : rest.length < length := by
          simp only [List.length_append, List.length_cons] at hlength
          omega
        obtain ⟨next, holes, hrest⟩ := ih rest.length hshorter rest rfl
        exact ⟨text, _, .hole text token htext htoken hrest⟩
      · exact ⟨cs, [], .last cs hopens⟩

theorem isCut_cutText (cs : List Char) : IsCut cs (cutText cs).1 (cutText cs).2 := by
  obtain ⟨head, holes, h⟩ := exists_isCut cs
  rw [h.cutText_eq]
  exact h

/-! ## Templates -/

/-- The tokens of a template, from left to right. -/
def tokens (t : PathTemplate) : List String := t.holes.map (·.1)

/-- The literals of a template: the text in front of every token, and the text behind the last. -/
def literals (t : PathTemplate) : List String := t.head :: t.holes.map (·.2)

/-- A token in braces. -/
def braced (token : String) : String := "\x7b" ++ token ++ "\x7d"

/-- The template is a reading of the path. -/
structure Cuts (path : String) (t : PathTemplate) : Prop where
  path_eq : path = t.head ++ Text.concat (t.holes.map fun (token, text) => braced token ++ text)
  literals : ∀ text ∈ t.literals.dropLast, '\x7b' ∉ text.toList
  tokens : ∀ token ∈ t.tokens, '\x7d' ∉ token.toList
  last : ∀ text ∈ t.literals.getLast?, ¬ Opens text.toList

/-- The characters of tokens and literals. -/
def characters (holes : List (String × String)) : List (List Char × List Char) :=
  holes.map fun (token, text) => (token.toList, text.toList)

/-- Tokens and literals of the given characters. -/
def ofCharacters (holes : List (List Char × List Char)) : List (String × String) :=
  holes.map fun (token, text) => (String.ofList token, String.ofList text)

theorem ofCharacters_characters (holes : List (String × String)) :
    ofCharacters (characters holes) = holes := by
  simp [ofCharacters, characters, Function.comp_def]

theorem parse_eq (path : String) :
    parse path = ⟨String.ofList (cutText path.toList).1, ofCharacters (cutText path.toList).2⟩ := rfl

theorem toList_braced (token : String) :
    (braced token).toList = '\x7b' :: (token.toList ++ ['\x7d']) := by
  simp [braced]

theorem concat_cons (text : String) (rest : List String) :
    Text.concat (text :: rest) = text ++ Text.concat rest := rfl

theorem cuts_nil_iff {path head : String} :
    Cuts path ⟨head, []⟩ ↔ path = head ∧ ¬ Opens head.toList := by
  constructor
  · intro h
    exact ⟨by simpa [Text.concat] using h.path_eq, h.last head rfl⟩
  · rintro ⟨rfl, hopens⟩
    exact ⟨by simp [Text.concat], by simp [PathTemplate.literals], by simp [PathTemplate.tokens],
      by simpa [PathTemplate.literals] using hopens⟩

/-- The first token of a reading is followed by a reading of the rest. -/
theorem cuts_cons_iff {path head token text : String} {holes : List (String × String)} :
    Cuts path ⟨head, (token, text) :: holes⟩ ↔
      ∃ rest, path = head ++ (braced token ++ rest) ∧ '\x7b' ∉ head.toList ∧
        '\x7d' ∉ token.toList ∧ Cuts rest ⟨text, holes⟩ := by
  have hliterals : PathTemplate.literals ⟨head, (token, text) :: holes⟩ =
      head :: PathTemplate.literals ⟨text, holes⟩ := rfl
  have hne : PathTemplate.literals ⟨text, holes⟩ ≠ [] := List.cons_ne_nil _ _
  constructor
  · intro h
    refine ⟨_, ?_, ?_, ?_, rfl, ?_, ?_, ?_⟩
    · rw [h.path_eq, List.map_cons, concat_cons, String.append_assoc]
    · exact h.literals head (by rw [hliterals, List.dropLast_cons_of_ne_nil hne]; simp)
    · exact h.tokens token List.mem_cons_self
    · intro other hother
      refine h.literals other ?_
      rw [hliterals, List.dropLast_cons_of_ne_nil hne]
      exact List.mem_cons_of_mem _ hother
    · exact fun other hother => h.tokens other (List.mem_cons_of_mem _ hother)
    · intro other hother
      refine h.last other ?_
      rwa [hliterals, List.getLast?_cons_of_ne_nil hne]
  · rintro ⟨rest, rfl, hhead, htoken, hrest⟩
    refine ⟨?_, ?_, ?_, ?_⟩
    · rw [List.map_cons, concat_cons, String.append_assoc, ← hrest.path_eq]
    · rw [hliterals, List.dropLast_cons_of_ne_nil hne]
      exact List.forall_mem_cons.2 ⟨hhead, hrest.literals⟩
    · exact List.forall_mem_cons.2 ⟨htoken, hrest.tokens⟩
    · rw [hliterals, List.getLast?_cons_of_ne_nil hne]
      exact hrest.last

theorem Cuts.isCut {path head : String} {holes : List (String × String)}
    (h : Cuts path ⟨head, holes⟩) : IsCut path.toList head.toList (characters holes) := by
  induction holes generalizing path head with
  | nil =>
      obtain ⟨rfl, hopens⟩ := cuts_nil_iff.1 h
      exact .last _ hopens
  | cons hole holes ih =>
      obtain ⟨token, text⟩ := hole
      obtain ⟨rest, rfl, hhead, htoken, hrest⟩ := cuts_cons_iff.1 h
      have hcut := IsCut.hole head.toList token.toList hhead htoken (ih hrest)
      simpa [toList_braced, characters] using hcut

theorem IsCut.cuts {head : List Char} {holes : List (List Char × List Char)}
    (h : IsCut cs head holes) :
    Cuts (String.ofList cs) ⟨String.ofList head, ofCharacters holes⟩ := by
  induction h with
  | last text hopens => exact cuts_nil_iff.2 ⟨rfl, by rwa [String.toList_ofList]⟩
  | hole text token htext htoken _ ih =>
      refine cuts_cons_iff.2 ⟨_, ?_, by rwa [String.toList_ofList], by rwa [String.toList_ofList], ih⟩
      apply String.toList_inj.1
      simp [toList_braced]

/-- A path is read by the template that it is parsed into. -/
theorem cuts_parse (path : String) : Cuts path (parse path) := by
  have h := (isCut_cutText path.toList).cuts
  rwa [String.ofList_toList] at h

/-- Every other reading is the same. -/
theorem Cuts.eq_parse {path : String} {t : PathTemplate} (h : Cuts path t) : t = parse path := by
  rw [parse_eq, h.isCut.cutText_eq, ofCharacters_characters, String.ofList_toList]

/-! ## Names of placeholders -/

theorem names_eq_eraseDups (t : PathTemplate) :
    t.names = (t.tokens.filter (· != "")).eraseDups := by
  rw [names, tokens]
  generalize (t.holes.map (·.1)).filter (· != "") = found
  induction found using List.reverseRecOn with
  | nil => rfl
  | append_singleton found name ih =>
      rw [List.foldl_append, ih, List.eraseDups_append]
      by_cases hname : name ∈ found
      · simp [List.removeAll, hname]
      · simp [List.removeAll, hname, List.eraseDups_cons]

/-- Every path has one reading. A path with its placeholders rewritten has the literals of that
reading with the rewritten tokens between, so that tokens in braces give the path back, and the
names of the placeholders are the tokens of the reading that are not empty, each at its first
place. -/
theorem exists_unique_cut (path : String) :
    ∃ t, Cuts path t ∧ (∀ other, Cuts path other → other = t) ∧
      (∀ write, (parse path).render write =
        t.head ++ Text.concat (t.holes.map fun (token, text) => write token ++ text)) ∧
      (parse path).render braced = path ∧
      placeholders path = (t.tokens.filter (· != "")).eraseDups := by
  have hcuts := cuts_parse path
  refine ⟨parse path, hcuts, fun other h => h.eq_parse, fun write => rfl, ?_, ?_⟩
  · exact hcuts.path_eq.symm
  · exact names_eq_eraseDups (parse path)

/-- Braces that are not closed, or were never opened, are text. -/
example : parse "/\x7d{a}/{b}{}/{a}\x7bd" =
    ⟨"/\x7d", [("a", "/"), ("b", ""), ("", "/"), ("a", "\x7bd")]⟩ := by decide

end TypedClient.PathTemplate
