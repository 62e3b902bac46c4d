import TypedClient.Proofs.Template.Place
import TypedClient.Template.Basic

/-!
# Checking templates

`Piece.check` follows a template from place to place without rendering it. What is known of the
values is given by the forms of the variables (`Form`). The check is sound: whatever values of
these forms a template is rendered with, the specifiers of the module look as the check says
(`specifiers_of_check`).
-/

namespace TypedClient.Template

open Script Script.Lexer

/-- What is known of a value. -/
inductive Form where
  | content (content : Content)
  /-- A value that is tested only. -/
  | flag
  /-- A value that is tested only, and always the same. -/
  | known (value : Json)
  | record (fields : List (String × Form))
  | list (item : Form)

variable {names : Names}

/-- A value has no members. -/
def IsPlainValue (value : Json) : Prop := ∀ key, value.member? key = none

/-- A value is of a form. An object has no members beside those that its form names. -/
inductive Form.Fits (names : Names) : Form → Json → Prop
  | content (content : Content) (value : Json) : IsPlainValue value →
      content.Fits names (valueText value) → Fits names (.content content) value
  | flag (value : Json) : IsPlainValue value → Fits names .flag value
  | known (value : Json) : IsPlainValue value → Fits names (.known value) value
  | record (fields : List (String × Form)) (value : Json) :
      (∀ key member, value.member? key = some member → (fields.lookup key).isSome) →
      (∀ key member form, value.member? key = some member → fields.lookup key = some form →
        Fits names form member) →
      Fits names (.record fields) value
  | list (item : Form) (value : Json) : IsPlainValue value →
      (∀ items, itemsOf? value = some items → ∀ i ∈ items, Fits names item i) →
      Fits names (.list item) value

namespace Form.Fits

theorem null {content : Content} (h : content.Fits names "") :
    Form.Fits names (.content content) .null :=
  .content content .null (fun _ => rfl) h

theorem string {content : Content} {text : String} (h : content.Fits names text) :
    Form.Fits names (.content content) (.string text) :=
  .content content (.string text) (fun _ => rfl) h

theorem ofOption {content : Content} {text : Option String} (hempty : content.Fits names "")
    (h : ∀ s ∈ text, content.Fits names s) :
    Form.Fits names (.content content) (.ofOption text) := by
  cases text with
  | none => exact null hempty
  | some s => exact string (h s rfl)

theorem array {item : Form} {items : List Json} (h : ∀ i ∈ items, item.Fits names i) :
    Form.Fits names (.list item) (.array items) := by
  refine .list item (.array items) (fun _ => rfl) fun found hfound => ?_
  obtain rfl := Option.some.inj hfound
  exact h

theorem strings {content : Content} {items : List String}
    (h : ∀ s ∈ items, content.Fits names s) :
    Form.Fits names (.list (.content content)) (.strings items) := by
  refine array fun i hi => ?_
  obtain ⟨s, hs, rfl⟩ := List.mem_map.1 hi
  exact string (h s hs)

/-- The members of an object stand in the order of the fields of its form. -/
theorem object {fields : List (String × Form)} {members : List (String × Json)}
    (h : List.Forall₂ (fun field member => field.1 = member.1 ∧ field.2.Fits names member.2)
      fields members) : Form.Fits names (.record fields) (.object members) := by
  have hlookup : ∀ key value, members.lookup key = some value →
      ∃ form, fields.lookup key = some form ∧ form.Fits names value := by
    intro key value hvalue
    induction h with
    | nil => cases hvalue
    | @cons field member fields members hfirst _ ih =>
        rw [List.lookup_cons] at hvalue ⊢
        rw [hfirst.1]
        split at hvalue
        · obtain rfl := Option.some.inj hvalue
          exact ⟨field.2, rfl, hfirst.2⟩
        · exact ih hvalue
  refine .record fields _ (fun key value hvalue => ?_) fun key value form hvalue hform => ?_
  · obtain ⟨form, hform, _⟩ := hlookup key value hvalue
    simp [hform]
  · obtain ⟨found, hfound, hfits⟩ := hlookup key value hvalue
    obtain rfl := Option.some.inj (hfound.symm.trans hform)
    exact hfits

/-- A value without members fits every record. -/
theorem record_null (fields : List (String × Form)) : Form.Fits names (.record fields) .null :=
  .record fields .null nofun nofun

end Form.Fits

/-- The form at the end of a path of members. -/
def Form.member? : Form → List String → Option Form
  | form, [] => some form
  | .record fields, key :: rest => (fields.lookup key).bind fun form => member? form rest
  | _, _ :: _ => none

/-- The forms of the variables that can be seen. -/
abbrev Scope := List (String × Form)

/-- The form of a variable. -/
def Scope.lookup? (scope : Scope) : List String → Option Form
  | [] => none
  | name :: rest => (scope.lookup name).bind fun form => form.member? rest

/-- The variables have the forms that the scope gives them, and there are no others. -/
def Scope.Fits (names : Names) (scope : Scope) (env : Env) : Prop :=
  ∀ path value, env.lookup? path = some value →
    ∃ form, scope.lookup? path = some form ∧ form.Fits names value

/-- What is known of the outcome of a test. -/
def Scope.outcome? (scope : Scope) : Test → Option Bool
  | .holds path =>
    match scope.lookup? path with
    -- A value that counts as true may still be missing.
    | some (.known value) => if isTruthy value then none else some false
    | _ => none
  | .equals path text =>
    match scope.lookup? path with
    | some (.known (.string s)) => some (s == text)
    | _ => none

/-- A part of a template with its texts spelled out. -/
inductive Piece where
  | text (cs : List Char)
  | value (path : List String)
  | when (test : Test) (yes no : List Piece)
  | each (name : String) (path : List String) (body : List Piece)

mutual

/-- A node with its texts spelled out. -/
def Node.spell : Node → Piece
  | .text s => .text s.toList
  | .value path => .value path
  | .when test yes no => .when test (spellAll yes) (spellAll no)
  | .each name path body => .each name path (spellAll body)

/-- Nodes with their texts spelled out. -/
def spellAll : List Node → List Piece
  | [] => []
  | node :: rest => node.spell :: spellAll rest

end

mutual

/-- The place behind a part of a template, and the specifiers in it. -/
def Piece.check (scope : Scope) (p : Place) : Piece → Option (Place × List Pattern)
  | .text cs => p.readBlocks 64 cs
  | .value path =>
    match scope.lookup? path with
    | some (.content content) => (p.value content).map fun last => (last, [])
    | _ => none
  | .when test yes no =>
    match scope.outcome? test with
    | some true => checkAll scope p yes
    | some false => checkAll scope p no
    | none =>
      (checkAll scope p yes).bind fun a =>
        (checkAll scope p no).bind fun b =>
          (a.1.join b.1).map fun last => (last, a.2 ++ b.2)
  | .each name path body =>
    match scope.lookup? path with
    | some (.list item) =>
      if (scope.lookup name).isSome then none
      else
        -- The place before every item is guessed from the first one, and then confirmed.
        (checkAll ((name, item) :: scope) p body).bind fun a =>
          (p.join a.1).bind fun start =>
            (checkAll ((name, item) :: scope) start body).bind fun b =>
              if b.1.join start = some start then some (start, b.2) else none
    | _ => none

/-- The place behind some parts of a template, and the specifiers in them. -/
def checkAll (scope : Scope) (p : Place) : List Piece → Option (Place × List Pattern)
  | [] => some (p, [])
  | piece :: rest =>
    (piece.check scope p).bind fun a =>
      (checkAll scope a.1 rest).map fun b => (b.1, a.2 ++ b.2)

end

/-! ## Variables -/

theorem Form.Fits.member? {form : Form} {value member : Json} (h : form.Fits names value)
    {path : List String} (hmember : Template.member? value path = some member) :
    ∃ form', form.member? path = some form' ∧ form'.Fits names member := by
  induction path generalizing form value with
  | nil =>
      cases hmember
      exact ⟨form, by cases form <;> rfl, h⟩
  | cons key rest ih =>
      simp only [Template.member?, Option.bind_eq_some_iff] at hmember
      obtain ⟨v, hv, hrest⟩ := hmember
      cases h with
      | content _ _ hplain => rw [hplain key] at hv; cases hv
      | flag _ hplain => rw [hplain key] at hv; cases hv
      | known _ hplain => rw [hplain key] at hv; cases hv
      | list _ _ hplain => rw [hplain key] at hv; cases hv
      | record fields _ hclosed hfields =>
          obtain ⟨field, hfield⟩ := Option.isSome_iff_exists.1 (hclosed key v hv)
          obtain ⟨form', hform', hfits⟩ := ih (hfields key v field hv hfield) hrest
          exact ⟨form', by rw [Form.member?, hfield, Option.bind_some, hform'], hfits⟩

/-- The variable of a repeated part is looked for first. -/
theorem Env.lookup?_bind (env : Env) (name : String) (value : Json) (first : String)
    (rest : List String) :
    (env.bind name value).lookup? (first :: rest) =
      (if name = first then Template.member? value rest else none).or
        (env.lookup? (first :: rest)) := by
  simp only [Env.lookup?, Env.bind, List.findSome?_cons]
  cases (if name = first then Template.member? value rest else none) <;> rfl

/-- A repeated part adds a variable, under a name that was free. -/
theorem Scope.Fits.bind {scope : Scope} {env : Env} (h : scope.Fits names env) {name : String}
    (hfree : (scope.lookup name).isSome = false) {item : Form} {value : Json}
    (hitem : item.Fits names value) :
    Scope.Fits names ((name, item) :: scope) (env.bind name value) := by
  intro path v hv
  cases path with
  | nil => cases hv
  | cons first rest =>
      rw [Env.lookup?_bind, Option.or_eq_some_iff] at hv
      rcases hv with hv | ⟨-, hv⟩
      · split at hv
        · rename_i heq
          subst heq
          obtain ⟨form, hform, hfits⟩ := hitem.member? hv
          exact ⟨form, by simp [Scope.lookup?, hform], hfits⟩
        · cases hv
      · obtain ⟨form, hform, hfits⟩ := h _ v hv
        obtain ⟨found, hfound, hrest⟩ := Option.bind_eq_some_iff.1 hform
        have hne : (first == name) = false := by
          rw [beq_eq_false_iff_ne]
          rintro rfl
          rw [hfound] at hfree
          cases hfree
        exact ⟨form, by simp [Scope.lookup?, List.lookup_cons, hne, hfound, hrest], hfits⟩

/-- The variables of a whole template are the members of its context. -/
theorem Scope.Fits.of_record {fields : List (String × Form)} {context : Json}
    (h : Form.Fits names (.record fields) context) :
    Scope.Fits names fields { context := context } := by
  intro path v hv
  cases path with
  | nil => cases hv
  | cons first rest =>
      obtain ⟨form, hform, hfits⟩ := h.member? hv
      exact ⟨form, hform, hfits⟩

/-- A test has the outcome that is known of it. -/
theorem Scope.Fits.passes?_eq {scope : Scope} {env : Env} (h : scope.Fits names env) {test : Test}
    {known passed : Bool} (hknown : scope.outcome? test = some known)
    (hpassed : test.passes? env = some passed) : passed = known := by
  cases test with
  | holds path =>
      simp only [Scope.outcome?] at hknown
      split at hknown
      · rename_i value hform
        split at hknown
        · cases hknown
        · rename_i htruthy
          cases hknown
          obtain rfl := Option.some.inj hpassed
          cases hvalue : env.lookup? path with
          | none => rfl
          | some v =>
              obtain ⟨form, hform', hfits⟩ := h path v hvalue
              obtain rfl := Option.some.inj (hform.symm.trans hform')
              cases hfits
              exact Bool.eq_false_iff.2 htruthy
      · cases hknown
  | equals path text =>
      simp only [Scope.outcome?] at hknown
      split at hknown
      · rename_i s hform
        cases hknown
        obtain ⟨v, hvalue, rfl⟩ := Option.map_eq_some_iff.1 hpassed
        obtain ⟨form, hform', hfits⟩ := h path v hvalue
        obtain rfl := Option.some.inj (hform.symm.trans hform')
        cases hfits
        rfl
      · cases hknown

/-! ## Soundness -/

/-- What is repeated leads back to where it starts from. -/
theorem leads_mapM {render : Json → Option String} {place : Place} {patterns : List Pattern}
    {items : List Json} {texts : List String}
    (hitems : ∀ item ∈ items, ∀ text, render item = some text →
      Leads names place text.toList place patterns)
    (h : items.mapM render = some texts) :
    Leads names place (texts.foldr (· ++ ·) "").toList place patterns := by
  induction items generalizing texts with
  | nil =>
      cases h
      exact .nil fun _ => id
  | cons item items ih =>
      rw [List.mapM_cons, Option.bind_eq_bind, Option.bind_eq_some_iff] at h
      obtain ⟨text, htext, h⟩ := h
      rw [Option.bind_eq_bind, Option.bind_eq_some_iff] at h
      obtain ⟨rest, hrest, h⟩ := h
      cases h
      have hlater := ih (fun other hother => hitems other (List.mem_cons_of_mem _ hother)) hrest
      rw [List.foldr_cons, String.toList_append]
      exact ((hitems item List.mem_cons_self text htext).append hlater).mono (fun _ => id) (by simp)

/-- What the check of a repeated part has seen. -/
theorem check_each_eq_some {scope : Scope} {p p' : Place} {patterns : List Pattern} {name : String}
    {path : List String} {body : List Piece} {form : Form} (hform : scope.lookup? path = some form)
    (h : (Piece.each name path body).check scope p = some (p', patterns)) :
    ∃ item, form = .list item ∧ (scope.lookup name).isSome = false ∧
      ∃ a, p.join a = some p' ∧ ∃ b : Place × List Pattern,
        checkAll ((name, item) :: scope) p' body = some b ∧ b.1.join p' = some p' ∧
        patterns = b.2 := by
  simp only [Piece.check, hform] at h
  split at h
  · rename_i item hitem
    obtain rfl := Option.some.inj hitem
    split at h
    · cases h
    · rename_i hfree
      simp only [Option.bind_eq_some_iff] at h
      obtain ⟨a, _, start, hstart, b, hbody, h⟩ := h
      split at h
      · rename_i hback
        cases h
        exact ⟨item, rfl, Bool.eq_false_iff.2 hfree, a.1, hstart, b, hbody, hback, rfl⟩
      · cases h
  · cases h

mutual

/-- A part of a template leads to where the check says. -/
theorem leads_render (scope : Scope) (env : Env) (p p' : Place) (patterns : List Pattern)
    (text : String) (hscope : scope.Fits names env) : ∀ node : Node,
    node.spell.check scope p = some (p', patterns) → node.render? env = some text →
    Leads names p text.toList p' patterns
  | .text s, hcheck, hrender => by
      cases hrender
      exact leads_readBlocks hcheck
  | .value path, hcheck, hrender => by
      obtain ⟨value, hvalue, rfl⟩ := Option.map_eq_some_iff.1 hrender
      obtain ⟨form, hform, hfits⟩ := hscope path value hvalue
      simp only [Node.spell, Piece.check, hform] at hcheck
      split at hcheck
      · rename_i content hcontent
        obtain rfl := Option.some.inj hcontent
        obtain ⟨last, hlast, heq⟩ := Option.map_eq_some_iff.1 hcheck
        cases heq
        cases hfits with
        | content _ _ _ hcontent => exact leads_value hlast hcontent
      · cases hcheck
  | .when test yes no, hcheck, hrender => by
      simp only [Node.render?] at hrender
      simp only [Node.spell, Piece.check] at hcheck
      cases hpassed : test.passes? env with
      | none => rw [hpassed] at hrender; cases hrender
      | some passed =>
        rw [hpassed] at hrender
        split at hcheck
        · rename_i hknown
          obtain rfl := hscope.passes?_eq hknown hpassed
          exact leads_renderAll scope env p p' patterns text hscope yes hcheck hrender
        · rename_i hknown
          obtain rfl := hscope.passes?_eq hknown hpassed
          exact leads_renderAll scope env p p' patterns text hscope no hcheck hrender
        · simp only [Option.bind_eq_some_iff, Option.map_eq_some_iff] at hcheck
          obtain ⟨a, hyes, b, hno, last, hjoin, heq⟩ := hcheck
          cases heq
          cases passed with
          | true =>
            exact (leads_renderAll scope env p a.1 a.2 text hscope yes hyes hrender).mono
              (fun q hq => Place.holds_of_join hjoin (.inl hq)) (by simp)
          | false =>
            exact (leads_renderAll scope env p b.1 b.2 text hscope no hno hrender).mono
              (fun q hq => Place.holds_of_join hjoin (.inr hq)) (by simp)
  | .each name path body, hcheck, hrender => by
      simp only [Node.render?] at hrender
      split at hrender
      · rename_i items hitems
        obtain ⟨value, hvalue, hitems⟩ := Option.bind_eq_some_iff.1 hitems
        obtain ⟨texts, htexts, rfl⟩ := Option.map_eq_some_iff.1 hrender
        obtain ⟨form, hform, hfits⟩ := hscope path value hvalue
        obtain ⟨item, rfl, hfree, a, hstart, b, hbody, hback, rfl⟩ :=
          check_each_eq_some hform hcheck
        cases hfits with
        | list _ _ _ hlist =>
          have hloop : Leads names p' (texts.foldr (· ++ ·) "").toList p' b.2 := by
            refine leads_mapM (fun i hi t ht => ?_) htexts
            have honce := leads_renderAll ((name, item) :: scope) (env.bind name i) p' b.1 b.2 t
              (hscope.bind hfree (hlist items hitems i hi)) body hbody ht
            exact honce.mono (fun q hq => Place.holds_of_join hback (.inl hq)) fun _ => id
          exact fun q hq => hloop q (Place.holds_of_join hstart (.inl hq))
      · cases hrender

/-- Some parts of a template lead to where the check says. -/
theorem leads_renderAll (scope : Scope) (env : Env) (p p' : Place) (patterns : List Pattern)
    (text : String) (hscope : scope.Fits names env) : ∀ nodes : List Node,
    checkAll scope p (spellAll nodes) = some (p', patterns) → renderAll? env nodes = some text →
    Leads names p text.toList p' patterns
  | [], hcheck, hrender => by
      cases hcheck
      cases hrender
      exact .nil fun _ => id
  | node :: rest, hcheck, hrender => by
      simp only [spellAll, checkAll, Option.bind_eq_some_iff, Option.map_eq_some_iff] at hcheck
      obtain ⟨a, hnode, b, hrest, heq⟩ := hcheck
      cases heq
      simp only [renderAll?] at hrender
      split at hrender
      · rename_i s hs
        obtain ⟨others, hothers, rfl⟩ := Option.map_eq_some_iff.1 hrender
        rw [String.toList_append]
        exact (leads_render scope env p a.1 a.2 s hscope node hnode hs).append
          (leads_renderAll scope env a.1 b.1 b.2 others hscope rest hrest hothers)
      · cases hrender

end

/-- Whether the specifiers of a module are allowed ones, and it ends in its code. -/
def isChecked (fields : List (String × Form)) (pieces : List Piece) (allowed : List Pattern) :
    Bool :=
  (checkAll fields (.exactly {}) pieces).any fun last =>
    last.1.isCode && last.2.all (· ∈ allowed)

/-- Whatever a checked template is rendered with, no string of the module is broken and its
specifiers are allowed ones. -/
theorem specifiers_of_isChecked {fields : List (String × Form)} {nodes : List Node}
    {allowed : List Pattern} (h : isChecked fields (spellAll nodes) allowed = true) {context : Json}
    (hfits : Form.Fits names (.record fields) context) {text : String}
    (hrender : render? nodes context = some text) :
    (({} : Lexer).read (text.toList ++ ['\n'])).1.broken = false ∧
      ∀ specifier ∈ specifiers text,
        ∃ pattern ∈ allowed, pattern.Matches names specifier.toList := by
  obtain ⟨last, hcheck, hlast⟩ := (Option.any_eq_true _ _).1 h
  rw [Bool.and_eq_true, List.all_eq_true] at hlast
  have hrender' : renderAll? { context := context } nodes = some text := by
    cases context with
    | object members => exact hrender
    | _ => cases hrender
  obtain ⟨hplace, hpatterns⟩ :=
    leads_renderAll fields { context := context } (.exactly {}) last.1 last.2 text
      (Scope.Fits.of_record hfits) nodes hcheck hrender' {} rfl
  obtain ⟨b, hb⟩ := Place.inCode_of_isCode hlast.1 hplace
  refine ⟨?_, fun specifier hspecifier => ?_⟩
  · rw [read_append, hb]
    exact broken_codeStep _ b '\n'
  · obtain ⟨cs, hcs, rfl⟩ := List.mem_map.1 hspecifier
    obtain ⟨pattern, hpattern, hmatches⟩ := hpatterns cs hcs
    exact ⟨pattern, of_decide_eq_true (hlast.2 pattern hpattern), by rwa [String.toList_ofList]⟩

end TypedClient.Template
