import TypedClient.Proofs.Model.Populated
import TypedClient.Proofs.Naming.TypeName

/-!
# Members of enumerations

An enumeration has one member for each of its values, `null` apart: what is listed again adds none.
The names and descriptions of members are listed beside the values, so that each is looked up at the
first place of the value in the list as it was declared (`firstPlaces`). `members_at_first_places`
says what the members are; the names that the document lists are put into the form of type names.
-/

namespace TypedClient

/-! ## Values -/

theorem Double.same_trans {x y z : Double} (hxy : x.same y = true) (hyz : y.same z = true) :
    x.same z = true := by
  simp only [same, Bool.and_eq_true, Bool.or_eq_true, beq_iff_eq] at hxy hyz ⊢
  obtain ⟨hnumber, rfl | ⟨hx, hy⟩⟩ := hxy
  · exact hyz
  · obtain ⟨_, rfl | ⟨_, hz⟩⟩ := hyz
    · exact ⟨hnumber, .inr ⟨hx, hy⟩⟩
    · exact ⟨hnumber, .inr ⟨hx, hz⟩⟩

namespace EnumValue

/-- The value as it is written. -/
def json : EnumValue → Json
  | .string s => .string s
  | .integer n => .ofInt n
  | .float x => .ofDouble x
  | .bool b => .bool b
  | .null => .null

/-- The name of the member for the value if none is listed. -/
def derivedName (value : EnumValue) : String := ((Model.memberOf? value).map (·.1)).getD ""

theorem memberOf?_of_ne_null {value : EnumValue} (h : value ≠ .null) :
    Model.memberOf? value = some (value.derivedName, value.json) := by
  cases value with
  | null => exact absurd rfl h
  | string s => rfl
  | integer n => rfl
  | float x => rfl
  | bool b => rfl

theorem null_same {value : EnumValue} (h : value ≠ .null) : same .null value = false := by
  cases value with
  | null => exact absurd rfl h
  | string s => rfl
  | integer n => rfl
  | float x => rfl
  | bool b => rfl

/-- Only floating point numbers can be the same without being equal. -/
theorem same_cases {u v : EnumValue} (h : u.same v = true) :
    u = v ∨ ∃ x y, u = .float x ∧ v = .float y ∧ x.same y = true := by
  unfold same at h
  split at h
  · exact .inr ⟨_, _, rfl, rfl, h⟩
  · exact .inl (beq_iff_eq.1 h)

/-- What is the same as the same value is the same. -/
theorem same_trans {u v w : EnumValue} (huv : u.same v = true) (hvw : v.same w = true) :
    u.same w = true := by
  rcases same_cases huv with rfl | ⟨x, y, rfl, rfl, hxy⟩
  · exact hvw
  · rcases same_cases hvw with rfl | ⟨_, z, hy, rfl, hyz⟩
    · exact huv
    · cases hy
      exact Double.same_trans hxy hyz

end EnumValue

namespace Model

open Naming (InTurn IsTypeName typeName uniques)

/-! ## First places -/

/-- Whether no earlier value is the same as the one at a place, which is not `null`. -/
def isFirst (values : List EnumValue) (place : EnumValue × Nat) : Bool :=
  place.1 != .null && (values.take place.2).all (!·.same place.1)

/-- The values other than `null` at their first places, in order. -/
def firstPlaces (values : List EnumValue) : List (EnumValue × Nat) :=
  values.zipIdx.filter (isFirst values)

theorem mem_firstPlaces_iff {values : List EnumValue} {value : EnumValue} {index : Nat} :
    (value, index) ∈ firstPlaces values ↔ values[index]? = some value ∧ value ≠ .null ∧
      ∀ earlier < index, ∀ other, values[earlier]? = some other → other.same value = false := by
  rw [firstPlaces, List.mem_filter, List.mk_mem_zipIdx_iff_getElem?]
  refine and_congr_right fun _ => ?_
  rw [isFirst, Bool.and_eq_true, bne_iff_ne, List.all_eq_true]
  refine and_congr_right fun _ => ?_
  simp only [Bool.not_eq_true', List.mem_iff_getElem?, List.getElem?_take]
  constructor
  · intro h earlier hlt other hother
    exact h other ⟨earlier, by rw [if_pos hlt, hother]⟩
  · rintro h other ⟨earlier, hother⟩
    split at hother
    · rename_i hlt
      exact h earlier hlt other hother
    · cases hother

theorem pairwise_firstPlaces (values : List EnumValue) :
    (firstPlaces values).Pairwise fun p q => p.2 < q.2 := by
  have hplaces : (values.zipIdx.map Prod.snd).Pairwise (· < ·) := by
    rw [List.zipIdx_map_snd]
    exact List.pairwise_lt_range'
  exact (List.pairwise_map.1 hplaces).filter _

/-! ## Members -/

/-- The name that the member for the value at a place asks for: the one that is listed at the place,
in the form of a type name, and otherwise the one that the value suggests. -/
def preferredName (names : List String) (place : EnumValue × Nat) : String :=
  (names[place.2]?.map typeName).getD place.1.derivedName

/-- The member for the value at a place. -/
def memberAt (descriptions : List String) (place : EnumValue × Nat) (name : String) : Member :=
  { name := name, value := place.1.json, description := descriptions[place.2]? }

/-- The values that have been seen tell as much about repetitions as all values before. -/
def StandsFor (seen before : List EnumValue) : Prop :=
  ∀ value ≠ .null, seen.any (·.same value) = before.any (·.same value)

namespace StandsFor

variable {seen before : List EnumValue} {value : EnumValue}

theorem skip_null (h : StandsFor seen before) : StandsFor seen (before ++ [.null]) := by
  intro other hother
  rw [h other hother, List.any_append]
  simp [EnumValue.null_same hother]

/-- What is the same as a repeated value is the same as the one that it repeats. -/
theorem skip (h : StandsFor seen before) (hseen : seen.any (·.same value) = true) :
    StandsFor seen (before ++ [value]) := by
  intro other hother
  obtain ⟨first, hfirst, hsame⟩ := List.any_eq_true.1 hseen
  have hother' : value.same other = true → seen.any (·.same other) = true := fun hvalue =>
    List.any_eq_true.2 ⟨first, hfirst, EnumValue.same_trans hsame hvalue⟩
  rw [List.any_append, ← h other hother]
  cases hvalue : value.same other with
  | true => simp [hvalue, hother' hvalue]
  | false => simp [hvalue]

theorem keep (h : StandsFor seen before) : StandsFor (value :: seen) (before ++ [value]) := by
  intro other hother
  rw [List.any_cons, h other hother, List.any_append, Bool.or_comm]
  simp

end StandsFor

/-- The members for the values from a place on: `before` are the values in front of it. -/
theorem membersFrom_eq {names descriptions : List String} {before values seen : List EnumValue}
    {taken : List String} (hseen : StandsFor seen before) :
    membersFrom names descriptions before.length seen taken values =
      let places := (values.zipIdx before.length).filter (isFirst (before ++ values))
      (places.zip (uniques (preferredName names) taken places)).map fun (place, name) =>
        memberAt descriptions place name := by
  induction values generalizing before seen taken with
  | nil => rfl
  | cons value rest ih =>
      have hsplit : before ++ value :: rest = (before ++ [value]) ++ rest := by simp
      have hlength : before.length + 1 = (before ++ [value]).length := by simp
      have hfirst : isFirst (before ++ value :: rest) (value, before.length) =
          (value != .null && before.all (!·.same value)) := by
        rw [isFirst, List.take_left]
      dsimp only at ih ⊢
      rw [List.zipIdx_cons, List.filter_cons, hfirst]
      by_cases hnull : value = .null
      · subst hnull
        have hnone : memberOf? .null = none := rfl
        rw [membersFrom, hnone, hlength, hsplit]
        simp only [bne_self_eq_false, Bool.false_and, Bool.false_eq_true, if_false]
        exact ih hseen.skip_null
      · rw [membersFrom, EnumValue.memberOf?_of_ne_null hnull]
        dsimp only
        have hall : (value != .null && before.all (!·.same value)) =
            !seen.any (·.same value) := by
          rw [hseen value hnull, List.not_any_eq_all_not, bne_iff_ne.2 hnull, Bool.true_and]
        rw [hall]
        cases hrepeated : seen.any (·.same value) with
        | true =>
            rw [if_pos rfl, hlength, hsplit]
            exact ih (hseen.skip hrepeated)
        | false =>
            rw [if_neg Bool.false_ne_true, hlength, hsplit, ih hseen.keep]
            rfl

/-- The values that an enumeration lists are its members at their first places, and the names are
given in turn. -/
theorem membersOf_eq (s : Schema) :
    membersOf s = ((firstPlaces s.enumValues).zip
      (uniques (preferredName s.memberNames) [] (firstPlaces s.enumValues))).map
        fun (place, name) => memberAt s.memberDescriptions place name := by
  have hnothing : StandsFor [] [] := fun _ _ => rfl
  exact membersFrom_eq hnothing

theorem length_names (s : Schema) :
    (uniques (preferredName s.memberNames) [] (firstPlaces s.enumValues)).length =
      (firstPlaces s.enumValues).length := Naming.length_uniques _ _

theorem names_membersOf (s : Schema) :
    (membersOf s).map (·.name) =
      uniques (preferredName s.memberNames) [] (firstPlaces s.enumValues) := by
  rw [membersOf_eq, List.map_map]
  exact List.map_snd_zip (length_names s).le

/-- The members of an enumeration stand for the values other than `null` that are the same as none
before them, in order. Each has its value, and the description that is listed at the place of the
value. The names are different. They are given in turn: each member gets the name that is listed at
the place of its value, in the form of a type name, or else the name that the value suggests, with a
number behind it only if an earlier member has that name. A listed name that has the form of a type
name is left as it is. -/
theorem members_at_first_places (s : Schema) :
    (∀ value index, (value, index) ∈ firstPlaces s.enumValues ↔
      s.enumValues[index]? = some value ∧ value ≠ .null ∧
        ∀ earlier < index, ∀ other, s.enumValues[earlier]? = some other →
          other.same value = false) ∧
    (firstPlaces s.enumValues).Pairwise (fun p q => p.2 < q.2) ∧
    (membersOf s).map (fun m => (m.value, m.description)) =
      (firstPlaces s.enumValues).map (fun p => (p.1.json, s.memberDescriptions[p.2]?)) ∧
    ((membersOf s).map (·.name)).Nodup ∧
    InTurn (preferredName s.memberNames) []
      ((firstPlaces s.enumValues).zip ((membersOf s).map (·.name))) ∧
    ∀ name, IsTypeName name → typeName name = name := by
  refine ⟨fun _ _ => mem_firstPlaces_iff, pairwise_firstPlaces _, ?_, ?_, ?_,
    fun _ => Naming.typeName_eq_self⟩
  · have hfirst := congrArg (List.map fun p : EnumValue × Nat =>
      (p.1.json, s.memberDescriptions[p.2]?)) (List.map_fst_zip (length_names s).ge)
    rw [membersOf_eq, ← hfirst, List.map_map, List.map_map]
    rfl
  · rw [names_membersOf]
    exact Naming.nodup_uniques _ _
  · rw [names_membersOf]
    exact Naming.inTurn_uniques _ _

/-- A value for which a name with a blank is listed. -/
def busySchema : Schema where
  enumValues := [.string "a"]
  memberNames := ["in progress"]

/-- The listed name is not taken as it is. -/
theorem busySchema_not_listed :
    (membersOf busySchema).map (·.name) = ["in_progress"] ∧
      ¬ InTurn (fun place => (busySchema.memberNames[place.2]?).getD place.1.derivedName) []
        ((firstPlaces busySchema.enumValues).zip ((membersOf busySchema).map (·.name))) := by
  have hnames : (membersOf busySchema).map (·.name) = ["in_progress"] := by decide
  refine ⟨hnames, fun h => ?_⟩
  have hgiven := h.map_snd_eq
  rw [hnames] at hgiven
  exact absurd hgiven (by decide)

end Model

end TypedClient
