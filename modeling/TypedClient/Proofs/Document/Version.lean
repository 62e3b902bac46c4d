import TypedClient.Document.Decode
import TypedClient.Document.Version
import TypedClient.Proofs.Decode.Record

/-!
# Declared versions and documents

The version is looked at before a document is read, and there any text of it will do, also that of a
number and that of the member `swagger`. The document itself wants a string. So of the trees that
pass and are documents but for their version, exactly those with a string are read, and the others
are refused for their version alone: `decode_iff_declares_string`.
-/

namespace TypedClient

/-- The tree with a member of its object set. -/
def Json.withMember (tree : Json) (key : String) (value : Json) : Json :=
  match tree with
  | .object members => .object (setMember key value members)
  | tree => tree

namespace Document

/-- The documents differ at most in the version that they declare. -/
def SameContents (d d' : Document) : Prop := ∃ version, d' = { d with openapi := version }

/-- A reader that sets a part other than the version reads the same into documents of the same
contents. -/
theorem SameContents.read {α : Type} {read : Decode.Result α} (set : Document → α → Document)
    (hset : ∀ d version a, set { d with openapi := version } a =
      { set d a with openapi := version })
    {d d' t' : Document} (h : SameContents d d')
    (hread : (do return set d' (← read) : Decode.Result Document) = .ok t') :
    ∃ t, (do return set d (← read) : Decode.Result Document) = .ok t ∧ SameContents t t' := by
  obtain ⟨version, rfl⟩ := h
  obtain ⟨a, ha, hset'⟩ := Decode.bind_eq_ok_iff.1 hread
  refine ⟨set d a, Decode.bind_eq_ok_iff.2 ⟨a, ha, rfl⟩, version, ?_⟩
  rw [← hset]
  exact (Except.ok.inj hset').symm

/-- No field takes notice of the version. -/
theorem respects_fields : Decode.Respects SameContents fields := by
  intro field hfield d d' t' value h hread
  simp only [fields, List.mem_cons, List.not_mem_nil, or_false] at hfield
  rcases hfield with rfl | rfl | rfl | rfl | rfl
  · obtain ⟨text, htext, hset⟩ := Decode.bind_eq_ok_iff.1 hread
    obtain ⟨version, rfl⟩ := h
    exact ⟨_, Decode.bind_eq_ok_iff.2 ⟨text, htext, rfl⟩, text, (Except.ok.inj hset).symm⟩
  · exact h.read (fun d info => { d with info := info }) (fun _ _ _ => rfl) hread
  · exact h.read (fun d servers => { d with servers := servers }) (fun _ _ _ => rfl) hread
  · exact h.read (fun d paths => { d with paths := paths }) (fun _ _ _ => rfl) hread
  · exact h.read (fun d components => { d with components := components }) (fun _ _ _ => rfl) hread

/-- The field of the version. -/
def versionField : Decode.FieldReader Document :=
  ⟨"openapi", .needed, fun d v => return { d with openapi := ← Decode.string v }⟩

theorem find?_versionField : fields.find? (·.name == "openapi") = some versionField := rfl

theorem unnoticed_versionField :
    Decode.Unnoticed SameContents versionField Decode.string
      fun d version => { d with openapi := version } where
  read_eq _ value := by cases value <;> rfl
  left _ h := by
    obtain ⟨version, rfl⟩ := h
    exact ⟨version, rfl⟩
  right version h := by
    obtain ⟨_, rfl⟩ := h
    exact ⟨version, rfl⟩

/-! ## Versions in words -/

/-- A version that starts with neither a blank nor a point has a major version that starts with the
same character. -/
theorem head?_majorVersion {declared : String} {c : Char} {cs : List Char}
    (h : declared.toList = c :: cs) (hpoint : c ≠ '.') (hblank : Text.isBlank c = false) :
    (majorVersion declared).toList.head? = some c := by
  have hpart : declared.toList.takeWhile (· != '.') = c :: cs.takeWhile (· != '.') := by
    rw [h, List.takeWhile_cons_of_pos (by simpa using hpoint)]
  have htrim : (majorVersion declared).toList =
      Text.dropEndWhile Text.isBlank (c :: cs.takeWhile (· != '.')) := by
    rw [majorVersion, Text.trim, String.toList_ofList, String.toList_ofList, hpart,
      List.dropWhile_cons_of_neg (by simp [hblank])]
  rw [htrim, Text.dropEndWhile, List.reverse_cons, List.dropWhile_append]
  split
  · simp [hblank]
  · simp

/-- What declares a third major version without being a string is a number. -/
theorem number_of_majorVersion {value : Json} (h : majorVersion value.compact = "3")
    (hstring : ∀ s, value ≠ .string s) : ∃ n, value = .number n := by
  have hbracket : ∀ {c cs}, value.compact.toList = c :: cs → c ≠ '.' → Text.isBlank c = false →
      c = '3' := by
    intro c cs hcompact hpoint hblank
    have hhead := head?_majorVersion hcompact hpoint hblank
    rw [h] at hhead
    exact (Option.some.inj hhead).symm
  cases value with
  | null => exact absurd h (by decide)
  | bool b => cases b <;> exact absurd h (by decide)
  | number n => exact ⟨n, rfl⟩
  | string s => exact absurd rfl (hstring s)
  | array items =>
      have hcompact : (Json.array items).compact.toList =
          '[' :: (Json.joinWith "," (Json.compactItems items) ++ "]").toList := by
        simp [Json.compact]
      exact absurd (hbracket hcompact (by decide) (by decide)) (by decide)
  | object members =>
      have hcompact : (Json.object members).compact.toList =
          '\x7b' :: (Json.joinWith "," (Json.compactMembers members) ++ "\x7d").toList := by
        simp [Json.compact]
      exact absurd (hbracket hcompact (by decide) (by decide)) (by decide)

theorem majorVersion_of_checkVersion {tree : Json} (h : checkVersion tree = .ok ()) :
    majorVersion (declaredVersion tree) = "3" := by
  unfold checkVersion at h
  simp only at h
  split at h
  · cases h
  · split at h
    · assumption
    · cases h

/-- A tree that passes is an object. -/
theorem exists_object_of_checkVersion {tree : Json} (h : checkVersion tree = .ok ()) :
    ∃ members, tree = .object members := by
  have hmajor := majorVersion_of_checkVersion h
  cases tree with
  | object members => exact ⟨members, rfl⟩
  | _ =>
      have hempty : majorVersion "" = "3" := hmajor
      exact absurd hempty (by decide)

/-- A tree that passes declares its version by a string or a number, or by the member of older
documents alone. -/
theorem declares_of_checkVersion {tree : Json} (h : checkVersion tree = .ok ()) :
    (∃ version, tree.member? "openapi" = some (.string version)) ∨
      (∃ n, tree.member? "openapi" = some (.number n)) ∨
      (tree.member? "openapi" = none ∧ (tree.member? "swagger").isSome) := by
  have hmajor := majorVersion_of_checkVersion h
  cases hmember : tree.member? "openapi" with
  | none =>
      cases hswagger : tree.member? "swagger" with
      | none =>
          rw [declaredVersion, hmember, hswagger] at hmajor
          exact absurd hmajor (by decide)
      | some _ => exact .inr (.inr ⟨rfl, rfl⟩)
  | some value =>
      rw [declaredVersion, hmember, Option.some_or] at hmajor
      by_cases hstring : ∃ version, value = .string version
      · obtain ⟨version, rfl⟩ := hstring
        exact .inl ⟨version, rfl⟩
      · have hcompact : majorVersion value.compact = "3" := by
          cases value with
          | string version => exact absurd ⟨version, rfl⟩ hstring
          | _ => exact hmajor
        obtain ⟨n, rfl⟩ := number_of_majorVersion hcompact fun version heq =>
          hstring ⟨version, heq⟩
        exact .inr (.inl ⟨n, rfl⟩)

/-! ## Passing and being read -/

/-- Of the trees that pass and are documents once their version is set to a string, those that have
a string there themselves are read, with the same contents. The others have a number there, or only
the member of older documents, and are refused for it. -/
theorem decode_iff_declares_string {tree : Json} {d₀ : Document}
    (hpass : checkVersion tree = .ok ())
    (hset : decode (tree.withMember "openapi" (.string "3.0.0")) = .ok d₀) :
    ((∃ d, decode tree = .ok d) ↔ ∃ version, tree.member? "openapi" = some (.string version)) ∧
      (∀ d, decode tree = .ok d → SameContents d d₀) ∧
      ∀ e, decode tree = .error e →
        (∃ n, tree.member? "openapi" = some (.number n) ∧
          e = .wrongType (Json.number n).found "a string") ∨
        (tree.member? "openapi" = none ∧ (tree.member? "swagger").isSome ∧
          e = .missingField "openapi") := by
  have hdeclares := declares_of_checkVersion hpass
  obtain ⟨members, rfl⟩ := exists_object_of_checkVersion hpass
  obtain ⟨hnone, hsome⟩ := Decode.record_of_setMember respects_fields unnoticed_versionField
    find?_versionField rfl ⟨"", rfl⟩ hset
  rcases hdeclares with ⟨version, hmember⟩ | ⟨n, hmember⟩ | ⟨hmember, hswagger⟩
  · obtain ⟨d, hd, hsame⟩ : ∃ d, decode (.object members) = .ok d ∧ SameContents d d₀ :=
      (hsome _ hmember).2 version rfl
    refine ⟨by simp [hd, hmember], fun d' hd' => ?_, fun e he => ?_⟩
    · exact Except.ok.inj (hd.symm.trans hd') ▸ hsame
    · cases hd.symm.trans he
  · have hwrong : decode (.object members) =
        .error (.wrongType (Json.number n).found "a string") := (hsome _ hmember).1 _ rfl
    refine ⟨by simp [hwrong, hmember], by simp [hwrong], fun e he => .inl ⟨n, hmember, ?_⟩⟩
    exact Except.error.inj (he.symm.trans hwrong)
  · have hmissing : decode (.object members) = .error (.missingField "openapi") := hnone hmember
    refine ⟨by simp [hmissing, hmember], by simp [hmissing], fun e he =>
      .inr ⟨hmember, hswagger, ?_⟩⟩
    exact Except.error.inj (he.symm.trans hmissing)

/-- A document without operations that declares its version by the given value. -/
def declaring (version : Json) : Json :=
  .object [("openapi", version), ("info", .object [("title", .string "t"), ("version", .string "1")]),
    ("paths", .object [])]

theorem decode_declaring_string (version : String) :
    decode (declaring (.string version)) =
      .ok { openapi := version, info := { title := "t", version := "1" } } := rfl

theorem decode_iff_declares_string_declaring :
    checkVersion (declaring (.string " 3.1.0")) = .ok () ∧
      (declaring (.string " 3.1.0")).member? "openapi" = some (.string " 3.1.0") ∧
      ∃ d, decode (declaring (.string " 3.1.0")) = .ok d := by
  have hpass : checkVersion (declaring (.string " 3.1.0")) = .ok () := by decide +kernel
  have hdecodes := (decode_iff_declares_string hpass (decode_declaring_string "3.0.0")).1
  exact ⟨hpass, rfl, hdecodes.2 ⟨" 3.1.0", rfl⟩⟩

/-- A version that is written without quotes passes and is refused afterwards. -/
theorem not_decoded_unquoted :
    checkVersion (declaring (.number (.float (.ofInt 3)))) = .ok () ∧
      (∃ d, decode ((declaring (.number (.float (.ofInt 3)))).withMember "openapi"
        (.string "3.0.0")) = .ok d) ∧
      ¬ ∃ d, decode (declaring (.number (.float (.ofInt 3)))) = .ok d := by
  refine ⟨by decide +kernel, ⟨_, decode_declaring_string "3.0.0"⟩, ?_⟩
  rintro ⟨d, hd⟩
  have hwrong : decode (declaring (.number (.float (.ofInt 3)))) =
      .error (.wrongType (.float (.ofInt 3)) "a string") := rfl
  cases hwrong.symm.trans hd

end Document

end TypedClient
