import TypedClient.Proofs.Document.Blind

/-!
# Reading the parts of a document

The reader of schemas takes no notice of added members, by induction on the place of the new one
(`Schema.blind_decode`). From it the same follows for the readers of all records around schemas, up
to parameters, request bodies, responses and components.
-/

namespace TypedClient

open Decode
open Document (Role Inserts IsExtensionKey Blind)

variable {key : String} {value : Json} {site : Role}

namespace Schema

/-- The readings of a value as schemas. -/
def readings (v : Json) : Readings where
  schema := fun _ => decode v
  list := fun _ => decodeAsList v
  map := fun _ => decodeAsMap v

/-- Reads one member of a schema. -/
def readMember (s : Schema) (m : String × Json) : Result Schema :=
  match Keyword.ofName? m.1 with
  | some keyword => assign s keyword m.2 (readings m.2)
  | none => .ok s

theorem decodeMembers_eq_foldlM (s : Schema) (ms : List (String × Json)) :
    decodeMembers s ms = ms.foldlM readMember s := by
  induction ms generalizing s with
  | nil => rfl
  | cons m ms ih =>
      rw [List.foldlM_cons, decodeMembers, readMember]
      cases Keyword.ofName? m.1 with
      | none => exact ih s
      | some keyword =>
          simp only [ih]
          rfl

theorem decodeList_eq_mapM (xs : List Json) : decodeList xs = xs.mapM decode := by
  induction xs with
  | nil => rfl
  | cons v xs ih =>
      rw [List.mapM_cons, decodeList, ih]

theorem decodeMap_eq_mapM (ms : List (String × Json)) :
    decodeMap ms = ms.mapM fun (name, v) => (decode v).map (name, ·) := by
  induction ms with
  | nil => rfl
  | cons m ms ih =>
      obtain ⟨name, v⟩ := m
      rw [List.mapM_cons, decodeMap, ih]
      cases hv : decode v <;> simp [hv, Except.map, bind, Except.bind]

/-- The two values read alike as far as schemas are read from values of the role. -/
def ReadAlike (v v' : Json) : Role → Prop
  | .schema => decode v' = decode v
  | .list .schema => decodeAsList v' = decodeAsList v
  | .map .schema => decodeAsMap v' = decodeAsMap v
  | _ => True

/-- A keyword is assigned alike from objects or arrays that read alike. -/
theorem assign_eq {v v' : Json} {inner : Role} {keyword : Keyword}
    (hkeyword : Role.ofKeyword? keyword = some inner) (hins : Inserts key value site inner v v')
    (h : ReadAlike v v' inner) (s : Schema) :
    assign s keyword v' (readings v') = assign s keyword v (readings v) := by
  have hcontainers := hins.containers
  cases keyword with
  | properties | items | anyOf | oneOf | allOf | additional =>
      cases hkeyword
      rcases hcontainers with ⟨ms, ms', rfl, rfl⟩ | ⟨xs, xs', rfl, rfl⟩ <;>
        simp only [ReadAlike] at h <;> simp only [assign, readings, h]
  | _ => cases hkeyword

/-- An item of a schema may be replaced by one that its keyword reads alike. -/
theorem decodeItems_replace {keywords : List (String × Keyword)} (before after : List Json)
    {v v' : Json}
    (hv : ∀ entry, keywords[before.length]? = some entry → ∀ s,
      assign s entry.2 v' (readings v') = assign s entry.2 v (readings v))
    (index : Nat) (s : Schema) :
    decodeItems keywords index s (before ++ v' :: after) =
      decodeItems keywords index s (before ++ v :: after) := by
  induction before generalizing keywords index s with
  | nil =>
      cases keywords with
      | nil => rfl
      | cons entry keywords =>
          simp only [List.nil_append, decodeItems]
          exact congrArg (· >>= _) (hv entry rfl s)
  | cons w before ih =>
      cases keywords with
      | nil => simp [decodeItems]
      | cons entry keywords =>
          simp only [List.cons_append, decodeItems]
          exact congrArg _ (funext fun t => ih hv (index + 1) t)

theorem lookup_fields_schema (name : String) :
    Role.schema.fields.lookup name = (Keyword.ofName? name).map Role.ofKeyword? := by
  rw [Role.fields, Keyword.ofName?]
  induction Keyword.table with
  | nil => rfl
  | cons entry table ih =>
      obtain ⟨found, keyword⟩ := entry
      by_cases hname : name = found
      · simp [hname]
      · simp only [List.map_cons, List.lookup_cons, beq_false_of_ne hname, ih]

/-- A key of a document's own is no keyword. -/
theorem ofName?_eq_none (hkey : IsExtensionKey key) : Keyword.ofName? key = none := by
  rw [Keyword.ofName?, List.lookup_eq_none_iff]
  intro entry hentry
  have hmem : entry.1 ∈ Role.schema.fields.map (·.1) := by
    rw [Role.fields, List.map_map]
    exact List.mem_map_of_mem (f := (·.1)) hentry
  have hne : key ≠ entry.1 := fun heq => hkey.not_mem_fields .schema (heq ▸ hmem)
  simpa using hne

/-- The values before and after a member is added read alike. The induction is on the place of the
new member, along all roles, as schemas are read through lists and maps of schemas. -/
theorem readAlike_of_inserts (hkey : IsExtensionKey key) {role : Role} {v v' : Json}
    (h : Inserts key value site role v v') : ReadAlike v v' role := by
  induction h with
  | here before after hsite =>
      unfold ReadAlike
      split
      · show decodeMembers {} _ = decodeMembers {} _
        simp only [decodeMembers_eq_foldlM, List.foldlM_append, List.foldlM_cons, readMember,
          ofName?_eq_none hkey]
        rfl
      · cases hsite
      · cases hsite
      · trivial
  | @member role inner v v' name before after hrole hinner ih =>
      unfold ReadAlike
      split
      · have hmember : ∀ s, readMember s (name, v') = readMember s (name, v) := by
          intro s
          unfold readMember
          cases hname : Keyword.ofName? name with
          | none => rfl
          | some keyword =>
              have hkeyword : (Role.schema.fields.lookup name).getD (some .unread) =
                some inner := hrole
              rw [lookup_fields_schema, hname, Option.map_some, Option.getD_some] at hkeyword
              exact assign_eq hkeyword hinner ih s
        show decodeMembers {} _ = decodeMembers {} _
        simp only [decodeMembers_eq_foldlM, List.foldlM_append, List.foldlM_cons, hmember]
      · cases hrole
      · obtain rfl := Option.some.inj hrole
        show decodeMap _ = decodeMap _
        rw [decodeMap_eq_mapM, decodeMap_eq_mapM]
        refine mapM_replace _ ?_ before after
        exact congrArg (Except.map (name, ·)) ih
      · trivial
  | @item role inner v v' before after hrole hinner ih =>
      unfold ReadAlike
      split
      · refine decodeItems_replace before after (fun entry hentry s => ?_) 0 {}
        have hkeyword : (Role.schema.fields[before.length]?).bind (·.2) = some inner := hrole
        rw [Role.fields, List.getElem?_map, hentry] at hkeyword
        exact assign_eq hkeyword hinner ih s
      · obtain rfl := Option.some.inj hrole
        show decodeList _ = decodeList _
        rw [decodeList_eq_mapM, decodeList_eq_mapM]
        exact mapM_replace decode ih before after
      · cases hrole
      · trivial
  | orRef hinner ih => trivial

theorem blind_decode (hkey : IsExtensionKey key) : Blind key value site .schema decode :=
  fun _ _ h => readAlike_of_inserts hkey h

end Schema

namespace Document

/-! ## Records around schemas -/

section Readers

variable (hkey : IsExtensionKey key)
include hkey

theorem blind_info : Blind key value site .info Info.decode :=
  blind_plainRecord hkey (by decide) (.cons fits_plain (.cons fits_plain .nil))

theorem blind_serverVariable : Blind key value site .serverVariable ServerVariable.decode := by
  refine blind_plainRecord hkey (by decide) (.cons ?_ .nil)
  exact ⟨rfl, fun s t v hst => by rfl, nofun⟩

theorem blind_server : Blind key value site .server Server.decode :=
  blind_plainRecord hkey (by decide)
    (.cons fits_plain (.cons (blind_serverVariable hkey).map.fits .nil))

theorem blind_mediaType : Blind key value site .mediaType MediaType.decode :=
  blind_plainRecord hkey (by decide) (.cons (Schema.blind_decode hkey).optional.fits .nil)

theorem blind_content : Blind key value site (.map .mediaType) Content.decode :=
  (blind_mediaType hkey).map

theorem blind_parameter : Blind key value site .parameter Parameter.decode :=
  blind_plainRecord hkey (by decide)
    (.cons fits_plain (.cons fits_plain (.cons fits_plain (.cons fits_plain (.cons fits_plain
      (.cons (Schema.blind_decode hkey).optional.fits
        (.cons (blind_content hkey).optional.fits .nil)))))))

theorem blind_requestBody : Blind key value site .requestBody RequestBody.decode :=
  blind_plainRecord hkey (by decide)
    (.cons fits_plain (.cons fits_plain (.cons (blind_content hkey).fits .nil)))

theorem blind_header : Blind key value site .header Header.decode :=
  blind_plainRecord hkey (by decide)
    (.cons fits_plain (.cons (Schema.blind_decode hkey).optional.fits .nil))

theorem blind_response : Blind key value site .response Response.decode :=
  blind_plainRecord hkey (by decide)
    (.cons fits_plain (.cons (blind_content hkey).fits
      (.cons ((blind_header hkey).orRef hkey (by decide)).map.fits .nil)))

theorem blind_components : Blind key value site .components Components.decode :=
  blind_plainRecord hkey (by decide)
    (.cons (Schema.blind_decode hkey).map.fits
      (.cons ((blind_response hkey).orRef hkey (by decide)).map.fits
        (.cons ((blind_parameter hkey).orRef hkey (by decide)).map.fits
          (.cons ((blind_requestBody hkey).orRef hkey (by decide)).map.fits .nil))))

end Readers

end Document

end TypedClient
