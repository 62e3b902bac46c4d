import TypedClient.Operation.Status
import TypedClient.Proofs.Document.BlindParts

/-!
# What the client is made from

Responses under keys that are no status and paths without operations make no difference to the
client. The core of a document leaves them out. Adding an extension member to the object of a
document's paths or to one of responses is not always tolerated, because each member is read there
(`Tolerates`). Where it is, the readers give the same cores with and without the new member
(`blind_document`); where it is not, what is read is no document, or a document with further
operations.
-/

namespace TypedClient.Document

open Decode

/-- The responses under a status. -/
def coreResponses (responses : List (String × RefOr Response)) : List (String × RefOr Response) :=
  responses.filter fun (key, _) => (Status.ofKey? key).isSome

/-- The operation with its responses under a status only. -/
def Operation.core (o : Operation) : Operation := { o with responses := coreResponses o.responses }

/-- The path item with the cores of its operations. -/
def PathItem.core (item : PathItem) : PathItem :=
  { item with operations := item.operations.map fun (method, o) => (method, o.core) }

/-- The paths with operations, with the cores of these. -/
def corePaths (paths : List (String × PathItem)) : List (String × PathItem) :=
  (paths.filter fun (_, item) => !item.operations.isEmpty).map fun (path, item) => (path, item.core)

/-- The document with the core of its paths. -/
def core (d : Document) : Document := { d with paths := corePaths d.paths }

/-- Whether a further member with the value is tolerated in an object of the role. Among the paths
every member is read as a path item, which must be one without operations, and among responses every
member is read as a response. -/
def Tolerates (site : Role) (value : Json) : Prop :=
  match site with
  | .paths => ∃ item, PathItem.decode value = .ok item ∧ item.operations = []
  | .responses => ∃ response, RefOr.decode Response.decode value = .ok response
  | _ => True

namespace IsExtensionKey

variable {key : String}

/-- An extension is no status. -/
theorem ofKey?_status_eq_none (h : IsExtensionKey key) : Status.ofKey? key = none := by
  obtain ⟨rest, hrest⟩ := h.starts
  have hlist : key.toList = 'x' :: '-' :: rest := hrest.symm
  have hdefault : key ≠ "default" := h.ne_of_not_starts (by decide)
  have hnumber : Status.number? key.toList = none := by
    rw [hlist]
    simp [Status.number?]
  have hrange : Status.range? key.toList = none := by
    rw [hlist]
    simp [Status.range?]
  rw [Status.ofKey?, if_neg hdefault, hnumber, hrange]
  rfl

/-- An extension is no method. -/
theorem ofKey?_method_eq_none (h : IsExtensionKey key) : Method.ofKey? key = none := by
  rw [Method.ofKey?, List.find?_eq_none]
  intro method _ hfound
  have hmethod : ['x', '-'].isPrefixOf method.key.toList = false := by
    cases method <;> decide
  have heq : method.key = key := by simpa using hfound
  exact h.ne_of_not_starts hmethod heq.symm

theorem ne_parameters (h : IsExtensionKey key) : key ≠ "parameters" :=
  h.ne_of_not_starts (by decide)

end IsExtensionKey

section Readers

variable {key : String} {value : Json} {site : Role} (hkey : IsExtensionKey key)
  (htolerates : Tolerates site value)
include hkey htolerates

theorem blind_responses : Blind key value site .responses fun v =>
    (map (RefOr.decode Response.decode) v).map coreResponses := by
  intro v v' hins
  cases hins with
  | here before after hsite =>
      obtain ⟨response, hresponse⟩ := htolerates
      refine mapM_insert_view (e := coreResponses) (fun _ _ => List.filter_append _ _) _ ?_
        before after
      simp [hresponse, Except.map, coreResponses, hkey.ofKey?_status_eq_none]
  | member name before after hrole hinner =>
      obtain rfl := Option.some.inj hrole
      have hread := (blind_response hkey).orRef hkey (by decide) _ _ hinner
      refine congrArg (Except.map coreResponses) (mapM_replace _ ?_ before after)
      exact congrArg (Except.map (name, ·)) hread
  | item before after hrole hinner => cases hrole

theorem blind_operation : Blind key value site .operation fun v =>
    (Operation.decode v).map Operation.core :=
  blind_record hkey (by decide)
    (.cons (fits_of_set fun _ _ => rfl) (.cons (fits_of_set fun _ _ => rfl)
      (.cons (fits_of_set fun _ _ => rfl) (.cons (fits_of_set fun _ _ => rfl)
        (.cons (fits_of_set fun _ _ => rfl)
          (.cons (((blind_parameter hkey).orRef hkey (by decide)).list.map_id.fits_of_set
              fun _ _ => rfl)
            (.cons (((blind_requestBody hkey).orRef hkey (by decide)).optional.map_id.fits_of_set
                fun _ _ => rfl)
              (.cons ((blind_responses hkey htolerates).fits_of_set fun _ _ => rfl) .nil))))))))

omit hkey htolerates in
/-- A member of a path item takes no notice of what the core leaves out. -/
theorem respects_member (s t : PathItem) (m : String × Json) (hst : s.core = t.core) :
    (s.member m.1 m.2).map PathItem.core = (t.member m.1 m.2).map PathItem.core := by
  obtain ⟨hoperations, hparameters⟩ := PathItem.mk.inj hst
  unfold PathItem.member
  split
  · refine map_bind_congr_right fun parameters => congrArg Except.ok ?_
    exact congrArg₂ PathItem.mk hoperations rfl
  · split
    · refine map_bind_congr_right fun o => congrArg Except.ok ?_
      refine congrArg₂ PathItem.mk ?_ hparameters
      rw [List.map_append, List.map_append, hoperations]
    · exact congrArg Except.ok hst

theorem blind_pathItem : Blind key value site .pathItem fun v =>
    (PathItem.decode v).map PathItem.core := by
  intro v v' hins
  cases hins with
  | here before after hsite =>
      refine foldlM_insert respects_member (fun s => ?_) {} before after
      simp [PathItem.member, hkey.ne_parameters, hkey.ofKey?_method_eq_none, Except.map]
  | member name before after hrole hinner =>
      refine foldlM_replace respects_member (fun s => ?_) {} before after
      obtain rfl := Option.some.inj hrole
      unfold Role.ofPathItemKey at hinner
      unfold PathItem.member
      simp only
      split at hinner
      · rename_i hname
        rw [if_pos hname, if_pos hname,
          ((blind_parameter hkey).orRef hkey (by decide)).list _ _ hinner]
      · rename_i hname
        rw [if_neg hname, if_neg hname]
        cases hmethod : Method.ofKey? name with
        | none => rfl
        | some method =>
            rw [hmethod] at hinner
            refine map_bind_congr (blind_operation hkey htolerates _ _ hinner) fun o p hop => ?_
            refine congrArg Except.ok (congrArg₂ PathItem.mk ?_ rfl)
            rw [List.map_append, List.map_append]
            exact congrArg (fun o => _ ++ [(method, o)]) hop
  | item before after hrole hinner => cases hrole

omit hkey htolerates in
theorem corePaths_append (ps qs : List (String × PathItem)) :
    corePaths (ps ++ qs) = corePaths ps ++ corePaths qs := by
  rw [corePaths, List.filter_append, List.map_append]
  rfl

omit hkey htolerates in
/-- Of a path item the core of the paths shows its core. -/
theorem corePaths_singleton_congr (path : String) {item item' : PathItem}
    (h : item.core = item'.core) : corePaths [(path, item)] = corePaths [(path, item')] := by
  have hempty : item.operations.isEmpty = item'.operations.isEmpty := by
    have hmap := congrArg (fun item => item.operations.isEmpty) h
    simpa [PathItem.core] using hmap
  cases hitem : item'.operations.isEmpty <;> simp [corePaths, hempty, hitem, h]

theorem blind_paths : Blind key value site .paths fun v =>
    (map PathItem.decode v).map corePaths := by
  intro v v' hins
  cases hins with
  | here before after hsite =>
      obtain ⟨item, hitem, hnone⟩ := htolerates
      refine mapM_insert_view corePaths_append _ ?_ before after
      simp [hitem, Except.map, corePaths, hnone]
  | member name before after hrole hinner =>
      obtain rfl := Option.some.inj hrole
      refine mapM_replace_view corePaths_append _ ?_ before after
      have hentry : ∀ v : Json, (((PathItem.decode v).map (name, ·)).map fun a => corePaths [a]) =
          (PathItem.decode v).map fun item => corePaths [(name, item)] := by
        intro v
        cases PathItem.decode v <;> rfl
      show Except.map _ (Except.map _ _) = Except.map _ (Except.map _ _)
      rw [hentry, hentry]
      exact map_eq_of_map_eq (blind_pathItem hkey htolerates _ _ hinner) fun item item' =>
        corePaths_singleton_congr name
  | item before after hrole hinner => cases hrole

theorem blind_document : Blind key value site .document fun v => (decode v).map core :=
  blind_record hkey (by decide)
    (.cons (fits_of_set fun _ _ => rfl)
      (.cons ((blind_info hkey).map_id.fits_of_set fun _ _ => rfl)
        (.cons ((blind_server hkey).list.map_id.fits_of_set fun _ _ => rfl)
          (.cons ((blind_paths hkey htolerates).fits_of_set fun _ _ => rfl)
            (.cons ((blind_components hkey).optional.map_id.fits_of_set fun _ _ => rfl) .nil)))))

end Readers

end TypedClient.Document
