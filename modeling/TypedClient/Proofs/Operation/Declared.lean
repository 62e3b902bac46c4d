import TypedClient.Document.Decode
import TypedClient.Proofs.Decode.Record
import TypedClient.Proofs.Operation.Sources

/-!
# The operations that a tree declares

A path item is read member by member. What stands under a method becomes an operation, and the other
members declare none. `declaredIn` lists the members under methods for a whole tree of paths, and
`forall₂_declarations` says that the declarations of a document are read from them, one by one and
in the same order.
-/

namespace TypedClient.Operation

open Document (PathItem)

/-- The members of a path item that stand under a method. -/
def methodMembers : Json → List (Method × Json)
  | .object members =>
    members.filterMap fun (key, value) => (Method.ofKey? key).map fun method => (method, value)
  | _ => []

/-- The operations in a tree of paths, each with its path and its method, in order. -/
def declaredIn : Json → List (String × Method × Json)
  | .object paths => paths.flatMap fun (path, item) => (methodMembers item).map (path, ·)
  | _ => []

/-- The declaration is read from the entry of a tree of paths. -/
structure Declaration.ReadFrom (entry : String × Method × Json) (x : Declaration) : Prop where
  path_eq : x.path = entry.1
  method_eq : x.method = entry.2.1
  decode_eq : Document.Operation.decode entry.2.2 = .ok x.op

/-- The operation is read from the member under its method. -/
def ReadsAs (entry : Method × Json) (found : Method × Document.Operation) : Prop :=
  found.1 = entry.1 ∧ Document.Operation.decode entry.2 = .ok found.2

theorem methodMembers_cons (key : String) (value : Json) (members : List (String × Json)) :
    methodMembers (.object ((key, value) :: members)) =
      ((Method.ofKey? key).map fun method => (method, value)).toList ++
        methodMembers (.object members) := by
  cases hmethod : Method.ofKey? key <;> simp [methodMembers, hmethod]

/-- Reading a member adds an operation exactly if the member stands under a method. -/
theorem operations_of_member {item item' : PathItem} {key : String} {value : Json}
    (h : item.member key value = .ok item') :
    ∃ added, item'.operations = item.operations ++ added ∧
      List.Forall₂ ReadsAs
        ((Method.ofKey? key).map fun method => (method, value)).toList added := by
  unfold PathItem.member at h
  split at h
  · -- The shared parameters do not stand under a method.
    rename_i hkey
    have hmethod : Method.ofKey? key = none := by
      rw [hkey]
      decide
    obtain ⟨parameters, _, hitem⟩ := Decode.bind_eq_ok_iff.1 h
    obtain rfl := Except.ok.inj hitem
    exact ⟨[], (List.append_nil _).symm, by simp [hmethod]⟩
  · split at h
    · rename_i method hmethod
      obtain ⟨op, hop, hitem⟩ := Decode.bind_eq_ok_iff.1 h
      obtain rfl := Except.ok.inj hitem
      refine ⟨[(method, op)], rfl, ?_⟩
      rw [hmethod]
      exact .cons ⟨rfl, hop⟩ .nil
    · rename_i hmethod
      obtain rfl := Except.ok.inj h
      exact ⟨[], (List.append_nil _).symm, by simp [hmethod]⟩

/-- Reading members adds the operations that stand under methods, in order. -/
theorem operations_of_members {item item' : PathItem} {members : List (String × Json)}
    (h : members.foldlM (fun item (key, value) => item.member key value) item = .ok item') :
    ∃ added, item'.operations = item.operations ++ added ∧
      List.Forall₂ ReadsAs (methodMembers (.object members)) added := by
  induction members generalizing item with
  | nil =>
      obtain rfl := Except.ok.inj h
      exact ⟨[], (List.append_nil _).symm, .nil⟩
  | cons m members ih =>
      obtain ⟨key, value⟩ := m
      rw [List.foldlM_cons, Decode.bind_eq_ok_iff] at h
      obtain ⟨next, hmember, hrest⟩ := h
      obtain ⟨first, hfirst, hreads⟩ := operations_of_member hmember
      obtain ⟨others, hothers, hreadsOthers⟩ := ih hrest
      refine ⟨first ++ others, by rw [hothers, hfirst, List.append_assoc], ?_⟩
      rw [methodMembers_cons]
      exact List.rel_append hreads hreadsOthers

/-- The operations of a path item are what stands under methods in its tree. -/
theorem forall₂_operations {tree : Json} {item : PathItem} (h : PathItem.decode tree = .ok item) :
    List.Forall₂ ReadsAs (methodMembers tree) item.operations := by
  cases tree with
  | object members =>
      obtain ⟨added, hadded, hreads⟩ := operations_of_members h
      rw [hadded]
      exact hreads
  | _ => cases h

/-- The declarations of a document are read from the operations in its tree of paths. -/
theorem forall₂_declarations {d : Document} {tree : Json}
    (h : Decode.map PathItem.decode tree = .ok d.paths) :
    List.Forall₂ (fun entry x => Declaration.ReadFrom entry x) (declaredIn tree)
      (declarations d) := by
  cases tree with
  | object paths =>
      have hpaths : List.Forall₂ (fun entry found => entry.1 = found.1 ∧
          PathItem.decode entry.2 = .ok found.2) paths d.paths := by
        refine (Decode.mapM_eq_ok_iff.1 h).imp ?_
        rintro ⟨path, item⟩ found hfound
        cases hitem : PathItem.decode item with
        | error e => simp [hitem, Except.map] at hfound
        | ok decoded =>
            obtain rfl : (path, decoded) = found := by simpa [hitem, Except.map] using hfound
            exact ⟨rfl, rfl⟩
      refine List.rel_flatMap hpaths ?_
      rintro ⟨path, item⟩ ⟨path', decoded⟩ ⟨rfl, hitem⟩
      rw [List.forall₂_map_left_iff, List.forall₂_map_right_iff]
      exact (forall₂_operations hitem).imp fun _ _ hreads => ⟨rfl, hreads.1, hreads.2⟩
  | _ => cases h

end TypedClient.Operation
