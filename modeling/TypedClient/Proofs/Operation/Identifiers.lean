import Mathlib.Data.List.Nodup
import Mathlib.Data.List.Perm.Subperm
import TypedClient.Operation.Build
import TypedClient.Proofs.Naming.Repeated
import TypedClient.Proofs.Naming.Unique

/-!
# The identifiers of arguments

The parameters in the path get their identifiers first, and the others get identifiers that
are free among those. Put back into the order of the parameters, no two of them are the
same: `nodup_identifiers`.
-/

namespace TypedClient.Operation

open Document (Parameter)

theorem assignIdentifiers_eq (taken names : List String) :
    assignIdentifiers taken names = Naming.uniques Naming.valueName taken names := by
  induction names generalizing taken with
  | nil => rfl
  | cons name rest ih => rw [assignIdentifiers, Naming.uniques, ih]

/-- Putting the identifiers into order uses each at most once. -/
theorem interleave_subperm (ps : List Parameter) (inPath others : List String) :
    (interleave ps inPath others).Subperm (inPath ++ others) := by
  induction ps generalizing inPath others with
  | nil => exact List.nil_subperm
  | cons p ps ih =>
      unfold interleave
      split
      · cases inPath with
        | nil => exact List.nil_subperm
        | cons name inPath => exact (List.subperm_cons name).2 (ih inPath others)
      · cases others with
        | nil => exact List.nil_subperm
        | cons name others =>
            have hcons := (List.subperm_cons name).2 (ih inPath others)
            exact hcons.trans List.perm_middle.symm.subperm

/-- No two parameters have the same identifier. -/
theorem nodup_identifiers (ps : List Parameter) : (identifiers ps).Nodup := by
  have hnodup : ∀ inPath : List String, inPath.Nodup → ∀ names,
      (inPath ++ assignIdentifiers inPath.reverse names).Nodup := by
    intro inPath hinPath names
    rw [assignIdentifiers_eq, List.nodup_append']
    refine ⟨hinPath, Naming.nodup_uniques _ _, fun name hmem hother => ?_⟩
    exact Naming.not_mem_of_mem_uniques hother (List.mem_reverse.2 hmem)
  have hinPath : (assignIdentifiers [] ((ps.filter isInPath).map (·.name))).Nodup := by
    rw [assignIdentifiers_eq]
    exact Naming.nodup_uniques _ _
  obtain ⟨used, hperm, hsublist⟩ := interleave_subperm ps
    (assignIdentifiers [] ((ps.filter isInPath).map (·.name)))
    (assignIdentifiers (assignIdentifiers [] ((ps.filter isInPath).map (·.name))).reverse
      ((ps.filter (!isInPath ·)).map (·.name)))
  exact hperm.nodup_iff.1 (hsublist.nodup (hnodup _ hinPath _))

theorem length_interleave_le (ps : List Parameter) (inPath others : List String) :
    (interleave ps inPath others).length ≤ ps.length := by
  induction ps generalizing inPath others with
  | nil => exact Nat.le_refl _
  | cons p ps ih =>
      unfold interleave
      split
      · cases inPath with
        | nil => exact Nat.zero_le _
        | cons name inPath => exact Nat.succ_le_succ (ih inPath others)
      · cases others with
        | nil => exact Nat.zero_le _
        | cons name others => exact Nat.succ_le_succ (ih inPath others)

/-- There are no more identifiers than parameters. -/
theorem length_identifiers_le (ps : List Parameter) : (identifiers ps).length ≤ ps.length :=
  length_interleave_le ps _ _

/-- A parameter is found by its identifier. -/
theorem find?_identifier_eq {ps : List Parameter} {pair : Parameter × String}
    (h : pair ∈ ps.zip (identifiers ps)) :
    (ps.zip (identifiers ps)).find? (·.2 == pair.2) = some pair := by
  have hnodup : ((ps.zip (identifiers ps)).map (·.2)).Nodup := by
    rw [List.map_snd_zip (length_identifiers_le ps)]
    exact nodup_identifiers ps
  exact Naming.find?_name_eq hnodup h

/-- Putting the required arguments first loses none. -/
theorem requiredFirst_perm (arguments : List Argument) :
    (requiredFirst arguments).Perm arguments :=
  List.filter_append_perm _ _

end TypedClient.Operation
