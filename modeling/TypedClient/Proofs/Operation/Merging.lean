import TypedClient.Proofs.Document.Chain
import TypedClient.Proofs.Operation.Views

/-!
# Merged parameters

An operation declares a parameter anew by its name and its location. What it declares replaces what
its path declares, and a later declaration of its own replaces an earlier one. The loop that
replaces and appends, one parameter after the other, ends with the parameters that are not declared
again, in order: `mergeParameters_eq_append_lastDeclared`.
-/

namespace TypedClient.Operation

open Document (RefOr Parameter)

/-- One of the parameters has the name and the location of this one. -/
def DeclaredAgain (p : Parameter) (later : List Parameter) : Prop :=
  ∃ q ∈ later, q.name = p.name ∧ q.location = p.location

instance (p : Parameter) (later : List Parameter) : Decidable (DeclaredAgain p later) :=
  inferInstanceAs (Decidable (∃ q ∈ later, q.name = p.name ∧ q.location = p.location))

/-- The parameters that are not declared again behind their own place. -/
def lastDeclared : List Parameter → List Parameter
  | [] => []
  | p :: later => if DeclaredAgain p later then lastDeclared later else p :: lastDeclared later

theorem not_declaredAgain_iff {p : Parameter} {later : List Parameter} :
    ¬ DeclaredAgain p later ↔ ∀ q ∈ later, sameParameter p q = false := by
  simp only [DeclaredAgain, not_exists, not_and]
  refine forall₂_congr fun q _ => ?_
  rw [← Bool.not_eq_true, sameParameter, Bool.and_eq_true, beq_iff_eq, beq_iff_eq, not_and,
    eq_comm (a := q.name), eq_comm (a := q.location)]

/-- To differ from the parameters that are kept is to differ from all of them. -/
theorem forall_mem_lastOfEach_iff (p : Parameter) (ps : List Parameter) :
    (∀ q ∈ lastOfEach ps, sameParameter p q = false) ↔ ∀ q ∈ ps, sameParameter p q = false := by
  refine List.forall_mem_pwFilter (fun {p r q} hpq => ?_) p ps
  by_contra hsame
  rw [not_or, Bool.not_eq_false, Bool.not_eq_false] at hsame
  have hpq' := sameParameter_of_sameParameter hsame.1 (sameParameter_comm r q ▸ hsame.2)
  simp [hpq] at hpq'

theorem lastOfEach_eq_lastDeclared (ps : List Parameter) : lastOfEach ps = lastDeclared ps := by
  induction ps with
  | nil => rfl
  | cons p later ih =>
      have hiff := (forall_mem_lastOfEach_iff p later).trans not_declaredAgain_iff.symm
      unfold lastDeclared lastOfEach
      by_cases hagain : DeclaredAgain p later
      · rw [if_pos hagain, List.pwFilter_cons_of_neg fun hall => hiff.1 hall hagain]
        exact ih
      · rw [if_neg hagain, List.pwFilter_cons_of_pos (hiff.2 hagain)]
        exact congrArg (p :: ·) ih

/-- The merged parameters are those of the path that the operation does not declare again, in
order, and then those of the operation that it does not declare again later, in order. Items count
as the parameters that they lead to over at most fifteen components, and not at all if they lead to
none. -/
theorem mergeParameters_eq_append_lastDeclared (d : Document)
    (shared own : List (RefOr Parameter)) :
    mergeParameters d shared own =
        (shared.filterMap d.parameter?).filter
          (fun p => ¬ DeclaredAgain p (own.filterMap d.parameter?)) ++
        lastDeclared (own.filterMap d.parameter?) ∧
      ∀ item p, d.parameter? item = some p ↔
        ∃ keys, Document.Leads d.sharedParameters item keys p ∧ keys.length ≤ 15 := by
  refine ⟨?_, fun item p => ?_⟩
  · rw [mergeParameters_eq, lastOfEach_eq_lastDeclared]
    congr 1
    refine List.filter_congr fun p _ => ?_
    rw [Bool.eq_iff_iff, decide_eq_true_iff, not_declaredAgain_iff, List.all_eq_true]
    simp only [Bool.not_eq_true']
  · rw [Document.parameter?_eq_some_iff]
    exact exists_congr fun keys => and_congr_right fun _ => Nat.lt_succ_iff

end TypedClient.Operation
