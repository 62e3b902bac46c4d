import Mathlib.Data.List.Forall2
import Mathlib.Data.List.Induction
import Mathlib.Data.List.Pairwise
import TypedClient.Proofs.Operation.Sources

/-!
# The views of an operation

An operation stores each argument twice and each outcome twice: in one list of all of them, and in
the list of the place or of the success. `Views` says that these lists are views of one list of
arguments and of the responses that are declared. The operation that is built has them
(`views_build`), and whoever changes its models leaves them (`Views.mapModels`). The order of the
arguments is that of the merged parameters (`mergeParameters_eq`), the required ones first
(`requiredFirst_eq_mergeSort`).
-/

namespace TypedClient.Operation

open Document (RefOr Parameter)

/-! ## Required ones first -/

/-- An optional argument must not stand before a required one. -/
def mayPrecede (a b : Argument) : Bool := a.model.isRequired || !b.model.isRequired

theorem mayPrecede_trans (a b c : Argument) (hab : mayPrecede a b = true)
    (hbc : mayPrecede b c = true) : mayPrecede a c = true := by
  simp only [mayPrecede, Bool.or_eq_true, Bool.not_eq_eq_eq_not, Bool.not_true] at hab hbc ⊢
  rcases hab with ha | hb
  · exact .inl ha
  · exact .inr (hbc.resolve_left (by simp [hb]))

theorem mayPrecede_total (a b : Argument) : (mayPrecede a b || mayPrecede b a) = true := by
  unfold mayPrecede
  cases a.model.isRequired <;> simp

theorem pairwise_requiredFirst (as : List Argument) :
    (requiredFirst as).Pairwise fun a b => mayPrecede a b = true := by
  rw [requiredFirst, List.pairwise_append]
  refine ⟨?_, ?_, ?_⟩
  · exact List.pairwise_of_forall_mem_list fun a ha b _ => by
      simp [mayPrecede, (List.mem_filter.1 ha).2]
  · exact List.pairwise_of_forall_mem_list fun a _ b hb => by
      have hoptional := (List.mem_filter.1 hb).2
      simp_all [mayPrecede]
  · intro a ha b _
    simp [mayPrecede, (List.mem_filter.1 ha).2]

/-- Where nothing optional stands before something required, the required ones are first already. -/
theorem requiredFirst_eq_self {as : List Argument}
    (h : as.Pairwise fun a b => mayPrecede a b = true) : requiredFirst as = as := by
  induction as with
  | nil => rfl
  | cons a as ih =>
      obtain ⟨hfirst, hrest⟩ := List.pairwise_cons.1 h
      rw [requiredFirst] at ih ⊢
      by_cases ha : a.model.isRequired = true
      · have hnot : ¬ (!a.model.isRequired) = true := by simp [ha]
        rw [List.filter_cons, if_pos ha, List.filter_cons, if_neg hnot, List.cons_append, ih hrest]
      · -- Behind an optional argument there are optional ones only.
        have hnone : as.filter (·.model.isRequired) = [] := by
          rw [List.filter_eq_nil_iff]
          intro b hb hrequired
          have hab := hfirst b hb
          simp_all [mayPrecede]
        have hall := ih hrest
        rw [hnone, List.nil_append] at hall
        have hnot : (!a.model.isRequired) = true := by simpa using ha
        rw [List.filter_cons, if_neg ha, hnone, List.nil_append, List.filter_cons, if_pos hnot,
          hall]

/-- A stable sort keeps the order of those that may stand in any order. -/
theorem filter_mergeSort {as : List Argument} {p : Argument → Bool}
    (h : (as.filter p).Pairwise fun a b => mayPrecede a b = true) :
    (as.mergeSort mayPrecede).filter p = as.filter p := by
  have hsublist : (as.filter p).Sublist ((as.mergeSort mayPrecede).filter p) := by
    have hsorted := List.sublist_mergeSort mayPrecede_trans mayPrecede_total h
      List.filter_sublist
    have hfiltered := hsorted.filter p
    rwa [List.filter_filter, List.filter_congr fun a _ => Bool.and_self (p a)] at hfiltered
  -- Sorting neither adds nor loses any of them, so that the sublist is all of it.
  have hperm := (List.mergeSort_perm as mayPrecede).filter p
  exact (hsublist.eq_of_length hperm.length_eq.symm).symm

/-- Putting the required arguments first is a stable sort. -/
theorem requiredFirst_eq_mergeSort (as : List Argument) :
    requiredFirst as = as.mergeSort mayPrecede := by
  have hsorted := List.pairwise_mergeSort mayPrecede_trans mayPrecede_total as
  have hrequired : ∀ as : List Argument,
      (as.filter (·.model.isRequired)).Pairwise fun a b => mayPrecede a b = true :=
    fun as => (List.pairwise_append.1 (pairwise_requiredFirst as)).1
  have hoptional : ∀ as : List Argument,
      (as.filter (!·.model.isRequired)).Pairwise fun a b => mayPrecede a b = true :=
    fun as => (List.pairwise_append.1 (pairwise_requiredFirst as)).2.1
  -- In the sorted list the required ones stand first, in the order that they had before.
  rw [← requiredFirst_eq_self hsorted, requiredFirst, requiredFirst,
    filter_mergeSort (hrequired as), filter_mergeSort (hoptional as)]

/-! ## Merged parameters -/

theorem sameParameter_comm (p q : Parameter) : sameParameter p q = sameParameter q p := by
  rw [sameParameter, sameParameter, Bool.beq_comm, Bool.beq_comm (a := p.location)]

/-- Parameters that are the same as a third one are the same. -/
theorem sameParameter_of_sameParameter {p q r : Parameter} (hp : sameParameter p r = true)
    (hq : sameParameter q r = true) : sameParameter p q = true := by
  simp only [sameParameter, Bool.and_eq_true, beq_iff_eq] at hp hq ⊢
  exact ⟨hp.1.trans hq.1.symm, hp.2.trans hq.2.symm⟩

/-- A parameter that differs from `p` differs from the others if it differs from those that are left
when `p` takes the place of what is the same. -/
theorem differs_replaced_iff {p q : Parameter} (hne : ¬ sameParameter q p = true)
    (ps : List Parameter) :
    (∀ r ∈ ps.filter (!sameParameter · p) ++ [p], sameParameter q r = false) ↔
      ∀ r ∈ ps, sameParameter q r = false := by
  constructor
  · intro hall r hr
    by_contra hqr
    rw [Bool.not_eq_false] at hqr
    by_cases hrp : sameParameter r p = true
    · -- What is dropped for `p` is the same as `p`, and so not as `q`.
      rw [sameParameter_comm] at hrp
      exact hne (sameParameter_of_sameParameter hqr hrp)
    · have hkept := hall r (by simp [hr, hrp])
      simp [hqr] at hkept
  · intro hall r hr
    simp only [List.mem_append, List.mem_filter, List.mem_singleton] at hr
    rcases hr with hr | rfl
    · exact hall r hr.1
    · simpa using hne

/-- Of parameters that are the same the last one is kept. -/
abbrev lastOfEach (ps : List Parameter) : List Parameter :=
  ps.pwFilter fun p q => sameParameter p q = false

theorem lastOfEach_append (ps : List Parameter) (p : Parameter) :
    lastOfEach (ps ++ [p]) = (lastOfEach ps).filter (!sameParameter · p) ++ [p] := by
  induction ps with
  | nil => rfl
  | cons q ps ih =>
      rw [List.cons_append]
      by_cases hsame : sameParameter q p = true
      · -- Then `q` is dropped on the left for `p`, and on the right by the filter if it is kept.
        have hlater : ¬ ∀ r ∈ lastOfEach (ps ++ [p]), sameParameter q r = false := by
          rw [ih]
          intro hall
          have hp := hall p (by simp)
          simp [hsame] at hp
        rw [lastOfEach, List.pwFilter_cons_of_neg hlater, ← lastOfEach, ih]
        unfold lastOfEach
        by_cases hkept : ∀ r ∈ lastOfEach ps, sameParameter q r = false
        · rw [List.pwFilter_cons_of_pos hkept, List.filter_cons_of_neg (by simp [hsame])]
        · rw [List.pwFilter_cons_of_neg hkept]
      · have hiff := differs_replaced_iff hsame (lastOfEach ps)
        rw [← ih] at hiff
        unfold lastOfEach
        by_cases hkept : ∀ r ∈ lastOfEach ps, sameParameter q r = false
        · rw [List.pwFilter_cons_of_pos (hiff.2 hkept), List.pwFilter_cons_of_pos hkept,
            List.filter_cons_of_pos (by simp [hsame]), ← lastOfEach, ih, List.cons_append]
        · rw [List.pwFilter_cons_of_neg fun hall => hkept (hiff.1 hall),
            List.pwFilter_cons_of_neg hkept, ← lastOfEach, ih]

/-- The merged parameters are those of the path that the operation does not declare anew, and then
those of the operation. -/
theorem mergeParameters_eq (d : Document) (shared own : List (RefOr Parameter)) :
    mergeParameters d shared own =
      ((shared.filterMap d.parameter?).filter fun q =>
        (own.filterMap d.parameter?).all (!sameParameter q ·)) ++
      lastOfEach (own.filterMap d.parameter?) := by
  rw [mergeParameters]
  generalize shared.filterMap d.parameter? = inherited
  generalize own.filterMap d.parameter? = declared
  induction declared using List.reverseRecOn with
  | nil => simp
  | append_singleton ps p ih =>
      rw [List.foldl_append, List.foldl_cons, List.foldl_nil, ih, List.filter_append,
        List.filter_filter, lastOfEach_append, List.append_assoc]
      congr 2
      funext q
      simp [Bool.and_comm]

/-! ## Identifiers -/

/-- Every parameter gets an identifier if there are enough of both kinds. -/
theorem length_interleave {ps : List Parameter} {inPath others : List String}
    (hinPath : inPath.length = (ps.filter isInPath).length)
    (hothers : others.length = (ps.filter (!isInPath ·)).length) :
    (interleave ps inPath others).length = ps.length := by
  induction ps generalizing inPath others with
  | nil => rfl
  | cons p ps ih =>
      unfold interleave
      by_cases hp : isInPath p = true
      · rw [List.filter_cons_of_pos hp, List.length_cons] at hinPath
        rw [List.filter_cons_of_neg (by simp [hp])] at hothers
        obtain ⟨name, inPath, rfl⟩ := List.exists_cons_of_length_eq_add_one hinPath
        rw [if_pos hp, List.length_cons, List.length_cons]
        rw [List.length_cons, Nat.succ_inj] at hinPath
        rw [ih hinPath hothers]
      · rw [List.filter_cons_of_neg hp] at hinPath
        rw [List.filter_cons_of_pos (by simpa using hp), List.length_cons] at hothers
        obtain ⟨name, others, rfl⟩ := List.exists_cons_of_length_eq_add_one hothers
        rw [if_neg hp, List.length_cons, List.length_cons]
        rw [List.length_cons, Nat.succ_inj] at hothers
        rw [ih hinPath hothers]

/-- There are as many identifiers as parameters. -/
theorem length_identifiers (ps : List Parameter) : (identifiers ps).length = ps.length :=
  length_interleave (by rw [assignIdentifiers_eq, Naming.length_uniques, List.length_map])
    (by rw [assignIdentifiers_eq, Naming.length_uniques, List.length_map])

/-! ## Views -/

/-- The argument carries the value of a parameter. -/
structure Argument.Carries (a : Argument) (p : Parameter) : Prop where
  wireName : a.wireName = p.name
  place : a.place = .ofLocation p.location
  description : a.description = p.description
  isRequired : a.model.isRequired = (p.required || isInPath p)

/-- The argument carries a body. -/
structure Argument.CarriesBody (a : Argument) (source : Document.RequestBody × String × Schema) :
    Prop where
  place : a.place = .body
  description : a.description = source.1.description
  mediaType : a.mediaType = some source.2.1
  isRequired : a.model.isRequired = source.1.required

/-- The outcome stands for a response. -/
structure Outcome.StandsFor (o : Outcome)
    (response : Status × RefOr Document.Response × Document.Response) : Prop where
  status : o.status = response.1
  description : o.description = response.2.2.description
  mediaType : o.mediaType = (preferred? response.2.2.content).map (·.1)
  header : o.header = response.2.2.headers.head?.map (·.1)

/-- The lists of an operation are views of one list of arguments, with those for the merged
parameters in order and the one for the body last, and of the responses that have a status and lead
somewhere. -/
structure Views (op : Operation) (x : Declaration) (d : Document) (declared : List Argument) :
    Prop where
  path : op.path = x.path
  method : op.method = x.method
  sources : ∃ sent body, declared = sent ++ body ∧
    List.Forall₂ Argument.Carries sent (x.parameters d) ∧
    List.Forall₂ Argument.CarriesBody body (x.bodySource? d).toList
  arguments : op.arguments = declared.mergeSort mayPrecede
  pathArguments : op.pathArguments = declared.filter (·.place == .path)
  queryArguments : op.queryArguments = declared.filter (·.place == .query)
  headerArguments : op.headerArguments = declared.filter (·.place == .header)
  cookieArguments : op.cookieArguments = declared.filter (·.place == .cookie)
  bodyArgument : op.bodyArgument.toList = declared.filter (·.place == .body)
  outcomes : List.Forall₂ Outcome.StandsFor op.outcomes (x.responses d)
  successes : op.successes = op.outcomes.filter (·.status.isSuccess)
  failures : op.failures = op.outcomes.filter (!·.status.isSuccess)
  failureReasons : op.failureReasons = op.failures.map failureOf

/-- A changed model does not change where an argument is sent. -/
theorem filter_place_map (f : Model → Model) (place : Place) (as : List Argument) :
    (as.map (·.mapModel f)).filter (·.place == place) =
      (as.filter (·.place == place)).map (·.mapModel f) :=
  List.filter_map

/-- Nor the status of an outcome. -/
theorem filter_status_map (f : Model → Model) (p : Status → Bool) (os : List Outcome) :
    (os.map (·.mapModel f)).filter (fun o => p o.status) =
      (os.filter fun o => p o.status).map (·.mapModel f) :=
  List.filter_map

namespace Views

variable {op : Operation} {x : Declaration} {d : Document} {declared : List Argument}

/-- No required argument stands after an optional one. -/
theorem pairwise_arguments (h : op.Views x d declared) :
    op.arguments.Pairwise fun a b => b.model.isRequired = true → a.model.isRequired = true := by
  rw [h.arguments]
  have hsorted := List.pairwise_mergeSort mayPrecede_trans mayPrecede_total declared
  refine hsorted.imp fun {a b} hab hb => ?_
  simpa [mayPrecede, hb] using hab

/-- The models may change if they stay required or optional. -/
theorem mapModels (h : op.Views x d declared) {f : Model → Model}
    (hf : ∀ m, (f m).isRequired = m.isRequired) :
    (op.mapModels f).Views x d (declared.map (·.mapModel f)) where
  path := h.path
  method := h.method
  sources := by
    obtain ⟨sent, body, heq, hsent, hbody⟩ := h.sources
    refine ⟨sent.map (·.mapModel f), body.map (·.mapModel f), by rw [heq, List.map_append], ?_, ?_⟩
    · refine List.forall₂_map_left_iff.2 (hsent.imp fun a p ha => ?_)
      exact ⟨ha.wireName, ha.place, ha.description, (hf a.model).trans ha.isRequired⟩
    · refine List.forall₂_map_left_iff.2 (hbody.imp fun a source ha => ?_)
      exact ⟨ha.place, ha.description, ha.mediaType, (hf a.model).trans ha.isRequired⟩
  arguments := by
    have hmap : op.arguments.map (·.mapModel f) = (declared.map (·.mapModel f)).mergeSort
        mayPrecede := by
      rw [h.arguments]
      refine List.map_mergeSort fun a _ b _ => ?_
      simp only [mayPrecede, Argument.mapModel, hf]
    exact hmap
  pathArguments := by
    rw [filter_place_map, ← h.pathArguments]
    rfl
  queryArguments := by
    rw [filter_place_map, ← h.queryArguments]
    rfl
  headerArguments := by
    rw [filter_place_map, ← h.headerArguments]
    rfl
  cookieArguments := by
    rw [filter_place_map, ← h.cookieArguments]
    rfl
  bodyArgument := by
    rw [filter_place_map, ← h.bodyArgument, ← Option.toList_map]
    rfl
  outcomes := by
    refine List.forall₂_map_left_iff.2 (h.outcomes.imp fun o response ho => ?_)
    exact ⟨ho.status, ho.description, ho.mediaType, ho.header⟩
  successes := by
    have hmap := filter_status_map f Status.isSuccess op.outcomes
    rw [← h.successes] at hmap
    exact hmap.symm
  failures := by
    have hmap := filter_status_map f (!·.isSuccess) op.outcomes
    rw [← h.failures] at hmap
    exact hmap.symm
  failureReasons := by
    have hmap : op.failureReasons = (op.failures.map (·.mapModel f)).map failureOf := by
      rw [h.failureReasons, List.map_map]
      rfl
    exact hmap

/-- Imports are no part of the views. -/
theorem refreshImports (h : op.Views x d declared) :
    op.refreshImports.Views x d (declared.map (·.mapModel Model.refreshImports)) := by
  obtain ⟨hpath, hmethod, hsources, harguments, hpathArguments, hquery, hheader, hcookie, hbody,
    houtcomes, hsuccesses, hfailures, hreasons⟩ := h.mapModels Model.isRequired_refreshImports
  exact ⟨hpath, hmethod, hsources, harguments, hpathArguments, hquery, hheader, hcookie, hbody,
    houtcomes, hsuccesses, hfailures, hreasons⟩

end Views

/-! ## The operation that is built -/

namespace Declaration

variable (x : Declaration) (d : Document) (promotions : Model.Promotions)

/-- The arguments carry the merged parameters, in order. -/
theorem carries_sent :
    List.Forall₂ Argument.Carries ((x.sent d).map (·.1)) (x.parameters d) := by
  have hparameters : ((x.parameters d).zip (identifiers (x.parameters d))).map (·.1) =
      x.parameters d := List.map_fst_zip (Nat.le_of_eq (length_identifiers _).symm)
  rw [sent, List.map_map]
  conv => arg 3; rw [← hparameters]
  rw [List.forall₂_map_left_iff, List.forall₂_map_right_iff, List.forall₂_same]
  intro pair _
  exact ⟨rfl, rfl, rfl, rfl⟩

theorem carries_body? :
    List.Forall₂ Argument.CarriesBody ((x.body? d).map (·.1)).toList (x.bodySource? d).toList := by
  rw [body?_eq]
  cases x.bodySource? d with
  | none => exact .nil
  | some source => exact .cons ⟨rfl, rfl, rfl, rfl⟩ .nil

theorem standsFor_outcomes :
    List.Forall₂ Outcome.StandsFor ((x.outcomes d promotions).map (·.1)) (x.responses d) := by
  rw [outcomes, responses]
  induction x.op.responses with
  | nil => exact .nil
  | cons entry rest ih =>
      obtain ⟨key, item⟩ := entry
      cases hstatus : Status.ofKey? key with
      | none => simpa [outcomeOf?, hstatus] using ih
      | some status =>
          cases hresponse : d.response? item with
          | none => simpa [outcomeOf?, hstatus, hresponse] using ih
          | some response =>
              simp only [List.filterMap_cons, outcomeOf?, hstatus, hresponse]
              exact .cons ⟨rfl, rfl, rfl, rfl⟩ ih

/-- Parameters are not sent in the body. -/
theorem place_ne_body {a : Argument} (h : a ∈ (x.sent d).map (·.1)) : a.place ≠ .body := by
  rw [sent, List.map_map, List.mem_map] at h
  obtain ⟨entry, _, rfl⟩ := h
  change Place.ofLocation entry.1.location ≠ .body
  cases entry.1.location <;> simp [Place.ofLocation]

theorem place_eq_body {a : Argument} (h : a ∈ ((x.body? d).map (·.1)).toList) :
    a.place = .body := by
  rw [body?_eq, Option.mem_toList] at h
  cases hsource : x.bodySource? d with
  | none => simp [hsource] at h
  | some source =>
      rw [hsource] at h
      obtain rfl := Option.some.inj h
      rfl

/-- What is sent in a place other than the body are parameters. -/
theorem filter_place_arguments {place : Place} (hplace : place ≠ .body) :
    (x.arguments d).filter (·.place == place) = x.sentIn d place := by
  have hbody : ((x.body? d).map (·.1)).toList.filter (·.place == place) = [] := by
    rw [List.filter_eq_nil_iff]
    intro a ha
    simpa [x.place_eq_body d ha] using hplace.symm
  rw [arguments, List.filter_append, hbody, List.append_nil, sentIn]

theorem filter_body_arguments :
    (x.arguments d).filter (·.place == .body) = ((x.body? d).map (·.1)).toList := by
  rw [arguments, List.filter_append]
  have hsent : ((x.sent d).map (·.1)).filter (·.place == .body) = [] := by
    rw [List.filter_eq_nil_iff]
    intro a ha
    simpa using x.place_ne_body d ha
  have hbody : ((x.body? d).map (·.1)).toList.filter (·.place == .body) =
      ((x.body? d).map (·.1)).toList := by
    rw [List.filter_eq_self]
    intro a ha
    simpa using x.place_eq_body d ha
  rw [hsent, hbody, List.nil_append]

/-- The lists of a declared operation are views of its arguments and responses. -/
theorem views_build :
    (x.build d promotions).1.Views x d ((x.arguments d).map (·.mapModel Model.refreshImports)) := by
  obtain ⟨raw, hbuild, hviews⟩ : ∃ raw : Operation,
      (x.build d promotions).1 = raw.refreshImports ∧ raw.Views x d (x.arguments d) := by
    refine ⟨_, rfl, ?_⟩
    exact {
      path := rfl
      method := rfl
      sources := ⟨_, _, rfl, x.carries_sent d, x.carries_body? d⟩
      arguments := requiredFirst_eq_mergeSort (x.arguments d)
      pathArguments := (x.filter_place_arguments d (by decide)).symm
      queryArguments := (x.filter_place_arguments d (by decide)).symm
      headerArguments := (x.filter_place_arguments d (by decide)).symm
      cookieArguments := (x.filter_place_arguments d (by decide)).symm
      bodyArgument := (x.filter_body_arguments d).symm
      outcomes := x.standsFor_outcomes d promotions
      successes := rfl
      failures := rfl
      failureReasons := rfl }
  rw [hbuild]
  exact hviews.refreshImports

end Declaration

end TypedClient.Operation
