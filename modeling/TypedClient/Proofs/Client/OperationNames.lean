import TypedClient.Proofs.Client.Coherence
import TypedClient.Proofs.Client.Services
import TypedClient.Proofs.Naming.FirstLetter

/-!
# Names of operations

In the client of a document the operations of a service have different names that start with small
letters, and their hooks are named after them (`calls_finished`). So no two hooks share a name
either (`Calls.nodup_hooks`). That is `operation_names_apart`. The service itself starts with a
capital.

Operations are given their names one after the other, each the one that is free among those before
it. So an operation keeps its name unless an earlier one is given this name
(`kept_distinguish_iff`). If no other operation is declared under the name, the earlier one is a
duplicate for which it was made by a number (`Invents`). This is `name_kept_iff`.
-/

namespace TypedClient

/-! ## Names of operations and their hooks -/

open Naming (StartsSmall StartsCapital)

/-- The name of the hook for an operation. -/
def Operation.hookOf (name : String) : String := "use" ++ Text.capitalize name

/-- An operation is named like a value, and its hook is named after it. -/
structure Operation.Callable (op : Operation) : Prop where
  name : StartsSmall op.name
  hook : op.hookName = hookOf op.name

/-- The first letter of a name is an ASCII one, and has a capital of its own in the hook. -/
theorem Operation.Callable.toList_hookName {op : Operation} (h : op.Callable) :
    ∃ first rest, op.name.toList = first :: rest ∧
      op.hookName.toList = "use".toList ++ first.toUpper :: rest := by
  obtain ⟨first, rest, hname, hfirst, -⟩ := h.name
  have hascii : first.toNat < 128 := Naming.toNat_lt_of_isNameChar hfirst
  have hcapital : (Text.capitalize op.name).toList = first.toUpper :: rest := by
    simp [Text.capitalize, Text.capitalizeList, Text.upperChar, hname, hascii]
  exact ⟨first, rest, hname, by rw [h.hook, Operation.hookOf, String.toList_append, hcapital]⟩

/-- The service of an operation starts with a capital, whatever its tags are. -/
theorem Operation.startsCapital_serviceOf (tags : List String) :
    StartsCapital (serviceOf tags) := by
  cases tags with
  | nil => exact ⟨'D', ['e', 'f', 'a', 'u', 'l', 't'], by decide, by decide⟩
  | cons tag tags => exact Naming.startsCapital_serviceName tag

namespace Client

variable {d : Document} {promote : Bool} {s : Service}

/-- The names that the operations of a service are called by. -/
structure Calls (s : Service) : Prop where
  service : StartsCapital s.name
  callable : ∀ op ∈ s.operations, op.Callable
  nodup : (s.operations.map (·.name)).Nodup
  imports : s.imports.Nodup

/-- Hooks of different operations have different names. -/
theorem Calls.nodup_hooks (h : Calls s) : (s.operations.map (·.hookName)).Nodup := by
  have hhooks : s.operations.map (·.hookName) =
      (s.operations.map (·.name)).map Operation.hookOf := by
    rw [List.map_map]
    exact List.map_congr_left fun op hop => (h.callable op hop).hook
  rw [hhooks]
  refine h.nodup.map_on fun name hname other hother heq => ?_
  obtain ⟨op, hop, rfl⟩ := List.mem_map.1 hname
  obtain ⟨op', hop', rfl⟩ := List.mem_map.1 hother
  exact (h.callable op hop).name.capitalize_inj (h.callable op' hop').name
    ((String.append_right_inj "use").1 heq)

/-- Every service is that of the tags of an operation. -/
theorem exists_serviceOf_of_mem_finished (hs : s ∈ (drafted d promote).finished.services) :
    ∃ tags, s.name = Operation.serviceOf tags := by
  obtain ⟨t, ht, rfl⟩ := List.mem_map.1 ((services_finished_perm _).mem_iff.1 hs)
  have hname : t.name ∈ (drafted d promote).services.map (·.name) := List.mem_map_of_mem ht
  obtain ⟨op, hop, hservice⟩ := exists_of_mem_names_group hname
  rw [Operation.operations_eq, List.map_map] at hop
  obtain ⟨x, _, rfl⟩ := List.mem_map.1 hop
  exact ⟨x.op.tags, hservice.symm⟩

theorem calls_finished (hs : s ∈ (drafted d promote).finished.services) : Calls s where
  service := by
    obtain ⟨tags, hname⟩ := exists_serviceOf_of_mem_finished hs
    exact hname ▸ Operation.startsCapital_serviceOf tags
  callable _ hop := by
    refine forall_mem_finished (P := Operation.Callable) (fun x promotions => ?_)
      (fun op target h => ⟨h.name, h.hook⟩) (fun op number h => ?_) hs hop
    · exact ⟨(Operation.isValueName_nameFor x.op.operationId x.method x.path).startsSmall, rfl⟩
    · exact ⟨h.name.numbered number, rfl⟩
  nodup := by
    obtain ⟨t, ht, rfl⟩ := List.mem_map.1 ((services_finished_perm _).mem_iff.1 hs)
    exact nodup_names_distinguish _ _
  imports := by
    obtain ⟨t, ht, rfl⟩ := List.mem_map.1 ((services_finished_perm _).mem_iff.1 hs)
    exact Text.nodup_sortedNames _

/-- So it is in the client of a document. -/
theorem calls_of_ofTree {tree : Json} {c : Client} (h : ofTree tree promote = .ok c)
    (hs : s ∈ c.services) : Calls s := by
  obtain ⟨-, d, -, hclient⟩ := ofTree_eq_ok_iff.1 h
  obtain ⟨-, rfl⟩ := draft_bind_finish_eq_ok_iff.1 hclient
  exact calls_finished hs

/-- In the client of a document the operations of a service have different names, and so have their
hooks, each of which is `use` and the final name of its operation with the first letter put into
upper case. -/
theorem operation_names_apart {c : Client} (h : (draft d promote >>= finish) = .ok c)
    (hs : s ∈ c.services) :
    (s.operations.map (·.name)).Nodup ∧ (s.operations.map (·.hookName)).Nodup ∧
      ∀ op ∈ s.operations, op.hookName = "use" ++ Text.capitalize op.name ∧
        ∃ first rest, op.name.toList = first :: rest ∧
          op.hookName.toList = "use".toList ++ first.toUpper :: rest := by
  obtain ⟨-, rfl⟩ := draft_bind_finish_eq_ok_iff.1 h
  have hcalls : Calls s := calls_finished hs
  refine ⟨hcalls.nodup, hcalls.nodup_hooks, fun op hop => ?_⟩
  have hcallable := hcalls.callable op hop
  exact ⟨hcallable.hook, hcallable.toList_hookName⟩

/-- A document that declares the same name for operations of one service, directly and by a path,
and a name that a number behind it could give. -/
def fetchDocument : Document where
  openapi := "3.0.0"
  paths :=
    [("/a", { operations := [(.get, { operationId := some "Fetch All", tags := ["x"] })] }),
     ("/b", { operations := [(.get, { operationId := some "fetch-all", tags := ["x"] })] }),
     ("/c", { operations := [(.get, { operationId := some "fetchAll2", tags := ["x"] })] }),
     ("/get", { operations := [(.delete, { operationId := some "delete", tags := ["x"] })] })]

theorem operation_names_apart_fetchDocument :
    ∃ c, (draft fetchDocument true >>= finish) = .ok c ∧ ∃ s ∈ c.services,
      s.operations.map (·.name) = ["fetchAll", "fetchAll2", "fetchAll22", "_delete"] ∧
      (s.operations.map (·.hookName)).Nodup ∧
      ∀ op ∈ s.operations, op.hookName = "use" ++ Text.capitalize op.name := by
  have hclient : (draft fetchDocument true >>= finish) =
      .ok (drafted fetchDocument true).finished :=
    draft_bind_finish_eq_ok_iff.2 ⟨by decide, rfl⟩
  obtain ⟨s, hs, hnames⟩ : ∃ s ∈ (drafted fetchDocument true).finished.services,
      s.operations.map (·.name) = ["fetchAll", "fetchAll2", "fetchAll22", "_delete"] := by
    decide +kernel
  obtain ⟨-, hhooks, hnamed⟩ := operation_names_apart hclient hs
  exact ⟨_, hclient, s, hs, hnames, hhooks, fun op hop => (hnamed op hop).1⟩

end Client

/-! ## Names that operations keep -/

namespace Naming

/-- The names that are given to items with the declared names, in order. -/
def given (names : List String) : List String := uniques id [] names

/-- For the item at a place, which is declared under another name, the name is made: the declared
one was given to an item before it, and the name is this one with the least free number. -/
def Invents (names : List String) (place : Nat) (name : String) : Prop :=
  ∃ declared, names[place]? = some declared ∧ declared ≠ name ∧
    FreeName declared (given (names.take place)) name

variable {names : List String} {place : Nat} {declared name : String}

/-- An item is given the name that is free among those before it. -/
theorem getElem?_given (h : names[place]? = some declared) :
    (given names)[place]? = some (unique declared (given (names.take place)).reverse) := by
  rw [given, getElem?_uniques, h, List.append_nil]
  rfl

theorem freeName_iff_getElem?_given (h : names[place]? = some declared) :
    FreeName declared (given (names.take place)) name ↔ (given names)[place]? = some name := by
  rw [getElem?_given h, Option.some.injEq]
  constructor
  · exact fun hfree => (hfree.congr fun _ => List.mem_reverse).eq_unique.symm
  · rintro rfl
    exact (freeName_unique _ _).congr fun _ => List.mem_reverse.symm

/-- A name that no other item is declared under is given before exactly if it is made there. -/
theorem mem_given_take_iff (halone : ∀ other, other ≠ place → names[other]? ≠ some name) :
    name ∈ given (names.take place) ↔ ∃ earlier, earlier < place ∧ Invents names earlier name := by
  have htake : given (names.take place) = (given names).take place := (take_uniques _ _ _).symm
  have hgiven : name ∈ given (names.take place) ↔
      ∃ earlier, earlier < place ∧ (given names)[earlier]? = some name := by
    rw [htake, List.mem_iff_getElem?]
    refine exists_congr fun earlier => ?_
    rw [List.getElem?_take]
    split <;> simp [*]
  rw [hgiven]
  refine exists_congr fun earlier => and_congr_right fun hearlier => ?_
  constructor
  · intro hname
    obtain ⟨hlength, -⟩ := List.getElem?_eq_some_iff.1 hname
    rw [given, length_uniques] at hlength
    have hdeclared := List.getElem?_eq_getElem hlength
    refine ⟨_, hdeclared, fun heq => ?_, (freeName_iff_getElem?_given hdeclared).2 hname⟩
    exact halone earlier (Nat.ne_of_lt hearlier) (heq ▸ hdeclared)
  · rintro ⟨declared, hdeclared, -, hfree⟩
    exact (freeName_iff_getElem?_given hdeclared).1 hfree

/-- A name that is made for an item ends with a digit. -/
theorem Invents.endsInDigit (h : Invents names place name) : EndsInDigit name := by
  obtain ⟨declared, -, hne, hfree⟩ := h
  rcases hfree.eq_or_numbered with heq | ⟨number, -, rfl⟩
  · exact absurd heq.symm hne
  · exact endsInDigit_numbered declared number

theorem numbered_ne (base : String) (number : Nat) : numbered base number ≠ base := by
  intro heq
  have hlength := congrArg (fun name : String => name.toList.length) heq
  have hdigits : (toString number).toList = Nat.toDigits 10 number := Nat.toList_repr
  simp only [numbered, String.toList_append, hdigits, List.length_append] at hlength
  have hnone : (Nat.toDigits 10 number).length = 0 := by omega
  exact Nat.toDigits_ne_nil (List.length_eq_zero_iff.1 hnone)

end Naming

namespace Client

open Naming (given Invents)

variable {op : Operation} {place : Nat}

/-- An operation keeps its name and the name of its hook exactly if no operation before it is given
this name. -/
theorem kept_distinguish_iff {ops : List Operation} (h : ops[place]? = some op) :
    ∃ op', (distinguish [] ops)[place]? = some op' ∧
      (op'.name = op.name ∧ op'.hookName = op.hookName ↔
        op.name ∉ given ((ops.map (·.name)).take place)) := by
  obtain ⟨op', hop', hcases⟩ := getElem?_distinguish [] h
  have hname : op'.name =
      Naming.unique op.name (given ((ops.map (·.name)).take place)).reverse := by
    have hnames := congrArg (·[place]?) (names_distinguish [] ops)
    have hdeclared : (ops.map (·.name))[place]? = some op.name := by rw [List.getElem?_map, h]; rfl
    rw [← Naming.uniques_map, List.getElem?_map, hop'] at hnames
    exact Option.some.inj (hnames.trans (Naming.getElem?_given hdeclared))
  refine ⟨op', hop', ?_⟩
  rw [← List.mem_reverse]
  constructor
  · rintro ⟨hkept, -⟩
    rw [← hname.symm.trans hkept]
    exact Naming.unique_not_mem _ _
  · intro hfree
    rw [Naming.unique_of_not_mem hfree] at hname
    rcases hcases with rfl | ⟨number, -, rfl⟩
    · exact ⟨rfl, rfl⟩
    · exact absurd hname (Naming.numbered_ne _ _)

/-- An operation whose name no other operation of its service is declared under keeps this name and
that of its hook exactly if the name is not made for a duplicate before it. So it does if its name
does not end with a digit. -/
theorem name_kept_iff {c c' : Client} (h : c.finish = .ok c') :
    c'.services.Perm (c.services.map (finishService c.target)) ∧
      ∀ s ∈ c.services, ∀ (place : Nat) (op : Operation), s.operations[place]? = some op →
        (∀ other, other ≠ place → (s.operations.map (·.name))[other]? ≠ some op.name) →
        ∃ op', (finishService c.target s).operations[place]? = some op' ∧
          (op'.name = op.name ∧ op'.hookName = op.hookName ↔
            ¬ ∃ earlier, earlier < place ∧
              Invents (s.operations.map (·.name)) earlier op.name) ∧
          (¬ Naming.EndsInDigit op.name → op'.name = op.name ∧ op'.hookName = op.hookName) := by
  obtain ⟨-, rfl⟩ := finish_eq_ok_iff.1 h
  refine ⟨services_finished_perm c, fun s hs place op hop halone => ?_⟩
  have hplace : (s.operations.map (finishOperation c.target))[place]? =
      some (finishOperation c.target op) := by rw [List.getElem?_map, hop]; rfl
  obtain ⟨op', hop', hkept⟩ := kept_distinguish_iff hplace
  have hnames : (s.operations.map (finishOperation c.target)).map (·.name) =
      s.operations.map (·.name) := by
    rw [List.map_map]
    rfl
  have hiff : op'.name = op.name ∧ op'.hookName = op.hookName ↔
      ¬ ∃ earlier, earlier < place ∧ Invents (s.operations.map (·.name)) earlier op.name := by
    rw [hnames] at hkept
    exact hkept.trans (not_congr (Naming.mem_given_take_iff halone))
  refine ⟨op', hop', hiff, fun hdigit => hiff.2 ?_⟩
  rintro ⟨earlier, -, hinvents⟩
  exact hdigit hinvents.endsInDigit

/-- A service with two operations of one name, and a third one behind them. -/
def fetchService (third : String) : Service where
  name := "Pets"
  operations :=
    [{ service := "Pets", name := "fetch", hookName := "useFetch", method := .get, path := "/a" },
     { service := "Pets", name := "fetch", hookName := "useFetch", method := .get, path := "/b" },
     { service := "Pets", name := third, hookName := "use" ++ Text.capitalize third, method := .get
       path := "/c" }]

/-- The client with this service. -/
def fetchClient (third : String) : Client where
  version := "1"
  server := ""
  models := []
  services := [fetchService third]

/-- No other operation is declared under the name of the third one. -/
theorem fetchService_alone {third : String} (h : third ≠ "fetch") :
    ∀ other, other ≠ 2 → ((fetchService third).operations.map (·.name))[other]? ≠ some third := by
  intro other hother
  match other with
  | 0 => simpa [fetchService] using Ne.symm h
  | 1 => simpa [fetchService] using Ne.symm h
  | 2 => exact absurd rfl hother
  | n + 3 => simp [fetchService]

theorem name_kept_iff_fetch3 :
    ∃ op', (finishService (fetchClient "fetch3").target (fetchService "fetch3")).operations[2]? =
        some op' ∧ op'.name = "fetch3" ∧ op'.hookName = "useFetch3" := by
  have hfinish : (fetchClient "fetch3").finish = .ok (fetchClient "fetch3").finished :=
    finish_eq_ok_iff.2 ⟨by decide, rfl⟩
  obtain ⟨-, hkept⟩ := name_kept_iff hfinish
  obtain ⟨op', hop', hiff, -⟩ := hkept (fetchService "fetch3") List.mem_cons_self 2 _ rfl
    (fetchService_alone (by decide))
  refine ⟨op', hop', hiff.2 ?_⟩
  -- The second operation is given the name `fetch2`.
  rintro ⟨earlier, hlt, declared, hdeclared, -, hfree⟩
  have hearlier : earlier = 0 ∨ earlier = 1 := by omega
  rcases hearlier with rfl | rfl
  · obtain rfl : "fetch" = declared := Option.some.inj hdeclared
    exact absurd hfree.eq_unique (by decide)
  · obtain rfl : "fetch" = declared := Option.some.inj hdeclared
    exact absurd hfree.eq_unique (by decide)

/-- A name that is made for a duplicate is taken from the operation that is declared under it. -/
theorem not_name_kept :
    (fetchClient "fetch2").finish = .ok (fetchClient "fetch2").finished ∧
      (∀ other, other ≠ 2 →
        ((fetchService "fetch2").operations.map (·.name))[other]? ≠ some "fetch2") ∧
      (fetchClient "fetch2").finished.services.map (fun s => s.operations.map (·.name)) =
        [["fetch", "fetch2", "fetch22"]] :=
  ⟨finish_eq_ok_iff.2 ⟨by decide, rfl⟩, fetchService_alone (by decide), by decide +kernel⟩

end Client

end TypedClient
