import TypedClient.Proofs.Client.GivenNames
import TypedClient.Proofs.Client.Grouping
import TypedClient.Proofs.Document.Readable
import TypedClient.Proofs.Document.Version

/-!
# Extensions of a document and its client

A document may add members of its own to its objects, under keys that start with `x-`. The client
is made from the core of the document alone (`draft_core`), and the core is the same with and without
such a member where the member is tolerated. `ofTree_insert_iff` says that it is tolerated exactly if
the client stays as it is. In the object of the paths and in one of responses it may not be: there
each member is read (`not_neutral_paths_and_responses`).
-/

namespace TypedClient.Client

open Document (Role Inserts IsExtensionKey Tolerates Readable PathItem RefOr)
open Operation (Declaration declarations)

variable {d : Document} {promote : Bool}

/-! ## The client of the core -/

theorem filterMap_coreResponses {α : Type} {f : String × RefOr Document.Response → Option α}
    (hf : ∀ key item, Status.ofKey? key = none → f (key, item) = none)
    (responses : List (String × RefOr Document.Response)) :
    (Document.coreResponses responses).filterMap f = responses.filterMap f := by
  rw [Document.coreResponses, List.filterMap_filter]
  congr 1
  funext entry
  obtain ⟨key, item⟩ := entry
  cases hstatus : Status.ofKey? key with
  | none => simp [hstatus, hf key item hstatus]
  | some status => simp [hstatus]

/-- The operation of the client is built from the core of the declared one. -/
theorem build_core (d : Document) (promotions : Model.Promotions) (path : String)
    (method : Method) (o : Document.Operation) (shared : List (RefOr Document.Parameter)) :
    Operation.build d.core promotions path method o.core shared =
      Operation.build d promotions path method o shared := by
  show Operation.build d promotions path method o.core shared = _
  unfold Operation.build Document.Operation.core
  -- The responses are read only for their outcomes, and a key that is no status has none.
  simp only
  rw [filterMap_coreResponses]
  intro key item hstatus
  simp [Operation.outcomeOf?, hstatus]

/-- Nothing that is made from paths with operations only is lost in their core. -/
theorem flatMap_corePaths {α : Type} {f g : String × PathItem → List α}
    (hcore : ∀ path item, f (path, item.core) = g (path, item))
    (hnone : ∀ path item, item.operations = [] → g (path, item) = [])
    (paths : List (String × PathItem)) :
    (Document.corePaths paths).flatMap f = paths.flatMap g := by
  induction paths with
  | nil => rfl
  | cons entry paths ih =>
      obtain ⟨path, item⟩ := entry
      rw [List.flatMap_cons, ← ih, ← List.singleton_append, Document.corePaths_append,
        List.flatMap_append]
      refine congrArg (· ++ _) ?_
      by_cases hitem : item.operations = []
      · simp [Document.corePaths, hitem, hnone path item hitem]
      · simp [Document.corePaths, hitem, hcore]

theorem operations_core (d : Document) (promotions : Model.Promotions) :
    operations d.core promotions = operations d promotions := by
  refine flatMap_corePaths (fun path item => ?_) (fun path item hitem => ?_) d.paths
  · simp only [PathItem.core, List.map_map]
    exact List.map_congr_left fun entry _ => build_core d promotions path entry.1 entry.2 _
  · simp [hitem]

/-- The client is drafted from the core of the document. -/
theorem draft_core (d : Document) (promote : Bool) : draft d.core promote = draft d promote := by
  unfold draft
  simp only [operations_core]
  rfl

/-! ## Extensions that are tolerated -/

variable {key : String} {value : Json} {site : Role} {tree tree' : Json}

/-- The declared version stays as it is, as the member for it holds no objects. -/
theorem member?_openapi_eq (hkey : IsExtensionKey key)
    (h : Inserts key value site .document tree tree') :
    tree'.member? "openapi" = tree.member? "openapi" := by
  have hlookup : ∀ {before after : List (String × Json)} {name : String} {v v' : Json},
      name ≠ "openapi" → (before ++ (name, v') :: after).lookup "openapi" =
        (before ++ (name, v) :: after).lookup "openapi" := by
    intro before after name v v' hname
    simp [List.lookup_append, List.lookup_cons, beq_false_of_ne (Ne.symm hname)]
  cases h with
  | here before after hsite =>
      have hname : key ≠ "openapi" := hkey.ne_of_not_starts (by decide)
      simp [Json.member?, List.lookup_append, List.lookup_cons, beq_false_of_ne (Ne.symm hname)]
  | member name before after hrole hinner =>
      refine hlookup ?_
      rintro rfl
      cases hrole
  | item before after hrole hinner => rfl

/-- A document that is read has a member for its version. -/
theorem isSome_member?_openapi {ms : List (String × Json)}
    (h : Document.decode (.object ms) = .ok d) :
    ((Json.object ms).member? "openapi").isSome = true := by
  rw [Document.decode, Decode.record_object, Decode.bind_eq_ok_iff] at h
  obtain ⟨s, _, hmissing⟩ := h
  cases hnone : Decode.missing? Document.fields ms with
  | some name => rw [hnone] at hmissing; cases hmissing
  | none =>
      rw [Json.member?, ← Decode.any_eq_isSome_lookup]
      exact Decode.missing?_eq_none_iff.1 hnone _ List.mem_cons_self rfl

theorem checkVersion_eq (hkey : IsExtensionKey key)
    (h : Inserts key value site .document tree tree') {ms : List (String × Json)}
    (htree : tree = .object ms) (hdecode : Document.decode tree = .ok d) :
    Document.checkVersion tree' = Document.checkVersion tree := by
  subst htree
  obtain ⟨version, hversion⟩ := Option.isSome_iff_exists.1 (isSome_member?_openapi hdecode)
  have hversion' := (member?_openapi_eq hkey h).trans hversion
  have hdeclared : Document.declaredVersion tree' = Document.declaredVersion (.object ms) := by
    rw [Document.declaredVersion, Document.declaredVersion, hversion, hversion']
    rfl
  rw [Document.checkVersion, Document.checkVersion, hdeclared]

/-- Where a further member is tolerated, the client stays as it is. -/
theorem ofTree_of_tolerates {c : Client} (hclient : ofTree tree promote = .ok c)
    (hkey : IsExtensionKey key) (h : Inserts key value site .document tree tree')
    (htolerates : Tolerates site value) : ofTree tree' promote = .ok c := by
  obtain ⟨hversion, d, hdecode, hd⟩ := ofTree_eq_ok_iff.1 hclient
  obtain ⟨ms, hms⟩ := Document.exists_object_of_checkVersion hversion
  have hcore : (Document.decode tree').map Document.core =
      (Document.decode tree).map Document.core :=
    Document.blind_document hkey htolerates tree tree' h
  rw [hdecode] at hcore
  obtain ⟨d', hdecode', hd'⟩ := Decode.map_eq_ok_iff.1 hcore
  refine ofTree_eq_ok_iff.2 ⟨?_, d', hdecode', ?_⟩
  · rw [checkVersion_eq hkey h hms hdecode, hversion]
  · rw [← draft_core d', hd', draft_core]
    exact hd

/-! ## Extensions that are not -/

/-- In each service two lists of declarations that the same services hold have the same number. -/
theorem HoldsAll.length_filter_eq {R S : Declaration → Operation → Prop}
    {xs ys : List Declaration} {services : List Service} (hx : HoldsAll R xs services)
    (hy : HoldsAll S ys services) (name : String) :
    (xs.filter (·.service == name)).length = (ys.filter (·.service == name)).length := by
  by_cases hname : name ∈ services.map (·.name)
  · obtain ⟨s, hs, rfl⟩ := List.mem_map.1 hname
    rw [(hx.operations s hs).length_eq, (hy.operations s hs).length_eq]
  · have hnone : ∀ {T : Declaration → Operation → Prop} {zs : List Declaration},
        HoldsAll T zs services → zs.filter (·.service == name) = [] := by
      intro T zs hz
      refine List.filter_eq_nil_iff.2 fun z hmem hservice => hname ?_
      exact (hz.mem_names_iff name).2 ⟨z, hmem, by simpa using hservice⟩
    rw [hnone hx, hnone hy]

/-- If the client stays as it is with the further member, then that member is tolerated. -/
theorem tolerates_of_ofTree {c : Client} (hclient : ofTree tree promote = .ok c)
    (hnodup : ∀ ms, tree = .object ms → (ms.map (·.1)).Nodup)
    (h : Inserts key value site .document tree tree') (hclient' : ofTree tree' promote = .ok c) :
    Tolerates site value := by
  obtain ⟨hversion, d, hdecode, hd⟩ := ofTree_eq_ok_iff.1 hclient
  obtain ⟨_, d', hdecode', hd'⟩ := ofTree_eq_ok_iff.1 hclient'
  have hreadable := Document.readable_of_document h hdecode'
  by_cases hsite : site = .paths
  · subst hsite
    obtain ⟨ms, rfl⟩ := Document.exists_object_of_checkVersion hversion
    obtain ⟨before, item, after, hitem, hbefore, hafter⟩ :=
      Document.exists_added_path (hnodup ms rfl) h hdecode hdecode'
    refine ⟨item, hitem, ?_⟩
    -- Both documents have the operations of the one client, and so the same number of them in
    -- each service.
    have hholds := holdsAll_finished d promote
    have hholds' := holdsAll_finished d' promote
    rw [← (draft_bind_finish_eq_ok_iff.1 hd).2] at hholds
    rw [← (draft_bind_finish_eq_ok_iff.1 hd').2] at hholds'
    have hlength := hholds.length_filter_eq hholds'
    simp only [declarations, hbefore, hafter, List.flatMap_append, List.flatMap_cons,
      List.filter_append, List.length_append] at hlength
    cases hops : item.operations with
    | nil => rfl
    | cons entry others =>
        obtain ⟨method, o⟩ := entry
        have hone := hlength (Operation.serviceOf o.tags)
        rw [hops] at hone
        simp [Declaration.service] at hone
  · unfold Readable at hreadable
    unfold Tolerates
    split
    · exact absurd rfl hsite
    · exact hreadable
    · trivial

/-- A document may add a member of its own to any object that allows it, and the client stays as it
is, exactly if the member is tolerated there. It always is, but for the object of the paths and the
objects of responses. -/
theorem ofTree_insert_iff {c : Client} (hclient : ofTree tree promote = .ok c)
    (hnodup : ∀ ms, tree = .object ms → (ms.map (·.1)).Nodup) (hkey : IsExtensionKey key)
    (h : Inserts key value site .document tree tree') :
    ofTree tree' promote = .ok c ↔ Tolerates site value :=
  ⟨tolerates_of_ofTree hclient hnodup h, ofTree_of_tolerates hclient hkey h⟩

/-- The tree of a document with one operation, and with further members among the paths, in the
operation and among its responses. -/
def petsTree (inPaths inOperation inResponses : List (String × Json)) : Json :=
  .object
    [("openapi", .string "3.0.0"),
     ("info", .object [("title", .string "t"), ("version", .string "1")]),
     ("paths", .object (("/pets", .object [("get", .object (("responses", .object
       (("204", .object [("description", .string "none")]) :: inResponses)) :: inOperation))]) ::
         inPaths))]

theorem exists_client_petsTree : ∃ c, ofTree (petsTree [] [] []) true = .ok c := by
  obtain ⟨c, hclient, _⟩ := exists_names_perm (petsTree [] [] []) true [] [] (by decide +kernel)
    (by decide +kernel) (by decide)
  exact ⟨c, hclient⟩

theorem nodup_petsTree (ms : List (String × Json)) (h : petsTree [] [] [] = .object ms) :
    (ms.map (·.1)).Nodup := by
  obtain rfl := Json.object.inj h
  decide

theorem isExtensionKey_note : IsExtensionKey "x-note" :=
  ⟨by decide, by decide, by decide⟩

theorem inserts_inPaths (value : Json) : Inserts "x-note" value .paths .document
    (petsTree [] [] []) (petsTree [("x-note", value)] [] []) :=
  .member "paths" [("openapi", _), ("info", _)] [] rfl (.here [("/pets", _)] [] rfl)

theorem inserts_inOperation (value : Json) : Inserts "x-note" value .operation .document
    (petsTree [] [] []) (petsTree [] [("x-note", value)] []) :=
  .member "paths" [("openapi", _), ("info", _)] [] rfl
    (.member "/pets" [] [] rfl (.member "get" [] [] rfl (.here [("responses", _)] [] rfl)))

theorem inserts_inResponses (value : Json) : Inserts "x-note" value .responses .document
    (petsTree [] [] []) (petsTree [] [] [("x-note", value)]) :=
  .member "paths" [("openapi", _), ("info", _)] [] rfl
    (.member "/pets" [] [] rfl (.member "get" [] [] rfl
      (.member "responses" [] [] rfl (.here [("204", _)] [] rfl))))

theorem ofTree_insert_iff_petsTree :
    ∃ c, ofTree (petsTree [] [] []) true = .ok c ∧
      ofTree (petsTree [] [("x-note", .bool true)] []) true = .ok c ∧
      ofTree (petsTree [] [] [("x-note", .bool true)]) true ≠ .ok c := by
  obtain ⟨c, hc⟩ := exists_client_petsTree
  refine ⟨c, hc, ?_, ?_⟩
  · exact (ofTree_insert_iff hc nodup_petsTree isExtensionKey_note
      (inserts_inOperation (.bool true))).2 trivial
  · intro hsame
    obtain ⟨response, hresponse⟩ := (ofTree_insert_iff hc nodup_petsTree isExtensionKey_note
      (inserts_inResponses (.bool true))).1 hsame
    cases hresponse

/-- Members of a document's own change or refuse the client: a plain value among the paths, an
object with an operation there, and a plain value among responses. -/
theorem not_neutral_paths_and_responses :
    IsExtensionKey "x-note" ∧ ∃ c, ofTree (petsTree [] [] []) true = .ok c ∧
      (∀ value ∈ [.bool true, .object [("get", .object [])]],
        Inserts "x-note" value .paths .document (petsTree [] [] [])
          (petsTree [("x-note", value)] [] []) ∧
        ofTree (petsTree [("x-note", value)] [] []) true ≠ .ok c) ∧
      Inserts "x-note" (.string "none") .responses .document (petsTree [] [] [])
        (petsTree [] [] [("x-note", .string "none")]) ∧
      ofTree (petsTree [] [] [("x-note", .string "none")]) true ≠ .ok c := by
  obtain ⟨c, hc⟩ := exists_client_petsTree
  refine ⟨isExtensionKey_note, c, hc, fun value hvalue => ⟨inserts_inPaths value, fun hsame => ?_⟩,
    inserts_inResponses _, fun hsame => ?_⟩
  · obtain ⟨item, hitem, hnone⟩ :=
      tolerates_of_ofTree hc nodup_petsTree (inserts_inPaths value) hsame
    simp only [List.mem_cons, List.not_mem_nil, or_false] at hvalue
    rcases hvalue with rfl | rfl
    · cases hitem
    · obtain rfl := Except.ok.inj hitem
      cases hnone
  · obtain ⟨response, hresponse⟩ :=
      tolerates_of_ofTree hc nodup_petsTree (inserts_inResponses _) hsame
    cases hresponse

end TypedClient.Client
