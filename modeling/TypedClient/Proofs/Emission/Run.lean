import TypedClient.Emission.Category

/-!
# How a run goes

`execute` gives the outcome of a run and the state that it leaves. A run is followed through
its steps by the equations for `execute`. `Within m P E A x` says that the events which `x` adds
all satisfy `P`, its failures `E` and its values `A`, from whatever state it starts; it holds of
a sequence, a loop or a guarded step if it holds of the parts. `Makes` says that a certain call is
among the events of a run.
-/

namespace TypedClient.Emission

open Files

variable {α β : Type} {m : Machine}

/-- The outcome of a run in the given surroundings, and the state that it leaves. -/
def execute (x : Run α) (m : Machine) (s : State) : Except Error α × State :=
  ((x.run m).run.run s : Id (Except Error α × State))

/-! ## Equations -/

@[simp]
theorem execute_pure (a : α) (s : State) : execute (pure a : Run α) m s = (.ok a, s) := rfl

@[simp]
theorem execute_throw (e : Error) (s : State) :
    execute (throw e : Run α) m s = (.error e, s) := rfl

@[simp]
theorem execute_read_bind (f : Machine → Run β) (s : State) :
    execute (read >>= f) m s = execute (f m) m s := rfl

@[simp]
theorem execute_get_bind (f : State → Run β) (s : State) :
    execute (get >>= f) m s = execute (f s) m s := rfl

@[simp]
theorem execute_record (e : Event) (s : State) :
    execute (record e) m s = (.ok (), { s with events := s.events ++ [e] }) := rfl

/-- A failure ends a sequence. -/
theorem execute_bind (x : Run α) (f : α → Run β) (s : State) :
    execute (x >>= f) m s =
      match execute x m s with
      | (.ok a, t) => execute (f a) m t
      | (.error e, t) => (.error e, t) := by
  have hbind : execute (x >>= f) m s =
      ExceptT.bindCont (fun a => f a m) (execute x m s).1 (execute x m s).2 := rfl
  rw [hbind]
  rcases execute x m s with ⟨_ | _, t⟩ <;> rfl

/-- A sequence succeeds if both parts do. -/
theorem execute_bind_eq_ok_iff {x : Run α} {f : α → Run β} {s t : State} {b : β} :
    execute (x >>= f) m s = (.ok b, t) ↔
      ∃ a mid, execute x m s = (.ok a, mid) ∧ execute (f a) m mid = (.ok b, t) := by
  rw [execute_bind]
  rcases execute x m s with ⟨e | a, mid⟩ <;> simp [and_assoc]

/-- What was done before a failure stays done when the failure is dealt with. -/
theorem execute_tryCatch (x : Run α) (f : Error → Run α) (s : State) :
    execute (tryCatch x f) m s =
      match execute x m s with
      | (.ok a, t) => (.ok a, t)
      | (.error e, t) => execute (f e) m t := by
  have hcatch : execute (tryCatch x f) m s =
      (ExceptT.tryCatch (x.run m) fun e => (f e).run m).run.run s := rfl
  rw [hcatch, ExceptT.tryCatch, ExceptT.run_mk, StateT.run_bind]
  change (execute x m s >>= fun p : Except Error α × State => _ : Id _) = _
  rcases execute x m s with ⟨_ | _, t⟩ <;> rfl

/-- A step that is not to end the run leaves what it leaves otherwise. -/
theorem execute_attempt (x : Run Unit) (s : State) :
    execute (attempt x) m s =
      match execute x m s with
      | (.ok _, t) => (.ok none, t)
      | (.error e, t) => (.ok (some e), t) := by
  rw [attempt, execute_tryCatch, execute_bind]
  rcases execute x m s with ⟨_ | _, t⟩ <;> rfl

/-- The state once a call is recorded. -/
def State.noting (s : State) (c : Call) : State := { s with events := s.events ++ [.call c] }

/-- A call is recorded, and then refused or carried out. -/
theorem execute_perform (c : Call) (s : State) :
    execute (perform c) m s =
      match m.fault? s.events.length c with
      | some e => (.error e, s.noting c)
      | none =>
        match c.apply s.tree with
        | .ok tree => (.ok (), { s.noting c with tree := tree })
        | .error fault => (.error (c.failure fault), s.noting c) := by
  rw [perform, execute_read_bind, execute_get_bind, execute_bind, execute_record]
  dsimp only
  cases m.fault? s.events.length c with
  | some e => rfl
  | none => cases c.apply s.tree <;> rfl

/-- A call is recorded once, whatever becomes of it. -/
theorem events_perform (c : Call) (s : State) :
    (execute (perform c) m s).2.events = s.events ++ [.call c] := by
  rw [execute_perform]
  split
  · rfl
  · split <;> rfl

/-- A call succeeds if the disk accepts it and it can be carried out. -/
theorem execute_perform_eq_ok_iff {c : Call} {s t : State} :
    execute (perform c) m s = (.ok (), t) ↔
      m.fault? s.events.length c = none ∧
        ∃ tree, c.apply s.tree = .ok tree ∧ t = { s.noting c with tree := tree } := by
  rw [execute_perform]
  cases m.fault? s.events.length c with
  | some e => simp
  | none => cases c.apply s.tree <;> simp [eq_comm]

@[simp]
theorem execute_render (artifact : Artifact) (context : Json) (s : State) :
    execute (render artifact context) m s = (m.render artifact context, s) := by
  rw [render, execute_read_bind]
  cases m.render artifact context <;> rfl

/-! ## Bounds on a run -/

/-- Whatever a run starts from, the events that it adds satisfy `P`, its failure satisfies `E` and
its value `A`. -/
structure Within (m : Machine) (P : Event → Prop) (E : Error → Prop) (A : α → Prop)
    (x : Run α) : Prop where
  events : ∀ s, ∃ added, (execute x m s).2.events = s.events ++ added ∧ ∀ e ∈ added, P e
  failure : ∀ s e, (execute x m s).1 = .error e → E e
  value : ∀ s a, (execute x m s).1 = .ok a → A a

namespace Within

variable {P : Event → Prop} {E : Error → Prop} {A : α → Prop} {B : β → Prop}

theorem imp {Q : Event → Prop} {F : Error → Prop} {x : Run α} (h : Within m P E A x)
    (hevents : ∀ e, P e → Q e) (hfailure : ∀ e, E e → F e) : Within m Q F A x where
  events s := by
    obtain ⟨added, heq, hadded⟩ := h.events s
    exact ⟨added, heq, fun e he => hevents e (hadded e he)⟩
  failure s e he := hfailure e (h.failure s e he)
  value := h.value

theorem pure {a : α} (h : A a) : Within m P E A (pure a : Run α) where
  events s := ⟨[], by simp, by simp⟩
  failure s e he := by simp at he
  value s b hb := by
    rw [execute_pure] at hb
    cases hb
    exact h

theorem throw {e : Error} (h : E e) : Within m P E A (throw e : Run α) where
  events s := ⟨[], by simp, by simp⟩
  failure s e' he := by
    rw [execute_throw] at he
    cases he
    exact h
  value s a ha := by simp at ha

theorem read_bind {f : Machine → Run β} (h : Within m P E B (f m)) :
    Within m P E B (read >>= f) :=
  ⟨h.events, h.failure, h.value⟩

theorem get_bind {f : State → Run β} (h : ∀ s, Within m P E B (f s)) :
    Within m P E B (get >>= f) :=
  ⟨fun s => (h s).events s, fun s => (h s).failure s, fun s => (h s).value s⟩

theorem record {e : Event} (h : P e) : Within m P E (fun _ => True) (record e) where
  events s := ⟨[e], rfl, by simpa using h⟩
  failure s e he := by simp at he
  value s a ha := trivial

/-- A sequence is bounded if its first part is, and its second part for all values of the first. -/
theorem bind {x : Run α} {f : α → Run β} (hx : Within m P E A x)
    (hf : ∀ a, A a → Within m P E B (f a)) : Within m P E B (x >>= f) := by
  constructor
  case events =>
    intro s
    obtain ⟨first, hfirst, hfirstP⟩ := hx.events s
    rw [execute_bind]
    rcases hrun : execute x m s with ⟨e | a, t⟩
    · exact ⟨first, by simpa [hrun] using hfirst, hfirstP⟩
    · obtain ⟨more, hmore, hmoreP⟩ := (hf a (hx.value s a (by rw [hrun]))).events t
      rw [hrun] at hfirst
      refine ⟨first ++ more, ?_, fun e he => ?_⟩
      · exact hmore.trans (by rw [hfirst, List.append_assoc])
      · exact (List.mem_append.1 he).elim (hfirstP e) (hmoreP e)
  case failure =>
    intro s e he
    rw [execute_bind] at he
    rcases hrun : execute x m s with ⟨e' | a, t⟩
    · rw [hrun] at he
      cases he
      exact hx.failure s e (by rw [hrun])
    · rw [hrun] at he
      exact (hf a (hx.value s a (by rw [hrun]))).failure t e he
  case value =>
    intro s b hb
    obtain ⟨a, mid, ha, hb⟩ := execute_bind_eq_ok_iff.1 (Prod.ext hb rfl)
    exact (hf a (hx.value s a (by rw [ha]))).value mid b (by rw [hb])

/-- A call is bounded if it is, and all its possible failures are. -/
theorem perform {c : Call} (hc : P (.call c)) (hrefused : ∀ n e, m.fault? n c = some e → E e)
    (hdisk : ∀ fault, E (c.failure fault)) : Within m P E (fun _ => True) (perform c) := by
  constructor
  case events =>
    exact fun s => ⟨[.call c], events_perform c s, by simpa using hc⟩
  case failure =>
    intro s e he
    rw [execute_perform] at he
    split at he
    · rename_i e' hrefuse
      cases he
      exact hrefused _ _ hrefuse
    · split at he
      · cases he
      · cases he
        exact hdisk _
  case value => exact fun _ _ _ => trivial

/-- The failure of an attempt does not end the run, but it is bounded as before. -/
theorem attempt {F : Error → Prop} {x : Run Unit} (h : Within m P F (fun _ => True) x) :
    Within m P E (fun failure => ∀ e, failure = some e → F e) (attempt x) := by
  constructor
  case events =>
    intro s
    obtain ⟨added, heq, hadded⟩ := h.events s
    refine ⟨added, ?_, hadded⟩
    rw [execute_attempt]
    rcases hrun : execute x m s with ⟨_ | _, t⟩ <;> simpa [hrun] using heq
  case failure =>
    intro s e he
    rw [execute_attempt] at he
    rcases hrun : execute x m s with ⟨_ | _, t⟩ <;> simp [hrun] at he
  case value =>
    intro s failure hvalue e he
    rw [execute_attempt] at hvalue
    rcases hrun : execute x m s with ⟨e' | _, t⟩
    · simp only [hrun, Except.ok.injEq] at hvalue
      rw [he, Option.some.injEq] at hvalue
      exact h.failure s e (by rw [hrun, hvalue])
    · simp only [hrun, Except.ok.injEq] at hvalue
      rw [he] at hvalue
      cases hvalue

theorem forM {items : List α} {f : α → Run PUnit}
    (h : ∀ a ∈ items, Within m P E (fun _ => True) (f a)) :
    Within m P E (fun _ => True) (items.forM f) := by
  induction items with
  | nil => exact .pure trivial
  | cons a items ih =>
      refine (h a List.mem_cons_self).bind fun _ _ => ?_
      exact ih fun b hb => h b (List.mem_cons_of_mem _ hb)

theorem mapM {items : List α} {f : α → Run β} (h : ∀ a ∈ items, Within m P E B (f a)) :
    Within m P E (fun bs => ∀ b ∈ bs, B b) (items.mapM f) := by
  induction items with
  | nil => exact .pure (by simp)
  | cons a items ih =>
      rw [List.mapM_cons]
      refine (h a List.mem_cons_self).bind fun b hb => ?_
      refine (ih fun c hc => h c (List.mem_cons_of_mem _ hc)).bind fun bs hbs => ?_
      exact .pure (by simpa using ⟨hb, hbs⟩)

theorem start {name : String} {program : Program} {directory : Path}
    (h : P (.start name directory))
    (hrefused : ∀ fault, E (.disk .run (m.programPath name) fault)) :
    Within m P E (fun _ => True) (start name program directory) := by
  refine .read_bind (.get_bind fun s => (Within.record h).bind fun _ _ => ?_)
  split
  · exact .throw (hrefused _)
  · constructor
    case events => exact fun t => ⟨[], (List.append_nil _).symm, by simp⟩
    case failure =>
      intro t e he
      cases he
    case value => exact fun _ _ _ => trivial

theorem exists? {path : Path} (h : P (.call (.exists path))) :
    Within m P E (fun _ => True) (exists? path) :=
  .get_bind fun _ => (Within.record h).bind fun _ _ => .pure trivial

/-- Rendering adds no event. -/
theorem render {artifact : Artifact} {context : Json}
    (h : ∀ e, m.render artifact context = .error e → E e) :
    Within m P E (fun _ => True) (render artifact context) := by
  refine .read_bind ?_
  cases hrender : m.render artifact context with
  | ok text => exact .pure trivial
  | error e => exact .throw (h e hrender)

end Within

/-! ## Calls that are made -/

/-- A run makes the given call. -/
def Makes (m : Machine) (x : Run α) (s : State) (call : Call) : Prop :=
  ∃ added, (execute x m s).2.events = s.events ++ added ∧ Event.call call ∈ added

theorem makes_perform (call : Call) (s : State) : Makes m (perform call) s call :=
  ⟨[.call call], events_perform call s, List.mem_cons_self⟩

namespace Makes

variable {P : Event → Prop} {E : Error → Prop} {A : α → Prop} {B : β → Prop}
  {x : Run α} {f : α → Run β} {s t : State} {a : α} {call : Call}

/-- What the first part of a sequence has done stays done. -/
theorem bind_left (h : Makes m x s call) (hf : ∀ a, Within m P E B (f a)) :
    Makes m (x >>= f) s call := by
  obtain ⟨first, hfirst, hcall⟩ := h
  rw [Makes, execute_bind]
  rcases hrun : execute x m s with ⟨e | a, t⟩
  · exact ⟨first, by rw [← hfirst, hrun], hcall⟩
  · obtain ⟨more, hmore, _⟩ := (hf a).events t
    rw [hrun] at hfirst
    refine ⟨first ++ more, ?_, List.mem_append_left _ hcall⟩
    exact hmore.trans (by rw [hfirst, List.append_assoc])

/-- The second part of a sequence is reached if the first succeeds. -/
theorem bind_right (hx : Within m P E A x) (hrun : execute x m s = (.ok a, t))
    (h : Makes m (f a) t call) : Makes m (x >>= f) s call := by
  obtain ⟨first, hfirst, _⟩ := hx.events s
  obtain ⟨more, hmore, hcall⟩ := h
  rw [hrun] at hfirst
  refine ⟨first ++ more, ?_, List.mem_append_right _ hcall⟩
  rw [execute_bind, hrun]
  exact hmore.trans (by rw [hfirst, List.append_assoc])

end Makes

end TypedClient.Emission
