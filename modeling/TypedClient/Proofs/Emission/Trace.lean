import TypedClient.Proofs.Emission.Run

/-!
# Traces

The events of a run say what was tried, not how it ended. A trace is the list of the acts of a run,
each with its outcome: `Trace m s acts t` leads from the state `s` to the state `t` by acts that
happen one after the other. `Goes m x Q` says that from every state the run `x` leaves a trace which
is related by `Q` to its own outcome; it holds of a sequence if the parts fit together.
-/

namespace TypedClient.Emission

open Files

variable {α β : Type} {m : Machine} {s t : State}

/-- Something that is done during a run, and how it ends. -/
inductive Act where
  | look (path : Path)
  | call (call : Call) (failure : Option Error)
  | run (program : String) (directory : Path) (outcome : Except Error Nat)

namespace Act

/-- What is recorded of an act. -/
def event : Act → Event
  | .look path => .call (.exists path)
  | .call c _ => .call c
  | .run program directory _ => .start program directory

/-- The failure of an act. A program that was started did not fail, whatever its exit code is. -/
def failure : Act → Option Error
  | .look _ => none
  | .call _ failure => failure
  | .run _ _ (.ok _) => none
  | .run _ _ (.error e) => some e

end Act

/-- The outcome of a step of which the failure is known. -/
def outcomeOf : Option Error → Except Error Unit
  | none => .ok ()
  | some e => .error e

@[simp]
theorem outcomeOf_eq_ok_iff {failure : Option Error} :
    outcomeOf failure = .ok () ↔ failure = none := by
  cases failure <;> simp [outcomeOf]

theorem exists_outcomeOf (result : Except Error Unit) : ∃ failure, outcomeOf failure = result := by
  cases result with
  | ok u => exact ⟨none, rfl⟩
  | error e => exact ⟨some e, rfl⟩

/-- An act leads from one state to another. -/
inductive Happens (m : Machine) : State → Act → State → Prop where
  | look {s t : State} {path : Path} {found : Bool} :
      execute (exists? path) m s = (.ok found, t) → Happens m s (.look path) t
  | call {s t : State} {call : Call} {failure : Option Error} :
      execute (perform call) m s = (outcomeOf failure, t) → Happens m s (.call call failure) t
  | run {s t : State} {name : String} {program : Program} {directory : Path}
      {outcome : Except Error Nat} : m.program? name = some program →
      execute (start name program directory) m s = (outcome, t) →
      Happens m s (.run name directory outcome) t

/-- Acts that happen one after the other. -/
inductive Trace (m : Machine) : State → List Act → State → Prop where
  | nil (s : State) : Trace m s [] s
  | cons {s mid t : State} {act : Act} {rest : List Act} :
      Happens m s act mid → Trace m mid rest t → Trace m s (act :: rest) t

namespace Trace

theorem single {act : Act} (h : Happens m s act t) : Trace m s [act] t := .cons h (.nil t)

theorem append {mid : State} {first more : List Act} (hfirst : Trace m s first mid)
    (hmore : Trace m mid more t) : Trace m s (first ++ more) t := by
  induction hfirst with
  | nil s => exact hmore
  | cons hact _ ih => exact .cons hact (ih hmore)

end Trace

theorem events_start (name : String) (program : Program) (directory : Path) (s : State) :
    (execute (start name program directory) m s).2.events =
      s.events ++ [.start name directory] := by
  rw [start, execute_read_bind, execute_get_bind, execute_bind, execute_record]
  dsimp only
  cases m.startFault? s.events.length name <;> rfl

theorem Happens.events {act : Act} (h : Happens m s act t) :
    t.events = s.events ++ [act.event] := by
  cases h with
  | look h =>
      cases h
      rfl
  | @call _ c failure h =>
      have hevents := events_perform (m := m) c s
      rwa [h] at hevents
  | @run _ name program directory outcome _ h =>
      have hevents := events_start (m := m) name program directory s
      rwa [h] at hevents

/-- A trace is of all that was recorded, in its order. -/
theorem Trace.events {acts : List Act} (h : Trace m s acts t) :
    t.events = s.events ++ acts.map Act.event := by
  induction h with
  | nil s => simp
  | cons hact _ ih => simp [ih, hact.events]

/-! ## How runs go -/

/-- From every state a run leaves a trace that is related to its outcome. -/
def Goes (m : Machine) (x : Run α) (Q : List Act → Except Error α → Prop) : Prop :=
  ∀ s, ∃ acts, Trace m s acts (execute x m s).2 ∧ Q acts (execute x m s).1

namespace Goes

variable {x : Run α} {f : α → Run β} {Q : List Act → Except Error α → Prop}
  {R : List Act → Except Error β → Prop}

theorem imp {Q' : List Act → Except Error α → Prop} (h : Goes m x Q)
    (himp : ∀ acts result, Q acts result → Q' acts result) : Goes m x Q' := by
  intro s
  obtain ⟨acts, htrace, hacts⟩ := h s
  exact ⟨acts, htrace, himp _ _ hacts⟩

theorem pure {a : α} (h : Q [] (.ok a)) : Goes m (pure a : Run α) Q := fun s => ⟨[], .nil s, h⟩

theorem throw {e : Error} (h : Q [] (.error e)) : Goes m (throw e : Run α) Q :=
  fun s => ⟨[], .nil s, h⟩

theorem read_bind {f : Machine → Run α} (h : Goes m (f m) Q) : Goes m (read >>= f) Q := h

/-- In a sequence the acts of the second part follow those of the first, unless that fails. -/
theorem bind (hx : Goes m x Q) (herror : ∀ acts e, Q acts (.error e) → R acts (.error e))
    (hf : ∀ first a, Q first (.ok a) → Goes m (f a) fun more result => R (first ++ more) result) :
    Goes m (x >>= f) R := by
  intro s
  obtain ⟨first, hfirst, hQ⟩ := hx s
  rw [execute_bind]
  rcases hrun : execute x m s with ⟨e | a, mid⟩
  · rw [hrun] at hfirst hQ
    exact ⟨first, hfirst, herror first e hQ⟩
  · rw [hrun] at hfirst hQ
    obtain ⟨more, hmore, hR⟩ := hf first a hQ mid
    exact ⟨first ++ more, hfirst.append hmore, hR⟩

theorem perform {call : Call} {Q : List Act → Except Error Unit → Prop}
    (h : ∀ failure, Q [.call call failure] (outcomeOf failure)) : Goes m (perform call) Q := by
  intro s
  obtain ⟨failure, hfailure⟩ := exists_outcomeOf (execute (Emission.perform call) m s).1
  refine ⟨[.call call failure], .single (.call (Prod.ext hfailure.symm rfl)), ?_⟩
  rw [← hfailure]
  exact h failure

/-- An attempt does the same, and hands over the failure. -/
theorem attempt {x : Run Unit} {Q : List Act → Except Error Unit → Prop}
    {R : List Act → Except Error (Option Error) → Prop} (h : Goes m x Q)
    (hR : ∀ acts failure, Q acts (outcomeOf failure) → R acts (.ok failure)) :
    Goes m (attempt x) R := by
  intro s
  obtain ⟨acts, htrace, hacts⟩ := h s
  rw [execute_attempt]
  rcases hrun : execute x m s with ⟨e | u, t⟩
  · rw [hrun] at htrace hacts
    exact ⟨acts, htrace, hR acts (some e) hacts⟩
  · rw [hrun] at htrace hacts
    exact ⟨acts, htrace, hR acts none hacts⟩

theorem exists? {path : Path} {Q : List Act → Except Error Bool → Prop}
    (h : ∀ found, Q [.look path] (.ok found)) : Goes m (exists? path) Q :=
  fun _ => ⟨[.look path], .single (.look rfl), h _⟩

theorem start {name : String} {program : Program} {directory : Path}
    {Q : List Act → Except Error Nat → Prop} (hprogram : m.program? name = some program)
    (h : ∀ outcome, Q [.run name directory outcome] outcome) :
    Goes m (start name program directory) Q :=
  fun _ => ⟨[.run name directory _], .single (.run hprogram rfl), h _⟩

theorem render {artifact : Artifact} {context : Json} {Q : List Act → Except Error String → Prop}
    (h : Q [] (m.render artifact context)) : Goes m (render artifact context) Q := by
  intro s
  rw [execute_render]
  exact ⟨[], .nil s, h⟩

end Goes

end TypedClient.Emission
