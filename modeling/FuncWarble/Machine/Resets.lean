import Mathlib
import FuncWarble.Machine.Loop
import FuncWarble.Machine.Interleaving

/-! # Resets that nobody notices

The shared state of a system may be reset between any two operations of its calls, and a reset may
fail. If it leads to a state that answers every operation as before, then no call can tell a run
with resets from the run without them.
-/

namespace FuncWarble.Machine.System

variable {Op R ε : Type} {Ans : Op → Type} {Call ρ σ : Type}

/-- What happens in a run with resets. -/
inductive Occurrence (Call R : Type) where
  | event (event : Event Call)
  | reset (reset : R)
deriving DecidableEq

/-- The event of the system, if it is one. -/
def Occurrence.event? : Occurrence Call R → Option (Event Call)
  | .event happened => some happened
  | .reset _ => none

variable (sys : System Ans Call ρ σ) (befall : R → σ → Except ε σ)

/-- One occurrence; only a reset can fail. -/
def occur (c : Config Ans Call ρ σ) : Occurrence Call R → Except ε (Config Ans Call ρ σ)
  | .event event => .ok (sys.step c event)
  | .reset reset => (befall reset c.world.state).map fun s => ⟨⟨s, c.world.trace⟩, c.tasks⟩

/-- Related states answer every operation that a call may ask for alike, before and after resets of
the first one. `shape` says what may be left of a call, and `arrives` which calls there are. -/
structure Unnoticed (arrives : Call → Prop) (shape : Call → Program Ans ρ → Prop)
    (related : σ → σ → Prop) : Prop where
  start : ∀ call, arrives call → shape call (sys.start call)
  answered : ∀ call op next answer, shape call (.call op next) → shape call (next answer)
  resumed : ∀ call result prog, shape call (.ret result) → sys.resume result = some prog →
    shape call prog
  answers : ∀ call op next s t, shape call (.call op next) → related s t →
    (sys.handler op s).1 = (sys.handler op t).1 ∧
      related (sys.handler op s).2 (sys.handler op t).2
  resets : ∀ reset s t, related s t → ∃ s', befall reset s = .ok s' ∧ related s' t

/-- Two configurations that the calls cannot tell apart. -/
structure Alike (shape : Call → Program Ans ρ → Prop) (related : σ → σ → Prop)
    (c d : Config Ans Call ρ σ) : Prop where
  tasks : c.tasks = d.tasks
  trace : c.world.trace = d.world.trace
  state : related c.world.state d.world.state
  shapes : ∀ task ∈ d.tasks, shape task.call task.prog

variable {sys befall} {arrives : Call → Prop} {shape : Call → Program Ans ρ → Prop}
  {related : σ → σ → Prop} {c d : Config Ans Call ρ σ}

/-- An event of the system. -/
theorem Unnoticed.step (unnoticed : sys.Unnoticed befall arrives shape related) {event : Event Call}
    (arrived : ∀ call, event = .invoke call → arrives call) (alike : Alike shape related c d) :
    Alike shape related (sys.step c event) (sys.step d event) := by
  obtain ⟨⟨s, trace⟩, tasks⟩ := c
  obtain ⟨⟨t, trace'⟩, tasks'⟩ := d
  obtain ⟨rfl, rfl, state, shapes⟩ := alike
  cases event with
  | invoke call =>
    exact ⟨rfl, rfl, state, forall_mem_concat shapes (unnoticed.start call (arrived call rfl))⟩
  | advance index =>
    simp only [System.step]
    cases current : tasks[index]? with
    | none => exact ⟨rfl, rfl, state, shapes⟩
    | some task =>
      obtain ⟨call, prog⟩ := task
      have shaped := shapes _ (List.mem_of_getElem? current)
      cases prog with
      | ret result =>
        simp only
        cases resumed : sys.resume result with
        | none => exact ⟨rfl, rfl, state, shapes⟩
        | some prog =>
          exact ⟨rfl, rfl, state,
            forall_mem_set shapes (unnoticed.resumed call result prog shaped resumed) index⟩
      | call op next =>
        obtain ⟨same, state'⟩ := unnoticed.answers call op next s t shaped state
        refine ⟨?_, rfl, state', ?_⟩
        · simp only [answer, same]
        · exact forall_mem_set shapes (unnoticed.answered call op next _ shaped) index

/-- A run with resets goes through, and its calls are where they are without the resets. -/
theorem Unnoticed.run (unnoticed : sys.Unnoticed befall arrives shape related)
    {occurrences : List (Occurrence Call R)}
    (arrived : ∀ call, .event (.invoke call) ∈ occurrences → arrives call) {s t : σ}
    (start : related s t) : ∃ last, occurrences.foldlM (sys.occur befall) (initial s) = .ok last ∧
      Alike shape related last (sys.run (initial t) (occurrences.filterMap Occurrence.event?)) := by
  refine Loop.foldlM_total (fun before c => Alike shape related c
    (sys.run (initial t) (before.filterMap Occurrence.event?))) ?_ ?_
  · exact ⟨rfl, rfl, start, List.forall_mem_nil _⟩
  · intro before occurrence c member alike
    rw [List.filterMap_append, System.run, List.foldl_append]
    cases occurrence with
    | event event =>
      refine ⟨_, rfl, unnoticed.step ?_ alike⟩
      rintro call rfl
      exact arrived call member
    | reset reset =>
      obtain ⟨s', befell, state⟩ := unnoticed.resets reset _ _ alike.state
      refine ⟨⟨⟨s', c.world.trace⟩, c.tasks⟩, ?_, alike.tasks, alike.trace, state, alike.shapes⟩
      rw [occur, befell]
      rfl

end FuncWarble.Machine.System
