import Mathlib
import FuncWarble.Machine.Interleaving

/-! # Servers one after the other

A server that stops loses its calls in flight, and the one that follows it starts with no calls on
the same state. A call that never takes another step is as good as lost, so the runs of successive
servers are one run, in which the tasks of the earlier ones stand still.
-/

namespace FuncWarble.Machine

variable {Op : Type} {Ans : Op → Type} {Call ρ σ : Type}

/-- The event of a server whose tasks stand behind `n` other ones. -/
def Event.behind (n : ℕ) : Event Call → Event Call
  | .invoke call => .invoke call
  | .advance index => .advance (n + index)

/-- The configuration of a server that comes after another one. -/
def Config.after (old c : Config Ans Call ρ σ) : Config Ans Call ρ σ :=
  ⟨⟨c.world.state, old.world.trace ++ c.world.trace⟩, old.tasks ++ c.tasks⟩

namespace System

variable {sys : System Ans Call ρ σ}

theorem after_initial (old : Config Ans Call ρ σ) :
    old.after (initial old.world.state) = old := by
  simp [Config.after, initial]

/-- The tasks of the earlier server do not affect a step. -/
theorem step_after (old c : Config Ans Call ρ σ) (event : Event Call) :
    sys.step (old.after c) (event.behind old.tasks.length) = old.after (sys.step c event) := by
  cases event with
  | invoke call => simp [step, Event.behind, Config.after]
  | advance index =>
    have same : (old.tasks ++ c.tasks)[old.tasks.length + index]? = c.tasks[index]? := by
      rw [List.getElem?_append_right (Nat.le_add_right ..), Nat.add_sub_cancel_left]
    have moved (task : Task Ans Call ρ) :
        (old.tasks ++ c.tasks).set (old.tasks.length + index) task =
          old.tasks ++ c.tasks.set index task := by
      rw [List.set_append_right _ _ (Nat.le_add_right ..), Nat.add_sub_cancel_left]
    cases current : c.tasks[index]? with
    | none => simp only [step, Event.behind, Config.after, same, current]
    | some task =>
      obtain ⟨call, result | ⟨op, next⟩⟩ := task
      · cases resumed : sys.resume result with
        | none => simp only [step, Event.behind, Config.after, same, current, resumed]
        | some prog => simp only [step, Event.behind, Config.after, same, current, resumed, moved]
      · simp only [step, Event.behind, Config.after, same, current, moved, perform, answer,
          List.append_assoc]

/-- The run of the later server goes on from where the earlier one stopped. -/
theorem run_after (old c : Config Ans Call ρ σ) (events : List (Event Call)) :
    sys.run (old.after c) (events.map (Event.behind old.tasks.length)) =
      old.after (sys.run c events) := by
  induction events generalizing c with
  | nil => rfl
  | cons event events ih =>
    rw [List.map_cons, run, List.foldl_cons, step_after]
    exact ih (sys.step c event)

/-- The runs of two servers are one run. -/
theorem run_append_behind (s : σ) (before events : List (Event Call)) :
    let old := sys.run (initial s) before
    sys.run (initial s) (before ++ events.map (Event.behind old.tasks.length)) =
      old.after (sys.run (initial old.world.state) events) := by
  intro old
  rw [run, List.foldl_append]
  have later := @run_after _ _ _ _ _ sys old (initial old.world.state) events
  rw [after_initial] at later
  exact later

end System

end FuncWarble.Machine
