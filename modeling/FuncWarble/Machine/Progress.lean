import Mathlib
import FuncWarble.Machine.Guarantee

/-! # Calls that return

A call cannot wait for another one, but the others may change what it finds, and so how many steps
it still has to take. It ends if there is no way for it to go on for ever. Under a schedule that
never stops letting it take steps it then returns.
-/

namespace FuncWarble.Machine.System

variable {Op : Type} {Ans : Op → Type} {Call ρ σ : Type} (sys : System Ans Call ρ σ)

/-- Whatever the other calls do between its operations, the program returns after finitely many
steps of its own. -/
inductive Ends (inv : World Op Call σ → Prop) (call : Call) : Program Ans ρ → World Op Call σ → Prop
  | returned {result : ρ} {w : World Op Call σ} (last : sys.resume result = none) :
    Ends inv call (.ret result) w
  | resume {result : ρ} {prog : Program Ans ρ} {w : World Op Call σ}
    (resumed : sys.resume result = some prog) (ends : Ends inv call prog w) :
    Ends inv call (.ret result) w
  | perform {op : Op} {next : Ans op → Program Ans ρ} {w : World Op Call σ}
    (each : ∀ w', Later w w' → inv w' →
      Ends inv call (next (sys.answer op w')) (sys.perform call op w')) :
    Ends inv call (.call op next) w

variable {sys} {inv : World Op Call σ → Prop} {call : Call} {prog : Program Ans ρ}
  {w w' : World Op Call σ}

/-- A program ends whose every result ends. The calls that run beside it may be restricted further
than by the invariant that it keeps. -/
theorem Keeps.ends {extra : World Op Call σ → Prop}
    (kept' : ∀ op w, extra w → extra (sys.perform call op w))
    {post : ρ → World Op Call σ → Prop} (keeps : sys.Keeps inv call post prog w)
    (kept : inv w ∧ extra w) (leaf : ∀ result w', Later w w' → inv w' ∧ extra w' →
      post result w' → sys.Ends (fun w => inv w ∧ extra w) call (.ret result) w') :
    sys.Ends (fun w => inv w ∧ extra w) call prog w := by
  induction prog generalizing w with
  | ret result => exact leaf result w (Later.refl w) kept (keeps w (Later.refl w) kept.1)
  | call op next ih =>
    refine .perform fun w' later also => ?_
    obtain ⟨performed, onward⟩ := keeps w' later also.1
    refine ih _ onward ⟨performed, kept' op w' also.2⟩ fun result w'' after => ?_
    exact leaf result w'' ((later.trans (later_perform sys call op w')).trans after)

variable (sys) in
/-- The configuration before event number `n` of a schedule. -/
def follow (c : Config Ans Call ρ σ) (schedule : ℕ → Event Call) : ℕ → Config Ans Call ρ σ
  | 0 => c
  | n + 1 => sys.step (follow c schedule n) (schedule n)

/-- Every beginning of a schedule is a run. -/
theorem follow_eq_run (c : Config Ans Call ρ σ) (schedule : ℕ → Event Call) (n : ℕ) :
    sys.follow c schedule n = sys.run c ((List.range n).map schedule) := by
  induction n with
  | zero => rfl
  | succ n ih =>
    rw [follow, ih, List.range_succ, List.map_append]
    exact (List.foldl_concat ..).symm

theorem later_step (c : Config Ans Call ρ σ) (event : Event Call) :
    Later c.world (sys.step c event).world := by
  have stepped := sys.step_cases c event
  generalize sys.step c event = c' at stepped ⊢
  cases stepped with
  | stay | invoke | resume => exact Later.refl _
  | perform index call op next current => exact later_perform sys call op c.world

/-- The step of another call leaves a task as it is. -/
theorem step_getElem?_of_ne {c : Config Ans Call ρ σ} {event : Event Call} {index : ℕ}
    {task : Task Ans Call ρ} (current : c.tasks[index]? = some task)
    (other : event ≠ .advance index) : (sys.step c event).tasks[index]? = some task := by
  have stepped := sys.step_cases c event
  generalize sys.step c event = c' at stepped ⊢
  cases stepped with
  | stay => exact current
  | invoke call =>
    have inside := (List.getElem?_eq_some_iff.mp current).1
    exact (List.getElem?_append_left inside).trans current
  | perform moved | resume moved =>
    have different : moved ≠ index := fun same => other (congrArg Event.advance same)
    exact (List.getElem?_set_ne different).trans current

variable {c : Config Ans Call ρ σ} {schedule : ℕ → Event Call} {index n : ℕ}

/-- A task waits for its next step. -/
private theorem follow_waits {m : ℕ} (le : n ≤ m)
    (others : ∀ k, n ≤ k → k < m → schedule k ≠ .advance index) {task : Task Ans Call ρ}
    (current : (sys.follow c schedule n).tasks[index]? = some task) :
    (sys.follow c schedule m).tasks[index]? = some task ∧
      Later (sys.follow c schedule n).world (sys.follow c schedule m).world := by
  induction m, le using Nat.le_induction with
  | base => exact ⟨current, Later.refl _⟩
  | succ m le ih =>
    obtain ⟨still, later⟩ := ih fun k after before => others k after (by omega)
    refine ⟨?_, later.trans (later_step _ _)⟩
    exact step_getElem?_of_ne still (others m le (by omega))

/-- Under a fair schedule there is a next step of every task, and the task is still there. -/
private theorem exists_next (fair : ∀ k, ∃ m, k ≤ m ∧ schedule m = .advance index)
    {task : Task Ans Call ρ}
    (current : (sys.follow c schedule n).tasks[index]? = some task) : ∃ m, n ≤ m ∧
      (sys.follow c schedule m).tasks[index]? = some task ∧
      Later (sys.follow c schedule n).world (sys.follow c schedule m).world ∧
      sys.follow c schedule (m + 1) = sys.step (sys.follow c schedule m) (.advance index) := by
  classical
  obtain ⟨le, turn⟩ := Nat.find_spec (fair n)
  obtain ⟨still, later⟩ := follow_waits le
    (fun k after before taken => Nat.find_min (fair n) before ⟨after, taken⟩) current
  refine ⟨_, le, still, later, ?_⟩
  rw [follow, turn]

/-- A call that ends returns under every schedule that goes on letting it take steps. -/
theorem Ends.returns (kept : ∀ k, inv (sys.follow c schedule k).world)
    (fair : ∀ k, ∃ m, k ≤ m ∧ schedule m = .advance index)
    (ends : sys.Ends inv call prog w) (before : Later w (sys.follow c schedule n).world)
    (current : (sys.follow c schedule n).tasks[index]? = some ⟨call, prog⟩) : ∃ m result, n ≤ m ∧
      (sys.follow c schedule m).tasks[index]? = some ⟨call, .ret result⟩ ∧
      sys.resume result = none := by
  induction ends generalizing n with
  | @returned result w last => exact ⟨n, result, le_rfl, current, last⟩
  | @resume result prog w resumed ends ih =>
    obtain ⟨m, le, still, later, stepped⟩ := exists_next fair current
    have inside := (List.getElem?_eq_some_iff.mp still).1
    have moved : (sys.follow c schedule (m + 1)).tasks[index]? = some ⟨call, prog⟩ ∧
        (sys.follow c schedule (m + 1)).world = (sys.follow c schedule m).world := by
      simp only [stepped, step, still, resumed]
      exact ⟨List.getElem?_set_self inside, trivial⟩
    have onward : Later w (sys.follow c schedule (m + 1)).world := by
      rw [moved.2]
      exact before.trans later
    obtain ⟨m', result', after, ended⟩ := ih onward moved.1
    exact ⟨m', result', by omega, ended⟩
  | @perform op next w each ih =>
    obtain ⟨m, le, still, later, stepped⟩ := exists_next fair current
    have inside := (List.getElem?_eq_some_iff.mp still).1
    have moved : (sys.follow c schedule (m + 1)).tasks[index]? =
        some ⟨call, next (sys.answer op (sys.follow c schedule m).world)⟩ ∧
        (sys.follow c schedule (m + 1)).world =
          sys.perform call op (sys.follow c schedule m).world := by
      simp only [stepped, step, still]
      exact ⟨List.getElem?_set_self inside, trivial⟩
    have onward : Later (sys.perform call op (sys.follow c schedule m).world)
        (sys.follow c schedule (m + 1)).world := by
      rw [moved.2]
      exact Later.refl _
    obtain ⟨m', result, after, ended⟩ :=
      ih _ (before.trans later) (kept m) onward moved.1
    exact ⟨m', result, by omega, ended⟩

/-- What holds of all calls that arrive holds of all tasks and of the calls of the trace. -/
theorem run_calls {P : Call → Prop} {s : σ} {events : List (Event Call)}
    (arrive : ∀ call, .invoke call ∈ events → P call) :
    (∀ task ∈ (sys.run (initial s) events).tasks, P task.call) ∧
      ∀ performed ∈ (sys.run (initial s) events).world.trace, P performed.1 := by
  induction events using List.reverseRecOn with
  | nil => exact ⟨List.forall_mem_nil _, List.forall_mem_nil _⟩
  | append_singleton events event ih =>
    obtain ⟨tasks, trace⟩ := ih fun call member => arrive call (List.mem_append_left _ member)
    rw [show sys.run (initial s) (events ++ [event]) =
      sys.step (sys.run (initial s) events) event from List.foldl_concat ..]
    generalize sys.run (initial s) events = c at tasks trace ⊢
    have stepped := sys.step_cases c event
    generalize sys.step c event = c' at stepped ⊢
    cases stepped with
    | stay => exact ⟨tasks, trace⟩
    | invoke call =>
      have new : P call := arrive call (List.mem_append_right _ (List.mem_singleton_self _))
      exact ⟨forall_mem_concat tasks new, trace⟩
    | perform index call op next current =>
      have own : P call := tasks _ (List.mem_of_getElem? current)
      refine ⟨forall_mem_set tasks ?_ index, forall_mem_concat trace own⟩
      exact own
    | resume index call result prog current resumed =>
      have own : P call := tasks _ (List.mem_of_getElem? current)
      refine ⟨forall_mem_set tasks ?_ index, trace⟩
      exact own

end FuncWarble.Machine.System
