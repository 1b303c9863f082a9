import Mathlib
import FuncWarble.Machine.Interleaving

/-! # Linearizability

A call is atomic for a view of the state when one of its operations does to the view, and promises
to return, what the call means, and no other operation of it touches the view. The order in which
the calls of a run have performed this operation is then a sequential history: served in it, one
after the other, the calls return what they return in the run. The order only grows while the run
goes on, so a call that has returned comes before every call that arrives later.
-/

namespace FuncWarble.Machine.System

variable {Op : Type} {Ans : Op → Type} {Call ρ σ α : Type}

section Atomic

variable (sys : System Ans Call ρ σ) (view : σ → α) (effective : Op → Bool)

/-- What is left of a call that has taken effect and is going to return `result`. -/
def Settled (result : ρ) : Program Ans ρ → Prop
  | .ret value => value = result
  | .call op next => effective op = false ∧ ∀ s, view (sys.handler op s).2 = view s ∧
      Settled result (next (sys.handler op s).1)

/-- What is left of a call that has yet to take effect, and to do what `meaning` says. -/
def Pending (meaning : α → ρ × α) : Program Ans ρ → Prop
  | .ret _ => False
  | .call op next => ∀ s,
      if effective op then view (sys.handler op s).2 = (meaning (view s)).2 ∧
        sys.Settled view effective (meaning (view s)).1 (next (sys.handler op s).1)
      else view (sys.handler op s).2 = view s ∧ Pending meaning (next (sys.handler op s).1)

/-- The call that takes effect in an event, with the position of its task. -/
def takesEffect (c : Config Ans Call ρ σ) : Event Call → Option (ℕ × Call)
  | .invoke _ => none
  | .advance index =>
    match c.tasks[index]? with
    | some ⟨call, .call op _⟩ => if effective op then some (index, call) else none
    | _ => none

/-- The calls of a run in the order in which they take effect. -/
def effectOrder (c : Config Ans Call ρ σ) : List (Event Call) → List (ℕ × Call)
  | [] => []
  | event :: events =>
    (takesEffect effective c event).toList ++ effectOrder (sys.step c event) events

theorem effectOrder_append (c : Config Ans Call ρ σ) (before after : List (Event Call)) :
    sys.effectOrder effective c (before ++ after) =
      sys.effectOrder effective c before ++ sys.effectOrder effective (sys.run c before) after := by
  induction before generalizing c with
  | nil => rfl
  | cons event before ih =>
    rw [List.cons_append, effectOrder, effectOrder, ih, List.append_assoc]
    rfl

/-- What calls do to the view when they are served one after the other. -/
def serial (meaning : Call → α → ρ × α) (a : α) (calls : List Call) : α :=
  calls.foldl (fun a call => (meaning call a).2) a

/-- The order explains a task: either the call is not in it and pending, or it has settled on the
result that it has when the calls before it are served one after the other. -/
def Explained (meaning : Call → α → ρ × α) (a : α) (order : List (ℕ × Call)) (index : ℕ)
    (task : Task Ans Call ρ) : Prop :=
  (index ∉ order.map Prod.fst ∧ sys.Pending view effective (meaning task.call) task.prog) ∨
    ∃ before, before ++ [(index, task.call)] <+: order ∧ sys.Settled view effective
      (meaning task.call (serial meaning a (before.map Prod.snd))).1 task.prog

/-- The order explains a configuration: its tasks, and the view of its state. -/
structure Linearized (meaning : Call → α → ρ × α) (a : α) (c : Config Ans Call ρ σ)
    (order : List (ℕ × Call)) : Prop where
  nodup : (order.map Prod.fst).Nodup
  placed : ∀ entry ∈ order, ∃ prog, c.tasks[entry.1]? = some ⟨entry.2, prog⟩
  viewed : view c.world.state = serial meaning a (order.map Prod.snd)
  explained : ∀ index task, c.tasks[index]? = some task →
    sys.Explained view effective meaning a order index task

end Atomic

variable {sys : System Ans Call ρ σ} {view : σ → α} {effective : Op → Bool}
  {meaning : Call → α → ρ × α} {a : α} {c : Config Ans Call ρ σ} {order : List (ℕ × Call)}

theorem serial_concat (calls : List Call) (call : Call) :
    serial meaning a (calls ++ [call]) = (meaning call (serial meaning a calls)).2 :=
  List.foldl_concat ..

/-- Other calls may take effect: what explains a task still does. -/
theorem Explained.concat {index other : ℕ} {task : Task Ans Call ρ} {call : Call}
    (explained : sys.Explained view effective meaning a order index task) (ne : index ≠ other) :
    sys.Explained view effective meaning a (order ++ [(other, call)]) index task := by
  rcases explained with ⟨absent, pending⟩ | ⟨before, isPrefix, settled⟩
  · refine .inl ⟨?_, pending⟩
    simpa [ne] using absent
  · exact .inr ⟨before, isPrefix.trans (List.prefix_append ..), settled⟩

/-- The tasks that are not advanced are explained as before. -/
private theorem explained_set {index : ℕ} {new : Task Ans Call ρ} {order' : List (ℕ × Call)}
    (explained : ∀ other task, c.tasks[other]? = some task → other ≠ index →
      sys.Explained view effective meaning a order' other task)
    (advanced : sys.Explained view effective meaning a order' index new) :
    ∀ other task, (c.tasks.set index new)[other]? = some task →
      sys.Explained view effective meaning a order' other task := by
  intro other task found
  rcases eq_or_ne other index with rfl | ne
  · rw [List.getElem?_set_self'] at found
    obtain ⟨old, _, rfl⟩ := Option.map_eq_some_iff.mp found
    exact advanced
  · rw [List.getElem?_set_ne ne.symm] at found
    exact explained other task found ne

private theorem placed_set {index : ℕ} {call : Call} {prog prog' : Program Ans ρ}
    (current : c.tasks[index]? = some ⟨call, prog⟩) {entry : ℕ × Call}
    (placed : ∃ prog, c.tasks[entry.1]? = some ⟨entry.2, prog⟩) :
    ∃ prog, (c.tasks.set index ⟨call, prog'⟩)[entry.1]? = some ⟨entry.2, prog⟩ := by
  obtain ⟨position, calls⟩ := entry
  obtain ⟨old, found⟩ := placed
  rcases eq_or_ne position index with rfl | ne
  · obtain ⟨rfl, _⟩ := Task.mk.inj (Option.some.inj (found.symm.trans current))
    refine ⟨prog', ?_⟩
    rw [List.getElem?_set_self', current]
    rfl
  · exact ⟨old, (List.getElem?_set_ne ne.symm).trans found⟩

private theorem not_mem_of_length_le (held : sys.Linearized view effective meaning a c order)
    {index : ℕ} (outside : c.tasks.length ≤ index) : index ∉ order.map Prod.fst := by
  intro member
  obtain ⟨entry, inOrder, rfl⟩ := List.mem_map.mp member
  obtain ⟨prog, found⟩ := held.placed entry inOrder
  exact absurd (List.getElem?_eq_some_iff.mp found).1 (Nat.not_lt.mpr outside)

/-- An operation that takes no effect. -/
private theorem Linearized.silent {index : ℕ} {call : Call} {op : Op}
    {next : Ans op → Program Ans ρ} (held : sys.Linearized view effective meaning a c order)
    (current : c.tasks[index]? = some ⟨call, .call op next⟩) (silent : effective op = false) :
    sys.Linearized view effective meaning a
      ⟨sys.perform call op c.world, c.tasks.set index ⟨call, next (sys.answer op c.world)⟩⟩
      order := by
  have step : view (sys.handler op c.world.state).2 = view c.world.state ∧
      sys.Explained view effective meaning a order index
        ⟨call, next (sys.answer op c.world)⟩ := by
    rcases held.explained index _ current with ⟨absent, pending⟩ | ⟨before, isPrefix, _, settled⟩
    · have later := pending c.world.state
      rw [if_neg (by simp [silent])] at later
      exact ⟨later.1, .inl ⟨absent, later.2⟩⟩
    · obtain ⟨same, later⟩ := settled c.world.state
      exact ⟨same, .inr ⟨before, isPrefix, later⟩⟩
  refine ⟨held.nodup, fun entry member => placed_set current (held.placed entry member),
    step.1.trans held.viewed, ?_⟩
  exact explained_set (fun other task found _ => held.explained other task found) step.2

/-- The operation with which a call takes effect. -/
private theorem Linearized.effect {index : ℕ} {call : Call} {op : Op}
    {next : Ans op → Program Ans ρ} (held : sys.Linearized view effective meaning a c order)
    (current : c.tasks[index]? = some ⟨call, .call op next⟩) (effect : effective op = true) :
    sys.Linearized view effective meaning a
      ⟨sys.perform call op c.world, c.tasks.set index ⟨call, next (sys.answer op c.world)⟩⟩
      (order ++ [(index, call)]) := by
  rcases held.explained index _ current with ⟨absent, pending⟩ | ⟨_, _, silent, _⟩
  · have now := pending c.world.state
    rw [if_pos effect, held.viewed] at now
    refine ⟨?_, ?_, ?_, ?_⟩
    · rw [List.map_append, List.nodup_append]
      refine ⟨held.nodup, List.nodup_singleton _, ?_⟩
      rintro other member _ single rfl
      obtain rfl := List.mem_singleton.mp single
      exact absent member
    · intro entry member
      apply placed_set current
      rcases List.mem_append.mp member with old | new
      · exact held.placed entry old
      · obtain rfl := List.mem_singleton.mp new
        exact ⟨_, current⟩
    · rw [List.map_append, List.map_singleton, serial_concat]
      exact now.1
    · refine explained_set (fun other task found ne => ?_) (.inr ⟨order, List.prefix_rfl, now.2⟩)
      exact (held.explained other task found).concat ne
  · rw [effect] at silent
    contradiction

/-- Every event keeps the explanation, with the call that takes effect at the end of the order. -/
theorem Linearized.step (held : sys.Linearized view effective meaning a c order)
    (event : Event Call)
    (start : ∀ call, event = .invoke call →
      sys.Pending view effective (meaning call) (sys.start call))
    (ends : ∀ result, sys.resume result = none) :
    sys.Linearized view effective meaning a (sys.step c event)
      (order ++ (takesEffect effective c event).toList) := by
  cases event with
  | invoke call =>
    simp only [takesEffect, Option.toList_none, List.append_nil]
    refine ⟨held.nodup, fun entry member => ?_, held.viewed, fun index task found => ?_⟩
    · obtain ⟨prog, found⟩ := held.placed entry member
      exact ⟨prog, (List.getElem?_append_left (List.getElem?_eq_some_iff.mp found).1).trans found⟩
    · rcases Nat.lt_or_ge index c.tasks.length with old | new
      · exact held.explained index task ((List.getElem?_append_left old).symm.trans found)
      · simp only [System.step] at found
        rw [List.getElem?_append_right new] at found
        obtain rfl := List.mem_singleton.mp (List.mem_of_getElem? found)
        exact .inl ⟨not_mem_of_length_le held new, start call rfl⟩
  | advance index =>
    cases current : c.tasks[index]? with
    | none => simpa only [System.step, takesEffect, current, Option.toList_none,
        List.append_nil] using held
    | some task =>
      obtain ⟨call, result | ⟨op, next⟩⟩ := task
      · simpa only [System.step, takesEffect, current, ends, Option.toList_none,
          List.append_nil] using held
      · cases effect : effective op with
        | true =>
          simpa only [System.step, takesEffect, current, effect, ↓reduceIte, Option.toList_some]
            using held.effect current effect
        | false =>
          simpa [System.step, takesEffect, current, effect] using held.silent current effect

/-- Every run keeps the explanation, with its calls in the order of their effects. -/
theorem Linearized.run (held : sys.Linearized view effective meaning a c order)
    (events : List (Event Call))
    (start : ∀ call, .invoke call ∈ events →
      sys.Pending view effective (meaning call) (sys.start call))
    (ends : ∀ result, sys.resume result = none) :
    sys.Linearized view effective meaning a (sys.run c events)
      (order ++ sys.effectOrder effective c events) := by
  induction events generalizing c order with
  | nil => rwa [effectOrder, List.append_nil]
  | cons event events ih =>
    have first := held.step event (fun call same => start call (same ▸ List.mem_cons_self)) ends
    have rest := ih first fun call member => start call (List.mem_cons_of_mem _ member)
    rwa [List.append_assoc] at rest

/-- `first` comes before `second` in the order, or `second` does not come at all. -/
def Precedes (order : List (ℕ × Call)) (first second : ℕ) : Prop :=
  ∃ front, front <+: order ∧ first ∈ front.map Prod.fst ∧ second ∉ front.map Prod.fst

/-- A sequential history of calls of the run: served in it, one after the other, they leave the view
as it is and return what they have returned. A call that returns before another one arrives comes
before it in the history. -/
structure Linearization (sys : System Ans Call ρ σ) (view : σ → α) (meaning : Call → α → ρ × α)
    (s : σ) (events : List (Event Call)) (order : List (ℕ × Call)) : Prop where
  nodup : (order.map Prod.fst).Nodup
  calls : ∀ entry ∈ order, ∃ prog,
    (sys.run (initial s) events).tasks[entry.1]? = some ⟨entry.2, prog⟩
  state : view (sys.run (initial s) events).world.state =
    serial meaning (view s) (order.map Prod.snd)
  results : ∀ index call result,
    (sys.run (initial s) events).tasks[index]? = some ⟨call, .ret result⟩ →
      ∃ before, before ++ [(index, call)] <+: order ∧
        result = (meaning call (serial meaning (view s) (before.map Prod.snd))).1
  realTime : ∀ earlier later, events = earlier ++ later → ∀ index call result,
    (sys.run (initial s) earlier).tasks[index]? = some ⟨call, .ret result⟩ →
      ∀ other, (sys.run (initial s) earlier).tasks.length ≤ other → Precedes order index other

/-- A call that has returned is in the order that explains the configuration. -/
theorem Linearized.returned (held : sys.Linearized view effective meaning a c order) {index : ℕ}
    {call : Call} {result : ρ} (returned : c.tasks[index]? = some ⟨call, .ret result⟩) :
    ∃ before, before ++ [(index, call)] <+: order ∧
      result = (meaning call (serial meaning a (before.map Prod.snd))).1 := by
  rcases held.explained index _ returned with ⟨_, pending⟩ | settled
  · exact pending.elim
  · exact settled

/-- The calls of a run are those that have arrived in it. -/
theorem invoke_mem_of_run {s : σ} {events : List (Event Call)} :
    ∀ task ∈ (sys.run (initial s) events).tasks, .invoke task.call ∈ events := by
  induction events using List.reverseRecOn with
  | nil => exact List.forall_mem_nil _
  | append_singleton events event ih =>
    have earlier := fun task member => List.mem_append_left [event] (ih task member)
    rw [System.run, List.foldl_concat]
    change ∀ task ∈ (sys.step (sys.run (initial s) events) event).tasks, _
    have stepped := sys.step_cases (sys.run (initial s) events) event
    generalize sys.step (sys.run (initial s) events) event = c' at stepped ⊢
    cases stepped with
    | stay => exact earlier
    | invoke call =>
      exact forall_mem_concat earlier (List.mem_append_right _ (List.mem_singleton_self _))
    | perform index call op next current =>
      have arrived : Event.invoke call ∈ _ := earlier _ (List.mem_of_getElem? current)
      exact forall_mem_set earlier arrived index
    | resume index call result prog current resumed =>
      have arrived : Event.invoke call ∈ _ := earlier _ (List.mem_of_getElem? current)
      exact forall_mem_set earlier arrived index

/-- Runs of atomic calls have a linearization. -/
theorem linearizable {s : σ} {events : List (Event Call)}
    (start : ∀ call, .invoke call ∈ events →
      sys.Pending view effective (meaning call) (sys.start call))
    (ends : ∀ result, sys.resume result = none) :
    ∃ order, sys.Linearization view meaning s events order := by
  have begins : sys.Linearized view effective meaning (view s) (initial s) [] :=
    ⟨List.nodup_nil, List.forall_mem_nil _, rfl, fun _ _ found => by simp [initial] at found⟩
  have final := begins.run events start ends
  refine ⟨_, final.nodup, final.placed, final.viewed, fun _ _ _ => final.returned, ?_⟩
  rintro earlier later rfl index call result returned other arrives
  have middle := begins.run earlier
    (fun call member => start call (List.mem_append_left _ member)) ends
  obtain ⟨before, isPrefix, _⟩ := middle.returned returned
  refine ⟨_, ?_, ?_, not_mem_of_length_le middle arrives⟩
  · rw [effectOrder_append]
    exact List.prefix_append ..
  · apply (isPrefix.map Prod.fst).subset
    simp

end FuncWarble.Machine.System
