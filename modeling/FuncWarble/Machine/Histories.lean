import Mathlib
import FuncWarble.Machine.Interleaving

/-! # What each task of a run has done

A task forgets the operations that it has performed. Its history lists them, each with the world in
which it was performed, so that what a task does next can be compared with what it saw before. A
condition on an event of a run may therefore speak of the events that came before it.
-/

namespace FuncWarble.Machine

variable {Op : Type} {Ans : Op → Type} {Call ρ σ : Type}

/-- Every event of the run satisfies the condition, given the events before it. -/
def Throughout (cond : List (Event Call) → Event Call → Prop) (events : List (Event Call)) :
    Prop :=
  ∀ before event after, events = before ++ event :: after → cond before event

theorem throughout_concat {cond : List (Event Call) → Event Call → Prop}
    {events : List (Event Call)} {event : Event Call} :
    Throughout cond (events ++ [event]) ↔ Throughout cond events ∧ cond events event := by
  constructor
  · intro held
    refine ⟨fun before other after split => held before other (after ++ [event]) ?_,
      held events event [] rfl⟩
    rw [split, List.append_assoc, List.cons_append]
  · rintro ⟨held, last⟩ before other after split
    rcases List.eq_nil_or_concat after with rfl | ⟨after, final, rfl⟩
    · obtain ⟨rfl, same⟩ := List.append_inj' split rfl
      exact List.singleton_inj.mp same ▸ last
    · rw [List.concat_eq_append, ← List.cons_append, ← List.append_assoc] at split
      exact held before other after (List.append_inj' split rfl).1

/-- What an invariant of the events so far gives for every event that satisfies the condition, it
gives throughout the run. -/
theorem Throughout.of_preserves {inv : List (Event Call) → Prop}
    {cond post : List (Event Call) → Event Call → Prop}
    (each : ∀ before event, cond before event → inv before →
      inv (before ++ [event]) ∧ post before event)
    (start : inv []) {events : List (Event Call)} (held : Throughout cond events) :
    Throughout post events := by
  suffices inv events ∧ Throughout post events from this.2
  induction events using List.reverseRecOn with
  | nil => exact ⟨start, fun before event after split => by simp at split⟩
  | append_singleton events event ih =>
    obtain ⟨earlier, last⟩ := throughout_concat.mp held
    obtain ⟨kept, met⟩ := ih earlier
    obtain ⟨next, now⟩ := each events event last kept
    exact ⟨next, throughout_concat.mpr ⟨met, now⟩⟩

theorem Throughout.imp {cond post : List (Event Call) → Event Call → Prop}
    (weaker : ∀ before event, cond before event → post before event)
    {events : List (Event Call)} (held : Throughout cond events) : Throughout post events :=
  fun before event after split => weaker before event (held before event after split)

namespace System

/-- The operation that the event makes the task perform, with the world that it finds. -/
def performs (c : Config Ans Call ρ σ) (event : Event Call) (index : ℕ) :
    Option (Op × World Op Call σ) :=
  match event with
  | .invoke _ => none
  | .advance moved =>
    if moved = index then
      (c.tasks[moved]?.bind fun task => task.prog.nextOp).map fun op => (op, c.world)
    else none

variable (sys : System Ans Call ρ σ)

/-- The operations that the task performs in a run, oldest first. -/
def history (c : Config Ans Call ρ σ) : List (Event Call) → ℕ → List (Op × World Op Call σ)
  | [], _ => []
  | event :: events, index =>
    (performs c event index).toList ++ history (sys.step c event) events index

theorem history_concat (c : Config Ans Call ρ σ) (events : List (Event Call)) (event : Event Call)
    (index : ℕ) : sys.history c (events ++ [event]) index =
      sys.history c events index ++ (performs (sys.run c events) event index).toList := by
  induction events generalizing c with
  | nil => exact List.append_nil _
  | cons first events ih =>
    rw [List.cons_append, history, ih, history, List.append_assoc]
    rfl

/-- A task that has returned, or that is not there, performs nothing. -/
theorem performs_eq_none {c : Config Ans Call ρ σ} {moved : ℕ}
    (idle : (c.tasks[moved]?.bind fun task => task.prog.nextOp) = none) (index : ℕ) :
    performs c (.advance moved) index = none := by
  rw [performs, idle]
  exact ite_self _

theorem performs_eq_some {c : Config Ans Call ρ σ} {moved : ℕ} {call : Call} {op : Op}
    {next : Ans op → Program Ans ρ} (current : c.tasks[moved]? = some ⟨call, .call op next⟩)
    (index : ℕ) : performs c (.advance moved) index =
      if moved = index then some (op, c.world) else none := by
  rw [performs, current]
  rfl

/-- An event leaves the world as it is, or it performs the next operation of one task. -/
theorem performs_cases (c : Config Ans Call ρ σ) (event : Event Call) :
    ((∀ index, performs c event index = none) ∧ (sys.step c event).world = c.world) ∨
    ∃ index call op next, event = .advance index ∧
      c.tasks[index]? = some ⟨call, .call op next⟩ ∧
      (sys.step c event).world = sys.perform call op c.world ∧
      ∀ other, performs c event other = if index = other then some (op, c.world) else none := by
  cases event with
  | invoke call => exact .inl ⟨fun index => rfl, rfl⟩
  | advance index =>
    rw [step]
    split
    · next missing => exact .inl ⟨performs_eq_none (by rw [missing]; rfl), rfl⟩
    · next call op next current =>
      exact .inr ⟨index, call, op, next, rfl, current, rfl, performs_eq_some current⟩
    · next call result current =>
      refine .inl ⟨performs_eq_none (by rw [current]; rfl), ?_⟩
      split <;> rfl

/-- The task that performs an operation goes on with the answer. -/
theorem tasks_advance {c : Config Ans Call ρ σ} {index : ℕ} {call : Call} {op : Op}
    {next : Ans op → Program Ans ρ} (current : c.tasks[index]? = some ⟨call, .call op next⟩) :
    (sys.step c (.advance index)).tasks[index]? =
      some ⟨call, next (sys.answer op c.world)⟩ := by
  rw [step, current]
  exact List.getElem?_set_self (List.getElem?_eq_some_iff.mp current).1

theorem run_concat (c : Config Ans Call ρ σ) (events : List (Event Call)) (event : Event Call) :
    sys.run c (events ++ [event]) = sys.step (sys.run c events) event := List.foldl_concat ..

/-- The tasks have the shape, each with its own history; a call that has not arrived has done
nothing. -/
def Told (shape : Call → List (Op × World Op Call σ) → Program Ans ρ → Prop)
    (c : Config Ans Call ρ σ) (past : ℕ → List (Op × World Op Call σ)) : Prop :=
  ∀ index, (c.tasks[index]? = none → past index = []) ∧
    ∀ task, c.tasks[index]? = some task → shape task.call (past index) task.prog

variable {sys} {shape : Call → List (Op × World Op Call σ) → Program Ans ρ → Prop}
  {c : Config Ans Call ρ σ} {past : ℕ → List (Op × World Op Call σ)}

theorem Told.set (told : Told shape c past) {index : ℕ} {task task' : Task Ans Call ρ}
    (current : c.tasks[index]? = some task) {w : World Op Call σ}
    {past' : ℕ → List (Op × World Op Call σ)} (moved : shape task'.call (past' index) task'.prog)
    (others : ∀ other, other ≠ index → past' other = past other) :
    Told shape ⟨w, c.tasks.set index task'⟩ past' := by
  intro other
  rcases eq_or_ne index other with rfl | ne
  · simp only [List.getElem?_set_self (List.getElem?_eq_some_iff.mp current).1]
    refine ⟨fun missing => by simp at missing, fun found same => ?_⟩
    obtain rfl := Option.some.inj same
    exact moved
  · rw [List.getElem?_set_ne ne, others other ne.symm]
    exact told other

theorem Told.step (start : ∀ call, shape call [] (sys.start call))
    (answered : ∀ call past op next w, shape call past (.call op next) →
      shape call (past ++ [(op, w)]) (next (sys.answer op w)))
    (resumed : ∀ call past result prog, shape call past (.ret result) →
      sys.resume result = some prog → shape call past prog)
    (told : Told shape c past) (event : Event Call) : Told shape (sys.step c event) fun index =>
      past index ++ (performs c event index).toList := by
  have idle (event : Event Call) (none : ∀ index, performs c event index = none) :
      (fun index => past index ++ (performs c event index).toList) = past :=
    funext fun index => by rw [none, Option.toList_none, List.append_nil]
  cases event with
  | invoke call =>
    rw [idle _ fun index => rfl]
    intro index
    rcases lt_trichotomy index c.tasks.length with old | rfl | new
    · rw [System.step, List.getElem?_append_left old]
      exact told index
    · rw [System.step, List.getElem?_concat_length]
      refine ⟨fun missing => by simp at missing, fun task same => ?_⟩
      obtain rfl := Option.some.inj same
      rw [(told c.tasks.length).1 (List.getElem?_eq_none le_rfl)]
      exact start call
    · rw [System.step, List.getElem?_eq_none (by simpa using new)]
      exact ⟨fun _ => (told index).1 (List.getElem?_eq_none new.le), fun _ same => by simp at same⟩
  | advance moved =>
    rw [System.step]
    split
    · next missing =>
      rw [idle _ (performs_eq_none (by rw [missing]; rfl))]
      exact told
    · next call op next current =>
      refine told.set current ?_ fun other ne => ?_
      · rw [performs_eq_some current, if_pos rfl]
        exact answered call _ op next c.world ((told moved).2 _ current)
      · rw [performs_eq_some current, if_neg ne.symm, Option.toList_none, List.append_nil]
    · next call result current =>
      rw [idle _ (performs_eq_none (by rw [current]; rfl))]
      split
      · exact told
      · next prog again =>
        exact told.set current (resumed call _ result prog ((told moved).2 _ current) again)
          fun _ _ => rfl

/-- A relation of calls, histories and programs that every start and every step respects holds of
all tasks of every run. -/
theorem shape_run (start : ∀ call, shape call [] (sys.start call))
    (answered : ∀ call past op next w, shape call past (.call op next) →
      shape call (past ++ [(op, w)]) (next (sys.answer op w)))
    (resumed : ∀ call past result prog, shape call past (.ret result) →
      sys.resume result = some prog → shape call past prog)
    (s : σ) (events : List (Event Call)) {index : ℕ} {task : Task Ans Call ρ}
    (found : (sys.run (initial s) events).tasks[index]? = some task) :
    shape task.call (sys.history (initial s) events index) task.prog := by
  suffices Told shape (sys.run (initial s) events) (sys.history (initial s) events) from
    (this index).2 task found
  clear found
  induction events using List.reverseRecOn with
  | nil => exact fun index => ⟨fun _ => rfl, fun task found => by simp [run, initial] at found⟩
  | append_singleton events event ih =>
    rw [run_concat, funext (history_concat sys (initial s) events event)]
    exact ih.step start answered resumed event

end System

end FuncWarble.Machine
