import Mathlib
import FuncWarble.Machine.Program

/-! # Calls that run side by side

A `System` starts a program for every call and performs the programs' operations one at a time,
in any order, on one shared state. A run is a list of scheduling events; an event that cannot
happen changes nothing, so every list is a run. The world keeps, beside the state, the trace of
the operations performed so far and of the calls that performed them: what the state forgets can
still be said of the trace.
-/

namespace FuncWarble.Machine

variable {Op : Type} {Ans : Op → Type} {Call ρ σ : Type}

/-- How calls are served. A program that has returned may go on, as at the head of a loop. -/
structure System (Ans : Op → Type) (Call ρ σ : Type) where
  handler : Handler Ans σ
  start : Call → Program Ans ρ
  resume : ρ → Option (Program Ans ρ)

/-- The shared state, with the operations that led to it. -/
structure World (Op Call σ : Type) where
  state : σ
  trace : List (Call × Op)

/-- A call with what is left of its program. -/
structure Task (Ans : Op → Type) (Call ρ : Type) where
  call : Call
  prog : Program Ans ρ

structure Config (Ans : Op → Type) (Call ρ σ : Type) where
  world : World Op Call σ
  tasks : List (Task Ans Call ρ)

/-- The next thing to happen: a call arrives, or a task takes one step. -/
inductive Event (Call : Type) where
  | invoke (call : Call)
  | advance (index : ℕ)
deriving DecidableEq

/-- The operation that a program performs next. -/
def Program.nextOp : Program Ans ρ → Option Op
  | .ret _ => none
  | .call op _ => some op

namespace System

variable (sys : System Ans Call ρ σ)

/-- What an operation does to the world. -/
def perform (call : Call) (op : Op) (w : World Op Call σ) : World Op Call σ :=
  ⟨(sys.handler op w.state).2, w.trace ++ [(call, op)]⟩

/-- The answer that an operation gets. -/
def answer (op : Op) (w : World Op Call σ) : Ans op := (sys.handler op w.state).1

def step (c : Config Ans Call ρ σ) : Event Call → Config Ans Call ρ σ
  | .invoke call => { c with tasks := c.tasks ++ [⟨call, sys.start call⟩] }
  | .advance index =>
    match c.tasks[index]? with
    | none => c
    | some ⟨call, .call op next⟩ =>
      ⟨sys.perform call op c.world, c.tasks.set index ⟨call, next (sys.answer op c.world)⟩⟩
    | some ⟨call, .ret result⟩ =>
      match sys.resume result with
      | none => c
      | some prog => { c with tasks := c.tasks.set index ⟨call, prog⟩ }

def run (c : Config Ans Call ρ σ) (events : List (Event Call)) : Config Ans Call ρ σ :=
  events.foldl sys.step c

/-- The configuration in which no call has arrived yet. -/
def initial (s : σ) : Config Ans Call ρ σ := ⟨⟨s, []⟩, []⟩

/-- Everything that one event can do. -/
inductive Stepped (c : Config Ans Call ρ σ) : Event Call → Config Ans Call ρ σ → Prop
  | stay (event : Event Call) : Stepped c event c
  | invoke (call : Call) :
    Stepped c (.invoke call) { c with tasks := c.tasks ++ [⟨call, sys.start call⟩] }
  | perform (index : ℕ) (call : Call) (op : Op) (next : Ans op → Program Ans ρ)
    (current : c.tasks[index]? = some ⟨call, .call op next⟩) :
    Stepped c (.advance index)
      ⟨sys.perform call op c.world, c.tasks.set index ⟨call, next (sys.answer op c.world)⟩⟩
  | resume (index : ℕ) (call : Call) (result : ρ) (prog : Program Ans ρ)
    (current : c.tasks[index]? = some ⟨call, .ret result⟩)
    (resumed : sys.resume result = some prog) :
    Stepped c (.advance index) { c with tasks := c.tasks.set index ⟨call, prog⟩ }

theorem step_cases (c : Config Ans Call ρ σ) (event : Event Call) :
    sys.Stepped c event (sys.step c event) := by
  cases event with
  | invoke call => exact .invoke call
  | advance index =>
    rw [step]
    split
    · exact .stay _
    · next call op next current => exact .perform index call op next current
    · next call result current =>
      split
      · exact .stay _
      · next prog resumed => exact .resume index call result prog current resumed

/-- Every event of the run happens in a configuration that satisfies the condition. -/
def Along (cond : Config Ans Call ρ σ → Event Call → Prop) :
    Config Ans Call ρ σ → List (Event Call) → Prop
  | _, [] => True
  | c, event :: events => cond c event ∧ Along cond (sys.step c event) events

instance (cond : Config Ans Call ρ σ → Event Call → Prop) [∀ c event, Decidable (cond c event)]
    (c : Config Ans Call ρ σ) (events : List (Event Call)) : Decidable (sys.Along cond c events) :=
  match events with
  | [] => inferInstanceAs (Decidable True)
  | event :: events =>
    have := instDecidableAlong cond (sys.step c event) events
    inferInstanceAs (Decidable (_ ∧ _))

variable {sys}

/-- What the events of a run preserve while their condition holds, the run preserves. -/
theorem run_preserves {inv : Config Ans Call ρ σ → Prop}
    {cond : Config Ans Call ρ σ → Event Call → Prop}
    (each : ∀ c event, cond c event → inv c → inv (sys.step c event))
    {c : Config Ans Call ρ σ} {events : List (Event Call)} (along : sys.Along cond c events)
    (start : inv c) : inv (sys.run c events) := by
  induction events generalizing c with
  | nil => exact start
  | cons event events ih => exact ih along.2 (each c event along.1 start)

/-- An invariant of all events holds at the end of every run. -/
theorem run_invariant {inv : Config Ans Call ρ σ → Prop}
    (each : ∀ c event, inv c → inv (sys.step c event)) {c : Config Ans Call ρ σ} (start : inv c)
    (events : List (Event Call)) : inv (sys.run c events) := by
  induction events generalizing c with
  | nil => exact start
  | cons event events ih => exact ih (each c event start)

theorem forall_mem_set {α : Type} {P : α → Prop} {xs : List α} (all : ∀ x ∈ xs, P x) {y : α}
    (new : P y) (index : ℕ) : ∀ x ∈ xs.set index y, P x := by
  intro x member
  rcases List.mem_or_eq_of_mem_set member with old | rfl
  · exact all x old
  · exact new

theorem forall_mem_concat {α : Type} {P : α → Prop} {xs : List α} (all : ∀ x ∈ xs, P x) {y : α}
    (new : P y) : ∀ x ∈ xs ++ [y], P x := by
  intro x member
  rcases List.mem_append.mp member with old | same
  · exact all x old
  · exact List.mem_singleton.mp same ▸ new

/-- Exchanging one element moves a count by what the two elements count for. -/
theorem countP_set_add {α : Type} (p : α → Bool) {xs : List α} {index : ℕ} {x : α}
    (current : xs[index]? = some x) (y : α) :
    (xs.set index y).countP p + (if p x then 1 else 0) =
      xs.countP p + (if p y then 1 else 0) := by
  obtain ⟨inside, rfl⟩ := List.getElem?_eq_some_iff.mp current
  have counted : p xs[index] = true → 0 < xs.countP p := fun held =>
    List.countP_pos_iff.mpr ⟨_, List.getElem_mem inside, held⟩
  rw [List.countP_set inside]
  split_ifs with held
  · have := counted held
    omega
  · have := counted held
    omega
  · omega
  · omega

/-- A set of programs that contains every started one, and what is left of each of its programs
after any answer, goes on to contain the programs of all tasks. -/
theorem step_shape {shape : Call → Program Ans ρ → Prop}
    (start : ∀ call, shape call (sys.start call))
    (answered : ∀ call op next answer, shape call (.call op next) → shape call (next answer))
    (resumed : ∀ call result prog, shape call (.ret result) → sys.resume result = some prog →
      shape call prog)
    {c : Config Ans Call ρ σ} (all : ∀ task ∈ c.tasks, shape task.call task.prog)
    (event : Event Call) : ∀ task ∈ (sys.step c event).tasks, shape task.call task.prog := by
  have stepped := sys.step_cases c event
  generalize sys.step c event = c' at stepped ⊢
  cases stepped with
  | stay => exact all
  | invoke call => exact forall_mem_concat all (start call)
  | perform index call op next current =>
    have old := all _ (List.mem_of_getElem? current)
    exact forall_mem_set all (answered call op next _ old) index
  | resume index call result prog current resumed' =>
    have old := all _ (List.mem_of_getElem? current)
    exact forall_mem_set all (resumed call result prog old resumed') index

end System

end FuncWarble.Machine
