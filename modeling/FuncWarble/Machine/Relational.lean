import Mathlib
import FuncWarble.Machine.Interleaving

/-! # Operations as relations

An operation that may not return, or that the environment may answer in several ways, is a relation
between its answer and the states before and after it. A program runs alone, or as one of many
sessions that perform their operations in any order on one shared state. The history of a run keeps
every operation with what its session had done before.
-/

namespace FuncWarble.Machine

variable {Op : Type} {Ans : Op → Type} {Call ρ σ : Type}

/-- How an operation may be answered, and what it may do to the state. -/
abbrev Effect {Op : Type} (Ans : Op → Type) (σ : Type) := (op : Op) → σ → Ans op → σ → Prop

/-- The program, running alone, ends with a result and a state. -/
def Program.Executes (effect : Effect Ans σ) : Program Ans ρ → σ → ρ → σ → Prop
  | ret value, s, result, s' => value = result ∧ s = s'
  | call op next, s, result, s' =>
    ∃ answer middle, effect op s answer middle ∧ (next answer).Executes effect middle result s'

/-- An operation that was answered. -/
structure Answered (Ans : Op → Type) where
  op : Op
  answer : Ans op

/-- A call that is being served: what it has performed, oldest first, and what is left of it. -/
structure Session (Ans : Op → Type) (Call ρ : Type) where
  call : Call
  performed : List (Answered Ans)
  prog : Program Ans ρ

/-- One operation of a session, with the shared state around it and what the session had performed
before. -/
structure Transition (Ans : Op → Type) (Call ρ σ : Type) where
  call : Call
  performed : List (Answered Ans)
  answered : Answered Ans
  before : σ
  after : σ
  rest : Program Ans ρ

/-- Sessions start at any time, and perform their operations one at a time, in any order. -/
inductive Sessions (start : Call → Program Ans ρ) (effect : Effect Ans σ) (initial : σ) :
    List (Transition Ans Call ρ σ) → σ → List (Session Ans Call ρ) → Prop
  | initial : Sessions start effect initial [] initial []
  | join (call : Call) {past : List (Transition Ans Call ρ σ)} {s : σ}
    {sessions : List (Session Ans Call ρ)} (run : Sessions start effect initial past s sessions) :
    Sessions start effect initial past s (sessions ++ [⟨call, [], start call⟩])
  | perform {past : List (Transition Ans Call ρ σ)} {s s' : σ}
    {sessions : List (Session Ans Call ρ)} {index : ℕ} {call : Call}
    {performed : List (Answered Ans)} {op : Op} {next : Ans op → Program Ans ρ} {answer : Ans op}
    (run : Sessions start effect initial past s sessions)
    (current : sessions[index]? = some ⟨call, performed, .call op next⟩)
    (answered : effect op s answer s') :
    Sessions start effect initial
      (past ++ [⟨call, performed, ⟨op, answer⟩, s, s', next answer⟩]) s'
      (sessions.set index ⟨call, performed ++ [⟨op, answer⟩], next answer⟩)

/-- A sequence of two programs ends as the second one does after the first. -/
theorem Program.executes_bind {ρ' : Type} {effect : Effect Ans σ} {p : Program Ans ρ}
    {f : ρ → Program Ans ρ'} {s s' : σ} {result : ρ'} :
    (p >>= f).Executes effect s result s' ↔
      ∃ value middle, p.Executes effect s value middle ∧
        (f value).Executes effect middle result s' := by
  induction p generalizing s with
  | ret value =>
    constructor
    · exact fun ended => ⟨value, s, ⟨rfl, rfl⟩, ended⟩
    · rintro ⟨_, _, ⟨rfl, rfl⟩, ended⟩
      exact ended
  | call op next ih =>
    simp only [call_bind, Executes, ih]
    constructor
    · rintro ⟨answer, reached, answered, value, middle, first, second⟩
      exact ⟨value, middle, ⟨answer, reached, answered, first⟩, second⟩
    · rintro ⟨value, middle, ⟨answer, reached, answered, first⟩, second⟩
      exact ⟨answer, reached, answered, value, middle, first, second⟩

/-- What is left of a program after the operations that it has performed. -/
inductive Program.Leaves : Program Ans ρ → List (Answered Ans) → Program Ans ρ → Prop
  | nothing (p : Program Ans ρ) : p.Leaves [] p
  | call {op : Op} {next : Ans op → Program Ans ρ} {answer : Ans op}
    {performed : List (Answered Ans)} {rest : Program Ans ρ}
    (left : (next answer).Leaves performed rest) :
    (Program.call op next).Leaves (⟨op, answer⟩ :: performed) rest

theorem Program.leaves_nil {p rest : Program Ans ρ} : p.Leaves [] rest ↔ p = rest := by
  constructor
  · rintro ⟨⟩
    rfl
  · rintro rfl
    exact .nothing p

theorem Program.leaves_call {op : Op} {next : Ans op → Program Ans ρ} {answer : Ans op}
    {performed : List (Answered Ans)} {rest : Program Ans ρ} :
    (Program.call op next).Leaves (⟨op, answer⟩ :: performed) rest ↔
      (next answer).Leaves performed rest := by
  constructor
  · rintro ⟨⟩
    assumption
  · exact .call

theorem Program.Leaves.concat {p : Program Ans ρ} {performed : List (Answered Ans)} {op : Op}
    {next : Ans op → Program Ans ρ} (left : p.Leaves performed (.call op next))
    (answer : Ans op) : p.Leaves (performed ++ [⟨op, answer⟩]) (next answer) := by
  generalize same : Program.call op next = rest at left
  induction left with
  | nothing p =>
    subst same
    exact .call (.nothing _)
  | call _ ih => exact .call (ih same)

variable {start : Call → Program Ans ρ} {effect : Effect Ans σ} {initial s : σ}
  {past : List (Transition Ans Call ρ σ)} {sessions : List (Session Ans Call ρ)}

/-- Every session is its own program, after what it has performed. -/
theorem Sessions.leaves (run : Sessions start effect initial past s sessions) :
    ∀ session ∈ sessions, (start session.call).Leaves session.performed session.prog := by
  induction run with
  | initial => exact fun _ member => nomatch member
  | join call _ ih => exact System.forall_mem_concat ih (.nothing (start call))
  | perform run current answered ih =>
    have old := ih _ (List.mem_of_getElem? current)
    exact System.forall_mem_set ih (old.concat _) _

/-- Every transition is an operation of what its call had left to do. -/
theorem Sessions.transition (run : Sessions start effect initial past s sessions) :
    ∀ step ∈ past, effect step.answered.op step.before step.answered.answer step.after ∧
      ∃ next, next step.answered.answer = step.rest ∧
        (start step.call).Leaves step.performed (.call step.answered.op next) := by
  induction run with
  | initial => exact fun _ member => nomatch member
  | join _ _ ih => exact ih
  | perform run current answered ih =>
    have left := run.leaves _ (List.mem_of_getElem? current)
    exact System.forall_mem_concat ih ⟨answered, _, rfl, left⟩

/-- What every operation preserves holds at the end of a run and before each of its operations. -/
theorem Sessions.invariant {inv : σ → Prop}
    (each : ∀ op s answer s', effect op s answer s' → inv s → inv s') (begins : inv initial)
    (run : Sessions start effect initial past s sessions) :
    inv s ∧ ∀ step ∈ past, inv step.before := by
  induction run with
  | initial => exact ⟨begins, fun _ member => nomatch member⟩
  | join _ _ ih => exact ih
  | perform _ _ answered ih =>
    exact ⟨each _ _ _ _ answered ih.1, System.forall_mem_concat ih.2 ih.1⟩

/-- Let the sessions take steps in this order, each operation answered as `respond` computes. -/
def Session.schedule (respond : (op : Op) → σ → Option (Ans op × σ)) :
    List ℕ → List (Transition Ans Call ρ σ) × σ × List (Session Ans Call ρ) →
      Option (List (Transition Ans Call ρ σ) × σ × List (Session Ans Call ρ))
  | [], reached => some reached
  | index :: order, (past, s, sessions) =>
    match sessions[index]? with
    | some ⟨call, performed, .call op next⟩ =>
      (respond op s).bind fun (answer, s') => Session.schedule respond order
        (past ++ [⟨call, performed, ⟨op, answer⟩, s, s', next answer⟩], s',
          sessions.set index ⟨call, performed ++ [⟨op, answer⟩], next answer⟩)
    | _ => none

/-- A schedule of steps that are computed is a run. -/
theorem Sessions.of_schedule {respond : (op : Op) → σ → Option (Ans op × σ)}
    (computed : ∀ op s answer s', respond op s = some (answer, s') → effect op s answer s')
    {order : List ℕ} {past' : List (Transition Ans Call ρ σ)} {s' : σ}
    {sessions' : List (Session Ans Call ρ)} (run : Sessions start effect initial past s sessions)
    (ran : Session.schedule respond order (past, s, sessions) = some (past', s', sessions')) :
    Sessions start effect initial past' s' sessions' := by
  induction order generalizing past s sessions with
  | nil =>
    obtain ⟨rfl, rfl, rfl⟩ := by simpa [Session.schedule] using ran
    exact run
  | cons index order ih =>
    rw [Session.schedule] at ran
    split at ran
    · next call performed op next current =>
      obtain ⟨⟨answer, middle⟩, responded, rest⟩ := Option.bind_eq_some_iff.mp ran
      exact ih (run.perform current (computed _ _ _ _ responded)) rest
    · contradiction

end FuncWarble.Machine
