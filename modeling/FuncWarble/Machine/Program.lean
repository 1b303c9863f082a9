import Mathlib
import FuncWarble.Machine.Loop

/-! # Programs over atomic operations

A `Program` performs operations one at a time and continues with each answer. The same program
runs alone against a handler (`run`), or is advanced one operation at a time by a scheduler. A
program that returns `inl` is at the head of a loop whose body is again a program; `Outcome` is
the result of running such a program alone, loop included.
-/

namespace FuncWarble.Machine

/-- A program that asks for operations `op`, each answered in `Ans op`. -/
inductive Program {Op : Type} (Ans : Op → Type) (ρ : Type) : Type where
  | ret (result : ρ)
  | call (op : Op) (next : Ans op → Program Ans ρ)

/-- How one operation is answered and what it does to the state. -/
abbrev Handler {Op : Type} (Ans : Op → Type) (σ : Type) := (op : Op) → σ → Ans op × σ

namespace Program

variable {Op : Type} {Ans : Op → Type} {σ ρ τ L : Type}

def bind : Program Ans ρ → (ρ → Program Ans τ) → Program Ans τ
  | ret result, f => f result
  | call op next, f => call op fun answer => (next answer).bind f

instance : Monad (Program Ans) where
  pure := ret
  bind := bind

/-- Perform a single operation. -/
def perform (op : Op) : Program Ans (Ans op) := call op ret

@[simp] theorem pure_eq (result : ρ) : (pure result : Program Ans ρ) = ret result := rfl

@[simp] theorem perform_bind (op : Op) (f : Ans op → Program Ans ρ) :
    (perform op >>= f) = call op f := rfl

@[simp] theorem call_bind (op : Op) (next : Ans op → Program Ans ρ) (f : ρ → Program Ans τ) :
    (call op next >>= f) = call op fun answer => next answer >>= f := rfl

/-- Run a program alone: no other operation comes between its own. -/
def run (handler : Handler Ans σ) : Program Ans ρ → σ → ρ × σ
  | ret result, s => (result, s)
  | call op next, s => (next (handler op s).1).run handler (handler op s).2

@[simp] theorem run_ret (handler : Handler Ans σ) (result : ρ) (s : σ) :
    (ret result : Program Ans ρ).run handler s = (result, s) := rfl

@[simp] theorem run_call (handler : Handler Ans σ) (op : Op) (next : Ans op → Program Ans ρ)
    (s : σ) :
    (call op next).run handler s = (next (handler op s).1).run handler (handler op s).2 := rfl

theorem run_bind (handler : Handler Ans σ) (p : Program Ans ρ) (f : ρ → Program Ans τ) (s : σ) :
    (p >>= f).run handler s = (f (p.run handler s).1).run handler (p.run handler s).2 := by
  induction p generalizing s with
  | ret result => rfl
  | call op next ih => exact ih _ _

theorem bind_assoc {υ : Type} (p : Program Ans ρ) (f : ρ → Program Ans τ)
    (g : τ → Program Ans υ) : p >>= f >>= g = p >>= fun result => f result >>= g := by
  induction p with
  | ret result => rfl
  | call op next ih => exact congrArg (call op) (funext fun answer => ih answer)

/-- Every operation the program may still ask for, under any answers, is allowed. -/
def Uses (allowed : Op → Prop) : Program Ans ρ → Prop
  | ret _ => True
  | call op next => allowed op ∧ ∀ answer, (next answer).Uses allowed

theorem Uses.bind {allowed : Op → Prop} {p : Program Ans ρ} {f : ρ → Program Ans τ}
    (first : p.Uses allowed) (rest : ∀ result, (f result).Uses allowed) :
    (p >>= f).Uses allowed := by
  induction p with
  | ret result => exact rest result
  | call op next ih => exact ⟨first.1, fun answer => ih answer (first.2 answer)⟩

theorem Uses.mono {allowed more : Op → Prop} {p : Program Ans ρ} (uses : p.Uses allowed)
    (weaker : ∀ op, allowed op → more op) : p.Uses more := by
  induction p with
  | ret result => trivial
  | call op next ih => exact ⟨weaker op uses.1, fun answer => ih answer (uses.2 answer)⟩

/-- One turn of the loop: run the body from its head. -/
def turn (handler : Handler Ans σ) (body : L → Program Ans (L ⊕ ρ)) :
    L × σ → (L × σ) ⊕ (ρ × σ)
  | (head, s) =>
    match (body head).run handler s with
    | (.inl next, s') => .inl (next, s')
    | (.inr result, s') => .inr (result, s')

/-- The program alone, with its loop, ends in `result` and the state `s'`. -/
def Outcome (handler : Handler Ans σ) (body : L → Program Ans (L ⊕ ρ))
    (p : Program Ans (L ⊕ ρ)) (s : σ) (result : ρ) (s' : σ) : Prop :=
  match p.run handler s with
  | (.inl head, s₁) => Loop.Yields (turn handler body) (head, s₁) (result, s')
  | (.inr value, s₁) => value = result ∧ s₁ = s'

variable {handler : Handler Ans σ} {body : L → Program Ans (L ⊕ ρ)}
  {p : Program Ans (L ⊕ ρ)} {s s' s₁ : σ} {result : ρ}

theorem outcome_of_inl {head : L} (ran : p.run handler s = (.inl head, s₁)) :
    Outcome handler body p s result s' ↔
      Loop.Yields (turn handler body) (head, s₁) (result, s') := by
  simp only [Outcome, ran]

theorem outcome_of_inr {value : ρ} (ran : p.run handler s = (.inr value, s₁)) :
    Outcome handler body p s result s' ↔ value = result ∧ s₁ = s' := by
  simp only [Outcome, ran]

/-- A program ends as it ends after its first operation. -/
theorem outcome_call {op : Op} {next : Ans op → Program Ans (L ⊕ ρ)} :
    Outcome handler body (call op next) s result s' ↔
      Outcome handler body (next (handler op s).1) (handler op s).2 result s' := Iff.rfl

/-- A program that never enters its loop ends as its run ends. -/
theorem outcome_bind_inr {q : Program Ans τ} {f : τ → ρ} :
    Outcome handler body (q >>= fun value => ret (.inr (f value))) s result s' ↔
      f (q.run handler s).1 = result ∧ (q.run handler s).2 = s' :=
  outcome_of_inr (run_bind handler q _ s)

/-- The program alone, with at most `fuel` turns of its loop. -/
def execute (handler : Handler Ans σ) (body : L → Program Ans (L ⊕ ρ)) (fuel : ℕ)
    (p : Program Ans (L ⊕ ρ)) (s : σ) : Option (ρ × σ) :=
  match p.run handler s with
  | (.inl head, s₁) => Loop.run (turn handler body) fuel (head, s₁)
  | (.inr value, s₁) => some (value, s₁)

theorem outcome_of_execute {fuel : ℕ} (ran : execute handler body fuel p s = some (result, s')) :
    Outcome handler body p s result s' := by
  rw [execute] at ran
  split at ran
  · next ended => exact (outcome_of_inl ended).mpr ⟨fuel, ran⟩
  · next ended => exact (outcome_of_inr ended).mpr (Prod.mk.inj (Option.some.inj ran))

/-- Running alone is deterministic, the loop included. -/
theorem Outcome.unique {other : ρ} {t' : σ} (left : Outcome handler body p s result s')
    (right : Outcome handler body p s other t') : result = other ∧ s' = t' := by
  cases ran : p.run handler s with
  | mk leaf s₁ =>
    cases leaf with
    | inl head =>
      rw [outcome_of_inl ran] at left right
      exact Prod.mk.inj (left.unique right)
    | inr value =>
      rw [outcome_of_inr ran] at left right
      exact ⟨left.1.symm.trans right.1, left.2.symm.trans right.2⟩

end Program

end FuncWarble.Machine
