import Mathlib
import FuncWarble.Machine.Program

/-! # Programs inside a larger machine

A program can be run by a machine with more operations and more state. When the larger machine
answers the program's operations as the smaller one does, and on its own part of the state, the
program ends there as it ends alone, and the rest of the state is as it was.
-/

namespace FuncWarble.Machine

/-- A part of a state that can be read and replaced. -/
structure Part (σ τ : Type) where
  get : σ → τ
  set : σ → τ → σ
  get_set : ∀ s t, get (set s t) = t
  set_get : ∀ s, set s (get s) = s
  set_set : ∀ s t t', set (set s t) t' = set s t'

namespace Program

variable {Op Op' : Type} {Ans : Op → Type} {Ans' : Op' → Type} {σ τ ρ ρ' L : Type}

section Embed

variable (inject : Op → Op') (back : ∀ op, Ans' (inject op) → Ans op)

/-- The program with the larger machine's operations in place of its own. -/
def embed : Program Ans ρ → Program Ans' ρ
  | ret result => ret result
  | call op next => call (inject op) fun answer => (next (back op answer)).embed

/-- The larger machine performs the program's operations on its part of the state. -/
def Extends (handler : Handler Ans τ) (handler' : Handler Ans' σ) (part : Part σ τ) : Prop :=
  ∀ op s, back op (handler' (inject op) s).1 = (handler op (part.get s)).1 ∧
    (handler' (inject op) s).2 = part.set s (handler op (part.get s)).2

variable {inject back} {handler : Handler Ans τ} {handler' : Handler Ans' σ} {part : Part σ τ}

theorem run_embed (extended : Extends inject back handler handler' part) (p : Program Ans ρ)
    (s : σ) : (p.embed inject back).run handler' s =
      ((p.run handler (part.get s)).1, part.set s (p.run handler (part.get s)).2) := by
  induction p generalizing s with
  | ret result => rw [embed, run_ret, run_ret, part.set_get]
  | call op next ih =>
    obtain ⟨answered, changed⟩ := extended op s
    rw [embed, run_call, run_call, ih, answered, changed, part.get_set, part.set_set]

/-- The embedded program, at the head of its loop or with its result changed by `f`. -/
def embedWith (inject : Op → Op') (back : ∀ op, Ans' (inject op) → Ans op) (f : ρ → ρ')
    (p : Program Ans (L ⊕ ρ)) : Program Ans' (L ⊕ ρ') :=
  p.embed inject back >>= fun result => ret (result.map id f)

theorem embedWith_map {υ : Type} (f : ρ → ρ') (g : ρ' → υ) (p : Program Ans (L ⊕ ρ)) :
    (embedWith inject back f p >>= fun result => ret (result.map id g)) =
      embedWith inject back (fun result => g (f result)) p := by
  rw [embedWith, bind_assoc]
  refine congrArg _ (funext fun result => ?_)
  cases result <;> rfl

theorem run_embedWith (extended : Extends inject back handler handler' part) (f : ρ → ρ')
    (p : Program Ans (L ⊕ ρ)) (s : σ) : (embedWith inject back f p).run handler' s =
      ((p.run handler (part.get s)).1.map id f,
        part.set s (p.run handler (part.get s)).2) := by
  rw [embedWith, run_bind, run_embed extended, run_ret]

/-- An embedded program ends as it ends alone, its loop included. -/
theorem outcome_embedWith (extended : Extends inject back handler handler' part) {f : ρ → ρ'}
    {body : L → Program Ans (L ⊕ ρ)} {p : Program Ans (L ⊕ ρ)} {s s' : σ} {result : ρ'} :
    Outcome handler' (fun head => embedWith inject back f (body head)) (embedWith inject back f p)
        s result s' ↔
      ∃ value t, Outcome handler body p (part.get s) value t ∧ f value = result ∧
        part.set s t = s' := by
  have ran := run_embedWith extended f p s
  cases alone : p.run handler (part.get s) with
  | mk leaf t₁ =>
    rw [alone] at ran
    cases leaf with
    | inl head =>
      have lockstep : ∀ at' : L × τ,
          turn handler' (fun head => embedWith inject back f (body head))
              (at'.1, part.set s at'.2) =
            (turn handler body at').map (fun at' => (at'.1, part.set s at'.2))
              fun ended => (f ended.1, part.set s ended.2) := by
        rintro ⟨head, t⟩
        have turned := run_embedWith extended f (body head) (part.set s t)
        rw [part.get_set, part.set_set] at turned
        simp only [turn, turned]
        cases (body head).run handler t with
        | mk leaf t' => cases leaf <;> rfl
      rw [outcome_of_inl ran]
      have yields := @Loop.yields_map _ _ (turn handler body) _ _ _ _ _ lockstep (head, t₁)
        (result, s')
      rw [id, yields]
      constructor
      · rintro ⟨⟨value, t⟩, yielded, same⟩
        obtain ⟨rfl, rfl⟩ := Prod.mk.inj same
        exact ⟨value, t, (outcome_of_inl alone).mpr yielded, rfl, rfl⟩
      · rintro ⟨value, t, ended, rfl, rfl⟩
        exact ⟨(value, t), (outcome_of_inl alone).mp ended, rfl⟩
    | inr value =>
      rw [outcome_of_inr ran]
      simp only [outcome_of_inr alone]
      constructor
      · rintro ⟨rfl, rfl⟩
        exact ⟨value, t₁, ⟨rfl, rfl⟩, rfl, rfl⟩
      · rintro ⟨_, _, ⟨rfl, rfl⟩, rfl, rfl⟩
        exact ⟨rfl, rfl⟩

end Embed

end Program

end FuncWarble.Machine
