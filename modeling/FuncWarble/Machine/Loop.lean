import Mathlib

/-! # Loops that run until a step leaves them

`step` sends a loop state either to the next state or to the value the loop leaves with. A run
is cut by fuel, but only the fuel-free notions matter: `Yields` is independent of the amount of
fuel, what holds at every loop head is an invariant of the run, and a decreasing variant makes the
loop a total function.
-/

namespace FuncWarble.Machine.Loop

variable {σ ρ : Type*}

/-- At most `fuel` steps; `none` means that the loop is still running. -/
def run (step : σ → σ ⊕ ρ) : ℕ → σ → Option ρ
  | 0, _ => none
  | fuel + 1, s =>
    match step s with
    | .inl next => run step fuel next
    | .inr result => some result

/-- The loop leaves with `result`, whatever the amount of fuel that shows it. -/
def Yields (step : σ → σ ⊕ ρ) (s : σ) (result : ρ) : Prop :=
  ∃ fuel, run step fuel s = some result

def Terminates (step : σ → σ ⊕ ρ) (s : σ) : Prop := ∃ result, Yields step s result

variable {step : σ → σ ⊕ ρ}

theorem run_more {fuel : ℕ} {s : σ} {result : ρ} (left : run step fuel s = some result)
    (extra : ℕ) : run step (fuel + extra) s = some result := by
  induction fuel generalizing s with
  | zero => simp [run] at left
  | succ fuel ih =>
    rw [Nat.add_right_comm]
    simp only [run] at left ⊢
    cases stepped : step s with
    | inl next =>
      rw [stepped] at left
      exact ih left
    | inr value =>
      rw [stepped] at left
      exact left

/-- Two runs of one loop cannot leave with different values. -/
theorem Yields.unique {s : σ} {first second : ρ} (left : Yields step s first)
    (right : Yields step s second) : first = second := by
  obtain ⟨m, left⟩ := left
  obtain ⟨n, right⟩ := right
  have both := run_more left n
  rw [Nat.add_comm, run_more right m] at both
  exact (Option.some.inj both).symm

theorem yields_of_inr {s : σ} {result : ρ} (stepped : step s = .inr result) :
    Yields step s result := ⟨1, by simp only [run, stepped]⟩

/-- One step forward does not change what the loop leaves with. -/
theorem yields_of_inl {s next : σ} {result : ρ} (stepped : step s = .inl next) :
    Yields step s result ↔ Yields step next result := by
  constructor
  · rintro ⟨fuel, left⟩
    cases fuel with
    | zero => simp [run] at left
    | succ fuel => exact ⟨fuel, by simpa only [run, stepped] using left⟩
  · rintro ⟨fuel, left⟩
    exact ⟨fuel + 1, by simpa only [run, stepped] using left⟩

theorem terminates_of_inl {s next : σ} (stepped : step s = .inl next) :
    Terminates step s ↔ Terminates step next :=
  exists_congr fun _ => yields_of_inl stepped

/-- What holds at every loop head and gives `post` on leaving holds of the yielded value. -/
theorem Yields.induct {s : σ} {result : ρ} (yielded : Yields step s result)
    (inv : σ → Prop) (post : ρ → Prop) (start : inv s)
    (stays : ∀ s next, inv s → step s = .inl next → inv next)
    (leaves : ∀ s result, inv s → step s = .inr result → post result) : post result := by
  obtain ⟨fuel, left⟩ := yielded
  induction fuel generalizing s with
  | zero => simp [run] at left
  | succ fuel ih =>
    simp only [run] at left
    cases stepped : step s with
    | inl next =>
      rw [stepped] at left
      exact ih (stays s next start stepped) left
    | inr value =>
      rw [stepped] at left
      exact leaves s result start (Option.some.inj left ▸ stepped)

/-- A loop whose steps are the images of another loop's steps yields the images of its values. -/
theorem yields_map {σ' ρ' : Type*} {step' : σ' → σ' ⊕ ρ'} {f : σ → σ'} {g : ρ → ρ'}
    (lockstep : ∀ s, step' (f s) = (step s).map f g) {s : σ} {result : ρ'} :
    Yields step' (f s) result ↔ ∃ value, Yields step s value ∧ g value = result := by
  have same : ∀ fuel s, run step' fuel (f s) = (run step fuel s).map g := by
    intro fuel
    induction fuel with
    | zero => exact fun _ => rfl
    | succ fuel ih =>
      intro s
      simp only [run, lockstep]
      cases step s with
      | inl next => exact ih next
      | inr value => rfl
  constructor
  · rintro ⟨fuel, left⟩
    rw [same] at left
    obtain ⟨value, ran, mapped⟩ := Option.map_eq_some_iff.mp left
    exact ⟨value, ⟨fuel, ran⟩, mapped⟩
  · rintro ⟨value, ⟨fuel, ran⟩, rfl⟩
    exact ⟨fuel, by rw [same, ran, Option.map_some]⟩

theorem run_isSome (variant : σ → ℕ)
    (decreases : ∀ s next, step s = .inl next → variant next < variant s)
    {fuel : ℕ} {s : σ} (enough : variant s < fuel) : (run step fuel s).isSome := by
  induction fuel generalizing s with
  | zero => omega
  | succ fuel ih =>
    simp only [run]
    cases stepped : step s with
    | inl next =>
      have := decreases s next stepped
      exact ih (by omega)
    | inr value => rfl

/-- A loop with a decreasing variant as a total function: its fuel can never run out. -/
def total (step : σ → σ ⊕ ρ) (variant : σ → ℕ)
    (decreases : ∀ s next, step s = .inl next → variant next < variant s) (s : σ) : ρ :=
  (run step (variant s + 1) s).get (run_isSome variant decreases (Nat.lt_succ_self _))

theorem yields_total (variant : σ → ℕ)
    (decreases : ∀ s next, step s = .inl next → variant next < variant s) (s : σ) :
    Yields step s (total step variant decreases s) :=
  ⟨variant s + 1, (Option.some_get _).symm⟩

/-- The unfolding equation of the loop, in which no fuel is left. -/
theorem total_eq (variant : σ → ℕ)
    (decreases : ∀ s next, step s = .inl next → variant next < variant s) (s : σ) :
    total step variant decreases s =
      match step s with
      | .inl next => total step variant decreases next
      | .inr result => result := by
  have whole := yields_total variant decreases s
  cases stepped : step s with
  | inl next =>
    exact ((yields_of_inl stepped).mp whole).unique (yields_total variant decreases next)
  | inr result => exact whole.unique (yields_of_inr stepped)

/-- A loop that adds the elements of a list one at a time adds the list. -/
theorem foldl_push {α : Type*} (add : σ → List α → σ) (nil : ∀ s, add s [] = s)
    (append : ∀ s xs ys, add (add s xs) ys = add s (xs ++ ys)) (s : σ) (xs : List α) :
    xs.foldl (fun s x => add s [x]) s = add s xs := by
  induction xs generalizing s with
  | nil => exact (nil s).symm
  | cons x xs ih => rw [List.foldl_cons, ih, append, List.singleton_append]

section Failing

variable {ε α : Type*} {step : σ → α → Except ε σ}

/-- A loop over a list that may fail gets through two lists when it gets through each of them. -/
theorem foldlM_append_ok {first last : σ} {before after : List α} :
    (before ++ after).foldlM step first = .ok last ↔
      ∃ middle, before.foldlM step first = .ok middle ∧ after.foldlM step middle = .ok last := by
  rw [List.foldlM_append]
  cases before.foldlM step first with
  | error e =>
    constructor
    · intro failed
      contradiction
    · rintro ⟨middle, failed, _⟩
      contradiction
  | ok middle =>
    constructor
    · exact fun ran => ⟨middle, rfl, ran⟩
    · rintro ⟨other, same, ran⟩
      exact Except.ok.inj same ▸ ran

theorem foldlM_concat_ok {first last : σ} {events : List α} {event : α} :
    (events ++ [event]).foldlM step first = .ok last ↔
      ∃ middle, events.foldlM step first = .ok middle ∧ step middle event = .ok last := by
  rw [foldlM_append_ok]
  refine exists_congr fun middle => and_congr_right fun _ => ?_
  rw [List.foldlM_cons]
  cases step middle event <;> rfl

/-- What each step carries from the elements before it to those with it holds of every run. -/
theorem foldlM_induct (inv : List α → σ → Prop) {first last : σ} {events : List α}
    (start : inv [] first)
    (stays : ∀ past event s next, inv past s → step s event = .ok next →
      inv (past ++ [event]) next)
    (ran : events.foldlM step first = .ok last) : inv events last := by
  induction events using List.reverseRecOn generalizing last with
  | nil =>
    obtain rfl := Except.ok.inj ran
    exact start
  | append_singleton events event ih =>
    obtain ⟨middle, before, stepped⟩ := foldlM_concat_ok.mp ran
    exact stays events event middle last (ih before) stepped

/-- When no step can fail from a state with the invariant, a run does not fail either. -/
theorem foldlM_total (inv : List α → σ → Prop) {first : σ} (start : inv [] first)
    {events : List α} (stays : ∀ past event s, event ∈ events → inv past s →
      ∃ next, step s event = .ok next ∧ inv (past ++ [event]) next) :
    ∃ last, events.foldlM step first = .ok last ∧ inv events last := by
  induction events using List.reverseRecOn with
  | nil => exact ⟨first, rfl, start⟩
  | append_singleton events event ih =>
    obtain ⟨middle, ran, held⟩ := ih fun past other s member =>
      stays past other s (List.mem_append_left _ member)
    obtain ⟨last, stepped, heldLast⟩ :=
      stays events event middle (List.mem_append_right _ List.mem_cons_self) held
    exact ⟨last, foldlM_concat_ok.mpr ⟨middle, ran, stepped⟩, heldLast⟩

end Failing

end FuncWarble.Machine.Loop
