import Mathlib
import FuncWarble.Machine.Loop

/-! # Walks along a partial function

A loop that follows links from key to key ends exactly when the walk from its key ends. The walk
ends when its start is accessible along the links taken backwards; where only finitely many keys
have a link, that is when it reaches no cycle. In a functional graph everything reached from a
cycle lies on a cycle.
-/

namespace FuncWarble.Machine.Walk

open Relation

variable {α σ ρ : Type*} {next : α → Option α}

def Link (next : α → Option α) (a b : α) : Prop := next a = some b

/-- The walk from `a` comes to a key without a link. -/
def Ends (next : α → Option α) (a : α) : Prop := Acc (fun b a => Link next a b) a

def Reaches (next : α → Option α) (a b : α) : Prop := ReflTransGen (Link next) a b

def OnCycle (next : α → Option α) (a : α) : Prop := TransGen (Link next) a a

theorem Link.unique {a b c : α} (first : Link next a b) (second : Link next a c) : b = c :=
  Option.some.inj (first.symm.trans second)

theorem Ends.of_none {a : α} (stop : next a = none) : Ends next a := by
  refine ⟨a, fun b link => ?_⟩
  rw [Link, stop] at link
  contradiction

theorem Ends.reaches {a b : α} (ends : Ends next a) (reaches : Reaches next a b) :
    Ends next b := by
  induction reaches with
  | refl => exact ends
  | tail _ link ih => exact ih.inv link

/-- No cycle can be left. -/
theorem Ends.not_onCycle {a : α} (ends : Ends next a) : ¬ OnCycle next a := by
  have further : Acc (TransGen fun b a => Link next a b) a := Acc.transGen ends
  induction further with
  | intro a _ ih =>
    intro cycle
    exact ih a (transGen_swap.mpr cycle) ends cycle

/-- What is reached from a cycle lies on a cycle. -/
theorem OnCycle.of_reaches {a b : α} (cycle : OnCycle next a) (reaches : Reaches next a b) :
    OnCycle next b := by
  induction reaches with
  | refl => exact cycle
  | tail _ link ih =>
    obtain ⟨c, first, back⟩ := TransGen.head'_iff.mp ih
    rw [link.unique first]
    exact TransGen.tail' back (link.unique first ▸ link)

private theorem ends_of_finset [DecidableEq α] (keys : Finset α) {a : α}
    (inside : ∀ b, Reaches next a b → next b ≠ none → b ∈ keys)
    (acyclic : ∀ b, Reaches next a b → ¬ OnCycle next b) : Ends next a := by
  induction keys using Finset.strongInduction generalizing a with
  | H keys ih =>
    cases link : next a with
    | none => exact .of_none link
    | some b =>
      have linked : Link next a b := link
      have member : a ∈ keys := inside a .refl (by simp [link])
      have ends : Ends next b := by
        apply ih (keys.erase a) (Finset.erase_ssubset member)
        · intro c reaches linkedOn
          refine Finset.mem_erase.mpr ⟨?_, inside c (reaches.head linked) linkedOn⟩
          rintro rfl
          exact acyclic c .refl (TransGen.head' linked reaches)
        · exact fun c reaches => acyclic c (reaches.head linked)
      exact ⟨a, fun c other => other.unique linked ▸ ends⟩

/-- Where finitely many keys have a link, a walk ends exactly when it reaches no cycle. -/
theorem ends_iff (finite : {a | next a ≠ none}.Finite) (a : α) :
    Ends next a ↔ ∀ b, Reaches next a b → ¬ OnCycle next b := by
  classical
  constructor
  · exact fun ends b reaches => (ends.reaches reaches).not_onCycle
  · exact ends_of_finset finite.toFinset (fun b _ linked => finite.mem_toFinset.mpr linked)

/-- A loop that takes one step along the links in each of its turns ends with the walk. -/
theorem terminates_iff {step : σ → σ ⊕ ρ} (key : σ → α) (inv : σ → Prop)
    (lockstep : ∀ s, inv s → (∃ s', step s = .inl s' ∧ next (key s) = some (key s') ∧ inv s') ∨
      ∃ result, step s = .inr result ∧ next (key s) = none) {s : σ} (start : inv s) :
    Loop.Terminates step s ↔ Ends next (key s) := by
  constructor
  · rintro ⟨result, fuel, left⟩
    induction fuel generalizing s with
    | zero => simp [Loop.run] at left
    | succ fuel ih =>
      rcases lockstep s start with ⟨s', stepped, link, held⟩ | ⟨value, stepped, stop⟩
      · simp only [Loop.run, stepped] at left
        have ends := ih held left
        refine ⟨_, fun b other => ?_⟩
        exact Link.unique link other ▸ ends
      · exact .of_none stop
  · intro ends
    generalize same : key s = a at ends
    induction ends generalizing s with
    | intro a _ ih =>
      rcases lockstep s start with ⟨s', stepped, link, held⟩ | ⟨value, stepped, stop⟩
      · rw [Loop.terminates_of_inl stepped]
        exact ih (key s') (same ▸ link) held rfl
      · exact ⟨value, Loop.yields_of_inr stepped⟩

/-- A list of links without cycles comes to no key twice. -/
theorem nodup_of_isChain {r : α → α → Prop} (acyclic : ∀ a, ¬ TransGen r a a) {keys : List α}
    (chain : keys.IsChain r) : keys.Nodup := by
  have paths : keys.Pairwise (TransGen r) := (chain.imp fun _ _ => TransGen.single).pairwise
  apply paths.imp
  rintro a b path rfl
  exact acyclic a path

end FuncWarble.Machine.Walk
