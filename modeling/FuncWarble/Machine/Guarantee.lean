import Mathlib
import FuncWarble.Machine.Interleaving

/-! # What a call guarantees while others run

Between two operations of a call the other calls may do to the world whatever keeps its invariant;
of the past they change nothing, so the trace only grows. A program keeps the invariant when each
of its operations does, in every world that the others may leave behind. Programs that do so at
every start and at every loop head keep the invariant in all runs, and each task meets its
postcondition whenever it returns.
-/

namespace FuncWarble.Machine.System

variable {Op : Type} {Ans : Op → Type} {Call ρ τ σ : Type}

/-- The second world may come after the first: nothing of the past is undone. -/
def Later (w w' : World Op Call σ) : Prop := w.trace <+: w'.trace

theorem Later.refl (w : World Op Call σ) : Later w w := List.prefix_rfl

theorem Later.trans {w₁ w₂ w₃ : World Op Call σ} (first : Later w₁ w₂) (second : Later w₂ w₃) :
    Later w₁ w₃ := List.IsPrefix.trans first second

theorem later_perform (sys : System Ans Call ρ σ) (call : Call) (op : Op) (w : World Op Call σ) :
    Later w (sys.perform call op w) := List.prefix_append ..

variable (sys : System Ans Call ρ σ) (inv : World Op Call σ → Prop)

/-- Each operation of the program keeps the invariant, and what it returns meets `post`, whatever
the other calls do in between and afterwards. -/
def Keeps (call : Call) (post : τ → World Op Call σ → Prop) :
    Program Ans τ → World Op Call σ → Prop
  | .ret result, w => ∀ w', Later w w' → inv w' → post result w'
  | .call op next, w => ∀ w', Later w w' → inv w' → inv (sys.perform call op w') ∧
      Keeps call post (next (sys.answer op w')) (sys.perform call op w')

variable {sys inv} {call : Call} {post : τ → World Op Call σ → Prop} {prog : Program Ans τ}
  {w : World Op Call σ}

theorem Keeps.later (keeps : sys.Keeps inv call post prog w) {w' : World Op Call σ}
    (later : Later w w') : sys.Keeps inv call post prog w' := by
  cases prog with
  | ret result => exact fun w'' after => keeps w'' (later.trans after)
  | call op next => exact fun w'' after => keeps w'' (later.trans after)

theorem Keeps.bind {f : τ → Program Ans ρ} {post' : ρ → World Op Call σ → Prop}
    (first : sys.Keeps inv call post prog w) (kept : inv w)
    (rest : ∀ result w', Later w w' → inv w' → post result w' →
      sys.Keeps inv call post' (f result) w') :
    sys.Keeps inv call post' (prog >>= f) w := by
  induction prog generalizing w with
  | ret result => exact rest result w (Later.refl w) kept (first w (Later.refl w) kept)
  | call op next ih =>
    intro w' later kept'
    obtain ⟨performed, onward⟩ := first w' later kept'
    refine ⟨performed, ih _ onward performed fun result w'' after => ?_⟩
    exact rest result w'' ((later.trans (later_perform sys call op w')).trans after)

theorem Keeps.weaken {post' : τ → World Op Call σ → Prop}
    (keeps : sys.Keeps inv call post prog w)
    (weaker : ∀ result w', Later w w' → inv w' → post result w' → post' result w') :
    sys.Keeps inv call post' prog w := by
  induction prog generalizing w with
  | ret result =>
    intro w' later kept
    exact weaker result w' later kept (keeps w' later kept)
  | call op next ih =>
    intro w' later kept
    obtain ⟨performed, onward⟩ := keeps w' later kept
    refine ⟨performed, ih _ onward fun result w'' after => ?_⟩
    exact weaker result w'' ((later.trans (later_perform sys call op w')).trans after)

/-- Running alone is one way of running among others. -/
theorem Keeps.alone (keeps : sys.Keeps inv call post prog w) (kept : inv w) :
    ∃ w', Later w w' ∧ inv w' ∧ (prog.run sys.handler w.state).2 = w'.state ∧
      post (prog.run sys.handler w.state).1 w' := by
  induction prog generalizing w with
  | ret result => exact ⟨w, Later.refl w, kept, rfl, keeps w (Later.refl w) kept⟩
  | call op next ih =>
    obtain ⟨performed, onward⟩ := keeps w (Later.refl w) kept
    obtain ⟨w', later, kept', reached, met⟩ := ih _ onward performed
    exact ⟨w', (later_perform sys call op w).trans later, kept', reached, met⟩

/-- Every task of the configuration still keeps the invariant, which holds. -/
def Guaranteed (sys : System Ans Call ρ σ) (inv : World Op Call σ → Prop)
    (post : Call → ρ → World Op Call σ → Prop) (c : Config Ans Call ρ σ) : Prop :=
  inv c.world ∧ ∀ task ∈ c.tasks, sys.Keeps inv task.call (post task.call) task.prog c.world

/-- Calls that keep the invariant from every start and from every loop head keep it in all runs. -/
theorem guarantee {post : Call → ρ → World Op Call σ → Prop}
    (start : ∀ call w, inv w → sys.Keeps inv call (post call) (sys.start call) w)
    (resume : ∀ call result prog w, inv w → post call result w → sys.resume result = some prog →
      sys.Keeps inv call (post call) prog w)
    {s : σ} (init : inv ⟨s, []⟩) (events : List (Event Call)) :
    sys.Guaranteed inv post (sys.run (initial s) events) := by
  have empty : sys.Guaranteed inv post (initial s) := ⟨init, fun _ member => nomatch member⟩
  refine run_invariant ?_ empty events
  rintro c event ⟨kept, all⟩
  have stepped := sys.step_cases c event
  generalize sys.step c event = c' at stepped ⊢
  cases stepped with
  | stay => exact ⟨kept, all⟩
  | invoke call => exact ⟨kept, forall_mem_concat all (start call c.world kept)⟩
  | perform index call op next current =>
    obtain ⟨performed, onward⟩ :=
      all _ (List.mem_of_getElem? current) c.world (Later.refl c.world) kept
    have others : ∀ task ∈ c.tasks, sys.Keeps inv task.call (post task.call) task.prog
        (sys.perform call op c.world) :=
      fun task member => (all task member).later (later_perform sys call op c.world)
    exact ⟨performed, forall_mem_set others onward index⟩
  | resume index call result prog current resumed =>
    have met := all _ (List.mem_of_getElem? current) c.world (Later.refl c.world) kept
    exact ⟨kept, forall_mem_set all (resume call result prog c.world kept met resumed) index⟩

/-- The configuration has come after another one, and the tasks that have arrived since then keep
the invariant and what they promise. -/
structure Since (sys : System Ans Call ρ σ) (inv : World Op Call σ → Prop)
    (post : Call → ρ → World Op Call σ → Prop) (c c' : Config Ans Call ρ σ) : Prop where
  later : Later c.world c'.world
  arrived : ∀ index task, c.tasks.length ≤ index → c'.tasks[index]? = some task →
    sys.Keeps inv task.call (post task.call) task.prog c'.world
  length_le : c.tasks.length ≤ c'.tasks.length

private theorem Since.set {c c' : Config Ans Call ρ σ} {post : Call → ρ → World Op Call σ → Prop}
    {w' : World Op Call σ} (since : sys.Since inv post c c') (later : Later c'.world w')
    {index : ℕ} {new : Task Ans Call ρ}
    (keeps : c.tasks.length ≤ index → sys.Keeps inv new.call (post new.call) new.prog w') :
    sys.Since inv post c ⟨w', c'.tasks.set index new⟩ where
  later := since.later.trans later
  arrived other task inside found := by
    rcases eq_or_ne other index with rfl | ne
    · rw [List.getElem?_set_self'] at found
      obtain ⟨old, _, rfl⟩ := Option.map_eq_some_iff.mp found
      exact keeps inside
    · rw [List.getElem?_set_ne ne.symm] at found
      exact (since.arrived other task inside found).later later
  length_le := by
    rw [List.length_set]
    exact since.length_le

/-- A call that arrives after some part of a run starts from a world in which that part is over, and
may promise more than any call does. -/
theorem guarantee_since {post promise : Call → ρ → World Op Call σ → Prop} {s : σ}
    (guaranteed : ∀ events, sys.Guaranteed inv post (sys.run (initial s) events))
    (earlier : List (Event Call))
    (start : ∀ call w, Later (sys.run (initial s) earlier).world w → inv w →
      sys.Keeps inv call (promise call) (sys.start call) w)
    (resume : ∀ call result prog w, Later (sys.run (initial s) earlier).world w → inv w →
      promise call result w → sys.resume result = some prog →
        sys.Keeps inv call (promise call) prog w)
    (later : List (Event Call)) :
    sys.Since inv promise (sys.run (initial s) earlier)
      (sys.run (initial s) (earlier ++ later)) := by
  induction later using List.reverseRecOn with
  | nil =>
    rw [List.append_nil]
    refine ⟨Later.refl _, fun index task outside found => ?_, le_rfl⟩
    exact absurd (List.getElem?_eq_some_iff.mp found).1 (Nat.not_lt.mpr outside)
  | append_singleton later event since =>
    have kept := (guaranteed (earlier ++ later)).1
    rw [← List.append_assoc, show sys.run (initial s) (earlier ++ later ++ [event]) =
      sys.step (sys.run (initial s) (earlier ++ later)) event from List.foldl_concat ..]
    generalize sys.run (initial s) (earlier ++ later) = c at since kept ⊢
    have stepped := sys.step_cases c event
    generalize sys.step c event = c' at stepped ⊢
    cases stepped with
    | stay => exact since
    | invoke call =>
      refine ⟨since.later, fun index task inside found => ?_, ?_⟩
      · rcases Nat.lt_or_ge index c.tasks.length with old | new
        · exact since.arrived index task inside ((List.getElem?_append_left old).symm.trans found)
        · rw [List.getElem?_append_right new] at found
          obtain rfl := List.mem_singleton.mp (List.mem_of_getElem? found)
          exact start call c.world since.later kept
      · rw [List.length_append]
        exact since.length_le.trans (Nat.le_add_right ..)
    | perform index call op next current =>
      refine since.set (later_perform sys call op c.world) fun inside => ?_
      have keeps := since.arrived index _ inside current
      exact (keeps c.world (Later.refl c.world) kept).2
    | resume index call result prog current resumed =>
      refine since.set (Later.refl c.world) fun inside => ?_
      have promised := since.arrived index _ inside current c.world (Later.refl c.world) kept
      exact resume call result prog c.world since.later kept promised resumed

end FuncWarble.Machine.System
