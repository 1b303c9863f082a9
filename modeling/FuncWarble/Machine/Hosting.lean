import Mathlib
import FuncWarble.Machine.Embedding
import FuncWarble.Machine.Interleaving

/-! # A system inside another one

The calls of a larger system may, after some steps of their own, go on as calls of a smaller one
on a part of the state. If their own steps leave that part alone, then every run of the larger
system contains a run of the smaller one: whatever holds of the part in all runs of the smaller
system holds of it in all runs of the larger one.
-/

namespace FuncWarble.Machine.System

variable {Op Op' : Type} {Ans : Op → Type} {Ans' : Op' → Type} {Call Call' ρ ρ' σ τ : Type}

/-- How the larger system hosts the smaller one: `enter` tells which operation is the last one of
its own before it goes on as which call, `serves` as which calls a call may go on, `leaf` what it
makes of a result, and `own` what it returns otherwise. -/
structure Hosting (big : System Ans' Call' ρ' σ) (small : System Ans Call ρ τ) where
  view : σ → τ
  inject : Op → Op'
  back : ∀ op, Ans' (inject op) → Ans op
  leaf : ρ → ρ'
  quiet : Op' → Prop
  enter : Op' → Option Call
  serves : Call' → Call → Prop
  own : ρ' → Prop
  view_inject : ∀ op s, back op (big.handler (inject op) s).1 = (small.handler op (view s)).1 ∧
    view (big.handler (inject op) s).2 = (small.handler op (view s)).2
  view_quiet : ∀ op s, quiet op → view (big.handler op s).2 = view s
  enter_inject : ∀ op, enter (inject op) = none
  resume_leaf : ∀ result, big.resume (leaf result) = (small.resume result).map fun prog =>
    prog.embed inject back >>= fun result => .ret (leaf result)

namespace Hosting

variable {big : System Ans' Call' ρ' σ} {small : System Ans Call ρ τ} (host : Hosting big small)

/-- The program of the smaller system, run by the larger one. -/
def inside (prog : Program Ans ρ) : Program Ans' ρ' :=
  prog.embed host.inject host.back >>= fun result => .ret (host.leaf result)

theorem inside_ret (result : ρ) : host.inside (.ret result) = .ret (host.leaf result) := rfl

theorem inside_call (op : Op) (next : Ans op → Program Ans ρ) : host.inside (.call op next) =
    .call (host.inject op) fun answer => host.inside (next (host.back op answer)) := rfl

/-- What is left of a call that has not entered the smaller system, and may never do so. -/
def Outside (call' : Call') : Program Ans' ρ' → Prop
  | .ret result => big.resume result = none ∧ host.own result
  | .call op next => host.quiet op ∧ ∀ answer,
      match host.enter op with
      | some call => host.serves call' call ∧ next answer = host.inside (small.start call)
      | none => Outside call' (next answer)

/-- The calls that were entered, in order. -/
def entered (w : World Op' Call' σ) : List Call :=
  w.trace.filterMap fun performed => host.enter performed.2

/-- The configuration of the larger system contains one of the smaller system. Its task number `n`
is run by the task `owners[n]` of the larger one, and the other tasks are still outside. -/
structure Contains (c : Config Ans' Call' ρ' σ) (d : Config Ans Call ρ τ) (owners : List ℕ) :
    Prop where
  viewed : host.view c.world.state = d.world.state
  calls : d.tasks.map Task.call = host.entered c.world
  nodup : owners.Nodup
  length : owners.length = d.tasks.length
  runs : ∀ (n owner : ℕ), owners[n]? = some owner → ∃ call call' prog, host.serves call' call ∧
    d.tasks[n]? = some ⟨call, prog⟩ ∧ c.tasks[owner]? = some ⟨call', host.inside prog⟩
  outside : ∀ (index : ℕ) task, c.tasks[index]? = some task → index ∉ owners →
    host.Outside task.call task.prog

variable {host} {c : Config Ans' Call' ρ' σ} {d : Config Ans Call ρ τ} {owners : List ℕ}

theorem entered_perform (call : Call') (op : Op') (w : World Op' Call' σ) :
    host.entered (big.perform call op w) = host.entered w ++ (host.enter op).toList := by
  cases entered : host.enter op <;> simp [Hosting.entered, perform, entered]

/-- A step of a call that stays outside. -/
private theorem Contains.stay (contains : host.Contains c d owners) {w : World Op' Call' σ}
    (viewed : host.view w.state = host.view c.world.state)
    (entered : host.entered w = host.entered c.world) {index : ℕ} {task : Task Ans' Call' ρ'}
    (own : index ∉ owners) (outside : host.Outside task.call task.prog) :
    host.Contains ⟨w, c.tasks.set index task⟩ d owners where
  viewed := viewed.trans contains.viewed
  calls := contains.calls.trans entered.symm
  nodup := contains.nodup
  length := contains.length
  runs n owner owned := by
    obtain ⟨call, call', prog, serves, small, large⟩ := contains.runs n owner owned
    have ne : index ≠ owner := fun same => own (same ▸ List.mem_of_getElem? owned)
    exact ⟨call, call', prog, serves, small, (List.getElem?_set_ne ne).trans large⟩
  outside other task' found free := by
    rcases eq_or_ne other index with rfl | ne
    · rw [List.getElem?_set_self'] at found
      obtain ⟨old, _, rfl⟩ := Option.map_eq_some_iff.mp found
      exact outside
    · rw [List.getElem?_set_ne ne.symm] at found
      exact contains.outside other task' found free

/-- A call that enters: the smaller system gets a new task. -/
private theorem Contains.enter (contains : host.Contains c d owners) {w : World Op' Call' σ}
    {call : Call} (viewed : host.view w.state = host.view c.world.state)
    (entered : host.entered w = host.entered c.world ++ [call]) {index : ℕ} {call' : Call'}
    (serves : host.serves call' call) (present : index < c.tasks.length) (own : index ∉ owners) :
    host.Contains ⟨w, c.tasks.set index ⟨call', host.inside (small.start call)⟩⟩
      (small.step d (.invoke call)) (owners ++ [index]) where
  viewed := viewed.trans contains.viewed
  calls := by
    rw [entered, ← contains.calls]
    exact List.map_append
  nodup := List.nodup_append.mpr ⟨contains.nodup, List.nodup_singleton _, by
    rintro other member _ single rfl
    obtain rfl := List.mem_singleton.mp single
    exact own member⟩
  length := by
    simp only [step, List.length_append, contains.length, List.length_singleton]
  runs n owner owned := by
    rcases Nat.lt_or_ge n owners.length with old | new
    · rw [List.getElem?_append_left old] at owned
      obtain ⟨other, other', prog, serves, small, large⟩ := contains.runs n owner owned
      have ne : index ≠ owner := fun same => own (same ▸ List.mem_of_getElem? owned)
      have position : n < d.tasks.length := contains.length ▸ old
      exact ⟨other, other', prog, serves, (List.getElem?_append_left position).trans small,
        (List.getElem?_set_ne ne).trans large⟩
    · rw [List.getElem?_append_right new] at owned
      obtain ⟨position, same⟩ := List.getElem?_eq_some_iff.mp owned
      obtain rfl : n = owners.length := by
        rw [List.length_singleton] at position
        omega
      simp only [Nat.sub_self, List.getElem_cons_zero] at same
      subst same
      refine ⟨call, call', small.start call, serves, ?_, List.getElem?_set_self present⟩
      rw [contains.length]
      exact List.getElem?_concat_length ..
  outside other task' found free := by
    have ne : other ≠ index := fun same => free (same ▸ List.mem_append_right _
      (List.mem_singleton_self _))
    rw [List.getElem?_set_ne ne.symm] at found
    exact contains.outside other task' found fun member => free (List.mem_append_left _ member)

/-- A step of the smaller system, taken by the task that runs its call. -/
private theorem Contains.move (contains : host.Contains c d owners) {n owner : ℕ}
    (owned : owners[n]? = some owner) {call : Call} {call' : Call'} {prog prog' : Program Ans ρ}
    (serves : host.serves call' call) (small : d.tasks[n]? = some ⟨call, prog⟩)
    (large : c.tasks[owner]? = some ⟨call', host.inside prog⟩) {w : World Op' Call' σ}
    {v : World Op Call τ} (viewed : host.view w.state = v.state)
    (entered : host.entered w = host.entered c.world) :
    host.Contains ⟨w, c.tasks.set owner ⟨call', host.inside prog'⟩⟩
      ⟨v, d.tasks.set n ⟨call, prog'⟩⟩ owners where
  viewed := viewed
  calls := by
    obtain ⟨position, current⟩ := List.getElem?_eq_some_iff.mp small
    have same := congrArg (List.map Task.call) (List.set_getElem_self position)
    rw [current, List.map_set] at same
    rw [List.map_set, same, contains.calls, entered]
  nodup := contains.nodup
  length := contains.length.trans (List.length_set ..).symm
  runs m other owned' := by
    rcases eq_or_ne m n with rfl | ne
    · obtain rfl := Option.some.inj (owned.symm.trans owned')
      refine ⟨call, call', prog', serves, ?_, ?_⟩
      · exact List.getElem?_set_self (List.getElem?_eq_some_iff.mp small).1
      · exact List.getElem?_set_self (List.getElem?_eq_some_iff.mp large).1
    · obtain ⟨call₂, call₂', prog₂, serves₂, small₂, large₂⟩ := contains.runs m other owned'
      have apart : owner ≠ other := by
        rintro rfl
        obtain ⟨_, first⟩ := List.getElem?_eq_some_iff.mp owned
        obtain ⟨_, second⟩ := List.getElem?_eq_some_iff.mp owned'
        exact ne (contains.nodup.getElem_inj_iff.mp (second.trans first.symm))
      exact ⟨call₂, call₂', prog₂, serves₂, (List.getElem?_set_ne ne.symm).trans small₂,
        (List.getElem?_set_ne apart).trans large₂⟩
  outside index task found free := by
    have ne : owner ≠ index := fun same => free (same ▸ List.mem_of_getElem? owned)
    rw [List.getElem?_set_ne ne] at found
    exact contains.outside index task found free

/-- A call that arrives is outside. -/
private theorem Contains.arrive (contains : host.Contains c d owners) {call : Call'}
    (start : host.Outside call (big.start call)) :
    host.Contains (big.step c (.invoke call)) d owners where
  viewed := contains.viewed
  calls := contains.calls
  nodup := contains.nodup
  length := contains.length
  runs n owner owned := by
    obtain ⟨other, other', prog, serves, small, large⟩ := contains.runs n owner owned
    have position := (List.getElem?_eq_some_iff.mp large).1
    exact ⟨other, other', prog, serves, small, (List.getElem?_append_left position).trans large⟩
  outside index task found free := by
    rcases Nat.lt_or_ge index c.tasks.length with old | new
    · exact contains.outside index task ((List.getElem?_append_left old).symm.trans found) free
    · simp only [System.step] at found
      rw [List.getElem?_append_right new] at found
      obtain rfl := List.mem_singleton.mp (List.mem_of_getElem? found)
      exact start

/-- A task that runs a call of the smaller system takes a step of that call. -/
private theorem Contains.advance (contains : host.Contains c d owners) {n index : ℕ}
    (owned : owners[n]? = some index) : host.Contains (big.step c (.advance index))
      (small.step d (.advance n)) owners := by
  obtain ⟨call, call', prog, serves, found, large⟩ := contains.runs n index owned
  cases prog with
  | ret result =>
    have current := large
    rw [inside_ret] at current
    simp only [System.step, current, found, host.resume_leaf]
    cases resumed : small.resume result with
    | none => exact contains
    | some onward => exact contains.move owned serves found large contains.viewed rfl
  | call op next =>
    have current := large
    rw [inside_call] at current
    obtain ⟨answered, changed⟩ := host.view_inject op c.world.state
    rw [contains.viewed] at answered changed
    simp only [System.step, current, found]
    have same : host.back op (big.answer (host.inject op) c.world) =
      small.answer op d.world := answered
    rw [same]
    refine contains.move owned serves found large changed ?_
    rw [entered_perform, host.enter_inject, Option.toList_none, List.append_nil]

/-- A task outside does nothing to the smaller system, or enters it with a call. -/
private theorem Contains.advance_outside (contains : host.Contains c d owners) {index : ℕ}
    {task : Task Ans' Call' ρ'} (current : c.tasks[index]? = some task) (own : index ∉ owners) :
    ∃ events owners',
      host.Contains (big.step c (.advance index)) (small.run d events) owners' := by
  have outside := contains.outside index task current own
  obtain ⟨call', result | ⟨op, next⟩⟩ := task
  · refine ⟨[], owners, ?_⟩
    have ends : big.resume result = none := outside.1
    simpa only [System.step, current, ends, run, List.foldl_nil] using contains
  · obtain ⟨quiet, outside⟩ := outside
    have later := outside (big.answer op c.world)
    have unchanged := host.view_quiet op c.world.state quiet
    simp only [System.step, current]
    cases enters : host.enter op with
    | none =>
      rw [enters] at later
      refine ⟨[], owners, contains.stay unchanged ?_ own later⟩
      rw [entered_perform, enters, Option.toList_none, List.append_nil]
    | some call =>
      rw [enters] at later
      obtain ⟨serves, onward⟩ := later
      refine ⟨[.invoke call], owners ++ [index], ?_⟩
      rw [onward]
      refine contains.enter unchanged ?_ serves (List.getElem?_eq_some_iff.mp current).1 own
      rw [entered_perform, enters, Option.toList_some]

/-- Every step of the larger system is some steps of the smaller one, or none. -/
theorem Contains.step (start : ∀ call, host.Outside call (big.start call))
    (contains : host.Contains c d owners) (event : Event Call') : ∃ events owners',
      host.Contains (big.step c event) (small.run d events) owners' := by
  cases event with
  | invoke call => exact ⟨[], owners, contains.arrive (start call)⟩
  | advance index =>
    cases current : c.tasks[index]? with
    | none =>
      refine ⟨[], owners, ?_⟩
      simpa only [System.step, current, run, List.foldl_nil] using contains
    | some task =>
      by_cases own : index ∈ owners
      · obtain ⟨n, owned⟩ := List.getElem?_of_mem own
        exact ⟨[.advance n], owners, contains.advance owned⟩
      · exact contains.advance_outside current own

/-- Every run of the larger system contains a run of the smaller one. -/
theorem exists_run (start : ∀ call, host.Outside call (big.start call)) (s : σ)
    (events : List (Event Call')) : ∃ events' owners,
      host.Contains (big.run (initial s) events) (small.run (initial (host.view s)) events')
        owners := by
  induction events using List.reverseRecOn with
  | nil =>
    refine ⟨[], [], rfl, rfl, List.nodup_nil, rfl, ?_, ?_⟩
    · intro n owner owned
      simp at owned
    · intro index task found
      simp [run, initial] at found
  | append_singleton events event ih =>
    obtain ⟨before, owners, contains⟩ := ih
    obtain ⟨more, owners', contains'⟩ := contains.step start event
    refine ⟨before ++ more, owners', ?_⟩
    rw [run, List.foldl_concat, run, List.foldl_append]
    exact contains'

end Hosting

end FuncWarble.Machine.System
