import Mathlib
import FuncWarble.Model.WarbleMessage
import FuncWarble.Proofs.ConcurrentService

/-! # Unique registration

`RegisterUser` looks a username up and puts it in a later step, and a `Put` adds to what is there.
What has been put under the key of a username and what is about to be put there are counted
together: as long as no call finds the username free while another one is about to put it, the
count stays at one, and every successful call accounts for one of the values.
-/

namespace FuncWarble.Proofs

open Text Model Machine

variable {platform : Platform} {username : Bytes}

/-- A `RegisterUser` of the username that has found it free and has not put it yet. -/
def aboutToPut (username : Bytes) (task : ServiceTask) : Bool :=
  task.prog.nextOp = some (.put (nameKey .user username) username)

/-- A `RegisterUser` of the username that has not looked it up yet. -/
def aboutToCheck (username : Bytes) (task : ServiceTask) : Bool :=
  task.call = .registerUser ⟨username⟩ ∧
    task.prog.nextOp = some (.get [nameKey .user username])

/-- A `RegisterUser` of the username that returned OK. -/
def hasRegistered (username : Bytes) (task : ServiceTask) : Bool :=
  match task.prog with
  | .ret (.inr (status, _)) => task.call = .registerUser ⟨username⟩ ∧ status = Status.OK
  | _ => false

/-- No `RegisterUser` finds the username free while another one is about to put it. -/
def NoOverlap (username : Bytes) (c : ServiceConfig) : Event WarbleCall → Prop
  | .invoke _ => True
  | .advance index => ∀ task ∈ c.tasks[index]?, aboutToCheck username task →
      ¬ Found c.world.state (nameKey .user username) →
        ∀ other ∈ c.tasks, ¬ aboutToPut username other

instance (c : ServiceConfig) (event : Event WarbleCall) :
    Decidable (NoOverlap username c event) := by
  cases event <;> simp only [NoOverlap] <;> infer_instance

/-- The rest of a `RegisterUser` that has found the username free. -/
def putAndReturn (username : Bytes) : ServiceProgram :=
  .call (.put (nameKey .user username) username) fun _ =>
    .ret (.inr (Status.OK, .registerUser {}))

theorem registerUser_program (platform : Platform) (username : Bytes) : ∃ next,
    (WarbleCall.registerUser ⟨username⟩).program platform =
      .call (.get [nameKey .user username]) next ∧
    next none = putAndReturn username ∧ ∀ values, next (some values) =
      .ret (.inr (⟨.alreadyExists, "Username already exists."⟩, .registerUser {})) :=
  ⟨_, rfl, rfl, fun _ => rfl⟩

/-- The operation puts nothing under the key of the username. -/
def Elsewhere (username : Bytes) (op : ClientOp) : Prop :=
  ∀ val, op ≠ .put (nameKey .user username) val

/-- What can be left of a call: three stages of a `RegisterUser` of the username, and programs
that never put anything under its key. -/
inductive Stage (platform : Platform) (username : Bytes) (call : WarbleCall)
    (prog : ServiceProgram) : Prop
  | checking (own : call = .registerUser ⟨username⟩) (same : prog = call.program platform)
  | free (own : call = .registerUser ⟨username⟩) (same : prog = putAndReturn username)
  | returned (own : call = .registerUser ⟨username⟩) (result : WarbleResult)
    (same : prog = .ret (.inr result))
  | elsewhere (other : call ≠ .registerUser ⟨username⟩) (uses : prog.Uses (Elsewhere username))

private theorem get_elsewhere (keys : List Bytes) : Elsewhere username (.get keys) :=
  fun _ => nofun

private theorem put_elsewhere {key : Bytes} (other : key ≠ nameKey .user username) (val : Bytes) :
    Elsewhere username (.put key val) := by
  rintro _ ⟨⟩
  exact other rfl

/-- Only a `RegisterUser` of the username puts anything under its key. -/
theorem OwnOp.elsewhere {call : WarbleCall} {op : ClientOp} (own : OwnOp platform call op)
    (other : call ≠ .registerUser ⟨username⟩) : Elsewhere username op := by
  cases own with
  | get key => exact get_elsewhere _
  | put entry own =>
    apply put_elsewhere
    cases call with
    | registerUser request =>
      obtain rfl := Option.some.inj own
      exact fun same => other (by rw [← (nameKey_inj.mp same).2])
    | warble request tv =>
      obtain rfl := Option.some.inj own
      exact decimal_ne_nameKey _ _ _
    | follow request =>
      rw [entryOf] at own
      split_ifs at own <;> obtain rfl := Option.some.inj own
      · exact nameKey_ne (by decide)
      · exact nameKey_ne (by decide)
    | read request => contradiction
    | profile request => contradiction

theorem stage_start (call : WarbleCall) :
    Stage platform username call (call.program platform) := by
  rcases eq_or_ne call (.registerUser ⟨username⟩) with own | other
  · exact .checking own rfl
  · exact .elsewhere other ((program_uses platform call).mono fun _ own => own.elsewhere other)

theorem Stage.answered {call : WarbleCall} {op : ClientOp}
    {next : ClientOp.Answer op → ServiceProgram}
    (stage : Stage platform username call (.call op next)) (answer : ClientOp.Answer op) :
    Stage platform username call (next answer) := by
  cases stage with
  | checking own same =>
    subst own
    obtain ⟨rest, program, free, taken⟩ := registerUser_program platform username
    rw [program] at same
    cases same
    cases answer with
    | none => exact .free rfl free
    | some values => exact .returned rfl _ (taken values)
  | free own same =>
    cases same
    exact .returned own _ rfl
  | returned own result same => contradiction
  | elsewhere other uses => exact .elsewhere other (uses.2 answer)

/-- Only calls other than a `RegisterUser` of the username have a loop. -/
theorem Stage.resumed {call : WarbleCall} {result : WarbleService.ReadLoop ⊕ WarbleResult}
    {prog : ServiceProgram} (stage : Stage platform username call (.ret result))
    (resumed : (warbleService platform).resume result = some prog) :
    call ≠ .registerUser ⟨username⟩ ∧ Stage platform username call prog := by
  rcases result with head | result
  · obtain rfl := Option.some.inj resumed
    cases stage with
    | checking own same =>
      subst own
      obtain ⟨rest, program, _⟩ := registerUser_program platform username
      rw [program] at same
      contradiction
    | free own same => contradiction
    | returned own result same => exact nomatch Program.ret.inj same
    | elsewhere other uses =>
      exact ⟨other, .elsewhere other
        ((body_uses platform _ head).mono fun _ own => own.elsewhere other)⟩
  · contradiction

/-- What the runs without overlap keep: at most one value has been put or is about to be put under
the key, and every call that registered the username put one of the values. -/
structure OneRegistration (platform : Platform) (username : Bytes) (c : ServiceConfig) : Prop where
  stages : ∀ task ∈ c.tasks, Stage platform username task.call task.prog
  single : c.tasks.countP (aboutToPut username) +
    (c.world.state.storage.get (nameKey .user username)).length ≤ 1
  earned : c.tasks.countP (hasRegistered username) ≤
    (c.world.state.storage.get (nameKey .user username)).length

/-- A call that is not a `RegisterUser` of the username has no part in the counts. -/
theorem Stage.silent {call : WarbleCall} {prog : ServiceProgram}
    (other : call ≠ .registerUser ⟨username⟩) (stage : Stage platform username call prog) :
    aboutToPut username ⟨call, prog⟩ = false ∧ hasRegistered username ⟨call, prog⟩ = false := by
  cases stage with
  | checking own same => exact absurd own other
  | free own same => exact absurd own other
  | returned own result same => exact absurd own other
  | elsewhere _ uses =>
    cases prog with
    | ret result =>
      refine ⟨rfl, ?_⟩
      rcases result with head | result
      · rfl
      · simp [hasRegistered, other]
    | call op next => exact ⟨decide_eq_false fun same => uses.1 _ (Option.some.inj same), rfl⟩

private theorem start_silent (call : WarbleCall) :
    aboutToPut username ⟨call, call.program platform⟩ = false ∧
      hasRegistered username ⟨call, call.program platform⟩ = false := by
  rcases eq_or_ne call (.registerUser ⟨username⟩) with rfl | own
  · obtain ⟨rest, program, _⟩ := registerUser_program platform username
    rw [program]
    exact ⟨rfl, rfl⟩
  · exact (stage_start call).silent own

/-- An operation that puts nothing under the key leaves its values alone. -/
theorem get_of_elsewhere {op : ClientOp} (elsewhere : Elsewhere username op)
    (server : KeyValueStoreImpl) :
    (KeyValueClient.handler op server).2.storage.get (nameKey .user username) =
      server.storage.get (nameKey .user username) := by
  cases op with
  | get keys => rw [KeyValueClient.handler_get_snd]
  | put key val =>
    have other : nameKey .user username ≠ key := by
      rintro rfl
      exact elsewhere val rfl
    rw [KeyValueClient.handler_put_storage, Storage.get_pushBack_of_ne _ _ other]

/-- One task goes on, and the counts move by what it counted for before and counts for now. -/
theorem OneRegistration.exchange {c : ServiceConfig} {w : ServiceWorld} {index : ℕ}
    {before after : ServiceTask} (current : c.tasks[index]? = some before)
    (stages : ∀ task ∈ c.tasks.set index after, Stage platform username task.call task.prog)
    (single : c.tasks.countP (aboutToPut username) + (if aboutToPut username after then 1 else 0) +
      (w.state.storage.get (nameKey .user username)).length ≤
        1 + if aboutToPut username before then 1 else 0)
    (earned : c.tasks.countP (hasRegistered username) +
      (if hasRegistered username after then 1 else 0) ≤
        (w.state.storage.get (nameKey .user username)).length +
          if hasRegistered username before then 1 else 0) :
    OneRegistration platform username ⟨w, c.tasks.set index after⟩ := by
  have putting := System.countP_set_add (aboutToPut username) current after
  have registered := System.countP_set_add (hasRegistered username) current after
  exact ⟨stages, by simp only; omega, by simp only; omega⟩

/-- A task that counts for nothing, before and after, and puts nothing under the key. -/
theorem OneRegistration.silent {c : ServiceConfig} {w : ServiceWorld} {index : ℕ}
    {before after : ServiceTask} (held : OneRegistration platform username c)
    (current : c.tasks[index]? = some before)
    (stages : ∀ task ∈ c.tasks.set index after, Stage platform username task.call task.prog)
    (same : w.state.storage.get (nameKey .user username) =
      c.world.state.storage.get (nameKey .user username))
    (nothing : aboutToPut username before = false ∧ hasRegistered username before = false)
    (still : aboutToPut username after = false ∧ hasRegistered username after = false) :
    OneRegistration platform username ⟨w, c.tasks.set index after⟩ := by
  apply exchange current stages
  · simpa [same, nothing.1, still.1] using held.single
  · simpa [same, nothing.2, still.2] using held.earned

/-- The username was looked up and is free: now one task is about to put it. -/
theorem OneRegistration.foundFree {c : ServiceConfig} {w : ServiceWorld} {index : ℕ}
    {call : WarbleCall} {before : ServiceTask} (held : OneRegistration platform username c)
    (current : c.tasks[index]? = some before)
    (stages : ∀ task ∈ c.tasks.set index ⟨call, putAndReturn username⟩,
      Stage platform username task.call task.prog)
    (same : w.state.storage.get (nameKey .user username) =
      c.world.state.storage.get (nameKey .user username))
    (missing : ¬ Found c.world.state (nameKey .user username))
    (nobody : ∀ other ∈ c.tasks, ¬ aboutToPut username other) :
    OneRegistration platform username ⟨w, c.tasks.set index ⟨call, putAndReturn username⟩⟩ := by
  have noPuts : c.tasks.countP (aboutToPut username) = 0 := List.countP_eq_zero.mpr nobody
  have earned := held.earned
  rw [not_not.mp missing] at same earned
  apply exchange current stages
  · rw [noPuts, same, List.length_nil]
    split_ifs <;> omega
  · rw [same, if_neg (show ¬ hasRegistered username ⟨call, putAndReturn username⟩ from nofun)]
    exact earned.trans (Nat.le_add_right _ _)

/-- The username is put, and the call returns OK. -/
theorem OneRegistration.hasPut {c : ServiceConfig} {w : ServiceWorld} {index : ℕ}
    {call : WarbleCall} {result : WarbleResult} (held : OneRegistration platform username c)
    (current : c.tasks[index]? = some ⟨call, putAndReturn username⟩)
    (stages : ∀ task ∈ c.tasks.set index ⟨call, .ret (.inr result)⟩,
      Stage platform username task.call task.prog)
    (one : (w.state.storage.get (nameKey .user username)).length =
      (c.world.state.storage.get (nameKey .user username)).length + 1) :
    OneRegistration platform username ⟨w, c.tasks.set index ⟨call, .ret (.inr result)⟩⟩ := by
  have putting : aboutToPut username ⟨call, putAndReturn username⟩ := decide_eq_true rfl
  have settled : ¬ aboutToPut username ⟨call, .ret (.inr result)⟩ := nofun
  have single := held.single
  have earned := held.earned
  apply exchange current stages
  · rw [one, if_pos putting, if_neg settled]
    omega
  · rw [one]
    split_ifs <;> omega

/-- Every event without overlap keeps the counts. -/
theorem step_oneRegistration {c : ServiceConfig} {event : Event WarbleCall}
    (noOverlap : NoOverlap username c event) (held : OneRegistration platform username c) :
    OneRegistration platform username ((warbleService platform).step c event) := by
  have stages := System.step_shape (fun call => stage_start call)
    (fun _ _ _ answer stage => Stage.answered stage answer)
    (fun _ _ _ stage resumed => (Stage.resumed stage resumed).2) held.stages event
  have stepped := (warbleService platform).step_cases c event
  generalize (warbleService platform).step c event = c' at stages stepped ⊢
  cases stepped with
  | stay => exact held
  | invoke call =>
    obtain ⟨notPutting, notRegistered⟩ := @start_silent platform username call
    refine ⟨stages, ?_, ?_⟩
    · simpa [warbleService, notPutting] using held.single
    · simpa [warbleService, notRegistered] using held.earned
  | perform index call op next current =>
    have stage := held.stages _ (List.mem_of_getElem? current)
    cases stage with
    | checking own same =>
      subst own
      obtain ⟨rest, program, free, taken⟩ := registerUser_program platform username
      rw [program] at same
      cases same
      have unchanged := get_of_elsewhere (@get_elsewhere username [nameKey .user username])
        c.world.state
      by_cases found : Found c.world.state (nameKey .user username)
      · have answered : rest ((warbleService platform).answer _ c.world) = _ :=
          (congrArg (fun a => rest a.1) (handler_get_found found)).trans (taken _)
        rw [answered] at stages ⊢
        exact held.silent current stages unchanged ⟨rfl, rfl⟩
          ⟨rfl, by simp [hasRegistered, Status.OK]⟩
      · have answered : rest ((warbleService platform).answer _ c.world) = putAndReturn username :=
          (congrArg (fun a => rest a.1) (handler_get_missing found)).trans free
        have checks : aboutToCheck username
            ⟨.registerUser ⟨username⟩, .call (.get [nameKey .user username]) rest⟩ := by
          simp [aboutToCheck, Program.nextOp]
        rw [answered] at stages ⊢
        exact held.foundFree current stages unchanged found (noOverlap _ current checks found)
    | free own same =>
      cases same
      apply held.hasPut current stages
      simp [warbleService, System.perform]
    | returned own result same => contradiction
    | elsewhere other uses =>
      have before : Stage platform username call (.call op next) := .elsewhere other uses
      have after := before.answered ((warbleService platform).answer op c.world)
      exact held.silent current stages (get_of_elsewhere uses.1 c.world.state)
        (before.silent other) (after.silent other)
  | resume index call result prog current resumed =>
    have stage := held.stages _ (List.mem_of_getElem? current)
    obtain ⟨other, onward⟩ := stage.resumed resumed
    exact held.silent current stages rfl (stage.silent other) (onward.silent other)

/-- Registration is unique without overlap. In every run in which no `RegisterUser` of a username
finds it free while another one is about to put it, at most one of them has returned OK and the
key of the username holds at most one value. -/
theorem registration_unique {server : KeyValueStoreImpl} (empty : server.storage = ∅)
    {events : List (Event WarbleCall)}
    (noOverlap : (warbleService platform).Along (NoOverlap username) (System.initial server)
      events) :
    let c := (warbleService platform).run (System.initial server) events
    c.tasks.countP (hasRegistered username) ≤ 1 ∧
      (c.world.state.storage.get (nameKey .user username)).length ≤ 1 := by
  intro c
  have start : OneRegistration platform username (System.initial server) := by
    refine ⟨(fun _ member => nomatch member), ?_, Nat.zero_le _⟩
    simp [System.initial, empty]
  obtain ⟨_, single, earned⟩ : OneRegistration platform username c :=
    System.run_preserves (fun c event => step_oneRegistration) noOverlap start
  omega

theorem registration_unique_example :
    let c := (warbleService protobufPlatform).run (System.initial ⟨∅, [], false, none⟩)
      [.invoke (.registerUser ⟨str "a"⟩), .invoke (.registerUser ⟨str "a"⟩), .advance 0,
        .advance 0, .advance 1]
    c.tasks.countP (hasRegistered (str "a")) ≤ 1 ∧
      (c.world.state.storage.get (nameKey .user (str "a"))).length ≤ 1 :=
  registration_unique rfl (by decide)

/-- Two calls that both look the username up before one of them puts it. -/
theorem registration_unique_fails :
    let c := (warbleService protobufPlatform).run (System.initial ⟨∅, [], false, none⟩)
      [.invoke (.registerUser ⟨str "a"⟩), .invoke (.registerUser ⟨str "a"⟩), .advance 0,
        .advance 1, .advance 0, .advance 1]
    c.tasks.countP (hasRegistered (str "a")) = 2 ∧
      c.world.state.storage.get (nameKey .user (str "a")) = [str "a", str "a"] := by
  decide

end FuncWarble.Proofs
