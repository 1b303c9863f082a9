import Mathlib
import FuncWarble.Model.WarbleMessage
import FuncWarble.Proofs.ConcurrentService

/-! # Follow symmetry

`Follow` puts a name into two lists, one after the other, and no other operation touches the two
counts that these puts move. A call owes the second put exactly when it has just done the first,
so in every interleaving the two lists differ by the calls that are between their puts.
-/

namespace FuncWarble.Proofs

open Text Model Machine

variable {platform : Platform} {u v : Bytes} {call : WarbleCall}

/-- The first `Put` of a `Follow` of `v` by `u`. -/
def firstPut (u v : Bytes) : ClientOp := .put (nameKey .following u) v

/-- The second `Put` of a `Follow` of `v` by `u`. -/
def secondPut (u v : Bytes) : ClientOp := .put (nameKey .followedBy v) u

/-- A `Follow` of `v` by `u` that has done its first `Put` but not its second. -/
def betweenPuts (u v : Bytes) (task : ServiceTask) : Bool :=
  task.call = .follow ⟨u, v⟩ ∧ task.prog.nextOp = some (secondPut u v)

/-- The number of times that `v` is in the list of those whom `u` follows. -/
def followingCount (server : KeyValueStoreImpl) (u v : Bytes) : ℕ :=
  (server.storage.get (nameKey .following u)).count v

/-- The number of times that `u` is in the list of the followers of `v`. -/
def followerCount (server : KeyValueStoreImpl) (u v : Bytes) : ℕ :=
  (server.storage.get (nameKey .followedBy v)).count u

private theorem count_pushBack (storage : Storage) (key other name val : Bytes) :
    ((storage.pushBack other val).get key).count name =
      (storage.get key).count name + if other = key ∧ val = name then 1 else 0 := by
  rcases eq_or_ne key other with rfl | different
  · rw [Storage.get_pushBack_self, List.count_append, List.count_singleton]
    simp
  · rw [Storage.get_pushBack_of_ne _ _ different, if_neg fun same => different same.1.symm]
    rfl

/-- The first put, and nothing else, adds to the count on the side of the following user. -/
theorem followingCount_handler (op : ClientOp) (server : KeyValueStoreImpl) :
    followingCount (KeyValueClient.handler op server).2 u v =
      followingCount server u v + if op = firstPut u v then 1 else 0 := by
  cases op with
  | get keys => rw [KeyValueClient.handler_get_snd, if_neg (by nofun), Nat.add_zero]
  | put key val =>
    simp only [followingCount, KeyValueClient.handler_put_storage, count_pushBack, firstPut,
      ClientOp.put.injEq]

/-- The second put, and nothing else, adds to the count on the side of the followed user. -/
theorem followerCount_handler (op : ClientOp) (server : KeyValueStoreImpl) :
    followerCount (KeyValueClient.handler op server).2 u v =
      followerCount server u v + if op = secondPut u v then 1 else 0 := by
  cases op with
  | get keys => rw [KeyValueClient.handler_get_snd, if_neg (by nofun), Nat.add_zero]
  | put key val =>
    simp only [followerCount, KeyValueClient.handler_put_storage, count_pushBack, secondPut,
      ClientOp.put.injEq]

/-- What is left of a call does the second put exactly after the first one. -/
def Paired (u v : Bytes) (call : WarbleCall) : ServiceProgram → Prop
  | .ret _ => True
  | .call op next => (op = secondPut u v → call = .follow ⟨u, v⟩) ∧ ∀ answer,
      (betweenPuts u v ⟨call, next answer⟩ ↔ op = firstPut u v) ∧ Paired u v call (next answer)

/-- A task that is not between the puts and does the second put exactly after the first one. -/
def Starting (u v : Bytes) (call : WarbleCall) (prog : ServiceProgram) : Prop :=
  ¬ betweenPuts u v ⟨call, prog⟩ ∧ Paired u v call prog

private theorem firstPut_ne_secondPut : firstPut u v ≠ secondPut u v := by
  intro same
  exact nameKey_ne (by decide) (ClientOp.put.inj same).1

/-- Only a `Follow` of `v` by `u` does one of the two puts. -/
theorem OwnOp.silent {op : ClientOp} (own : OwnOp platform call op)
    (other : call ≠ .follow ⟨u, v⟩) : op ≠ firstPut u v ∧ op ≠ secondPut u v := by
  cases own with
  | get key => exact ⟨nofun, nofun⟩
  | put entry own =>
    cases call with
    | registerUser request =>
      obtain rfl := Option.some.inj own
      constructor <;> exact fun same => nameKey_ne (by decide) (ClientOp.put.inj same).1
    | warble request tv =>
      obtain rfl := Option.some.inj own
      constructor <;> exact fun same => decimal_ne_nameKey _ _ _ (ClientOp.put.inj same).1
    | follow request =>
      rw [entryOf] at own
      split_ifs at own <;> obtain rfl := Option.some.inj own
      · constructor
        · intro same
          obtain ⟨sameKey, sameVal⟩ := ClientOp.put.inj same
          exact other (by rw [← (nameKey_inj.mp sameKey).2, ← sameVal]; rfl)
        · exact fun same => nameKey_ne (by decide) (ClientOp.put.inj same).1
      · constructor
        · exact fun same => nameKey_ne (by decide) (ClientOp.put.inj same).1
        · intro same
          obtain ⟨sameKey, sameVal⟩ := ClientOp.put.inj same
          exact other (by rw [← (nameKey_inj.mp sameKey).2, ← sameVal]; rfl)
    | read request => contradiction
    | profile request => contradiction

private theorem starting_of_silent {prog : ServiceProgram}
    (uses : prog.Uses fun op => op ≠ firstPut u v ∧ op ≠ secondPut u v) :
    Starting u v call prog := by
  induction prog with
  | ret result => exact ⟨by simp [betweenPuts, Program.nextOp], trivial⟩
  | call op next ih =>
    obtain ⟨⟨notFirst, notSecond⟩, rest⟩ := uses
    constructor
    · simp [betweenPuts, Program.nextOp, notSecond]
    · refine ⟨fun same => absurd same notSecond, fun answer => ?_⟩
      obtain ⟨outside, paired⟩ := ih answer (rest answer)
      exact ⟨iff_of_false outside notFirst, paired⟩

private theorem follow_starting (platform : Platform) :
    Starting u v (.follow ⟨u, v⟩) ((WarbleCall.follow ⟨u, v⟩).program platform) := by
  have different := @firstPut_ne_secondPut u v
  have returned : ∀ result, Starting u v (.follow ⟨u, v⟩) (.ret result) :=
    fun result => starting_of_silent trivial
  have getting : ∀ key next, (∀ values, Starting u v (.follow ⟨u, v⟩) (next values)) →
      Starting u v (.follow ⟨u, v⟩) (.call (.get [key]) next) := by
    intro key next rest
    refine ⟨by simp [betweenPuts, Program.nextOp, secondPut], nofun, fun values => ?_⟩
    exact ⟨iff_of_false (rest values).1 nofun, (rest values).2⟩
  refine getting _ _ fun user => getting _ _ fun toFollow => ?_
  change Starting u v _ (Program.bind (if user = none ∨ toFollow = none then _ else _) _)
  split_ifs
  · exact returned _
  · exact returned _
  · refine ⟨?_, fun _ => rfl, fun _ => ⟨?_, fun _ => rfl, fun _ => ?_⟩⟩
    · rintro between
      exact different (Option.some.inj (of_decide_eq_true between).2)
    · exact iff_of_true (decide_eq_true ⟨rfl, rfl⟩) rfl
    · exact ⟨iff_of_false (returned _).1 different.symm, trivial⟩

theorem program_starting (platform : Platform) (call : WarbleCall) :
    Starting u v call (call.program platform) := by
  rcases eq_or_ne call (.follow ⟨u, v⟩) with rfl | other
  · exact follow_starting platform
  · exact starting_of_silent ((program_uses platform call).mono fun _ own => own.silent other)

/-- The loop of `Read` does neither of the puts, whichever call it were run by. -/
theorem body_starting (platform : Platform) (head : WarbleService.ReadLoop) :
    Starting u v call (WarbleCall.body platform head) := by
  have reading : (WarbleCall.read ⟨[], []⟩) ≠ .follow ⟨u, v⟩ := nofun
  exact starting_of_silent ((body_uses platform _ head).mono fun _ own => own.silent reading)

/-- The two lists differ by the calls that are between their puts. -/
structure Symmetric (u v : Bytes) (c : ServiceConfig) : Prop where
  paired : ∀ task ∈ c.tasks, Paired u v task.call task.prog
  counted : followingCount c.world.state u v =
    followerCount c.world.state u v + c.tasks.countP (betweenPuts u v)

/-- Whatever a task resumes or goes on with does the second put exactly after the first one. -/
theorem Symmetric.paired_step {c : ServiceConfig} (held : Symmetric u v c)
    (event : Event WarbleCall) :
    ∀ task ∈ ((warbleService platform).step c event).tasks, Paired u v task.call task.prog := by
  apply System.step_shape (fun call => (program_starting platform call).2) _ _ held.paired event
  · exact fun _ _ _ answer paired => (paired.2 answer).2
  · intro call result prog _ resumed
    rcases result with head | result
    · obtain rfl := Option.some.inj resumed
      exact (body_starting platform head).2
    · contradiction

/-- Every event keeps the balance. -/
theorem step_symmetric (c : ServiceConfig) (event : Event WarbleCall)
    (held : Symmetric u v c) : Symmetric u v ((warbleService platform).step c event) := by
  have paired : ∀ task ∈ ((warbleService platform).step c event).tasks,
      Paired u v task.call task.prog := held.paired_step event
  have stepped := (warbleService platform).step_cases c event
  generalize (warbleService platform).step c event = c' at paired stepped ⊢
  have counted := held.counted
  cases stepped with
  | stay => exact held
  | invoke call =>
    refine ⟨paired, ?_⟩
    have outside := (@program_starting u v platform call).1
    have single : [(⟨call, (warbleService platform).start call⟩ : ServiceTask)].countP
        (betweenPuts u v) = 0 := List.countP_eq_zero.mpr fun task member =>
      List.mem_singleton.mp member ▸ outside
    rw [List.countP_append, single]
    exact counted
  | perform index call op next current =>
    refine ⟨paired, ?_⟩
    obtain ⟨owner, rest⟩ := held.paired _ (List.mem_of_getElem? current)
    have moved := System.countP_set_add (betweenPuts u v) current
      ⟨call, next ((warbleService platform).answer op c.world)⟩
    have before : betweenPuts u v ⟨call, .call op next⟩ ↔ op = secondPut u v := by
      simp only [betweenPuts, Program.nextOp, Option.some.injEq, decide_eq_true_eq]
      exact and_iff_right_of_imp owner
    have following := @followingCount_handler u v op c.world.state
    have follower := @followerCount_handler u v op c.world.state
    simp only [before, (rest _).1] at moved
    simp only [System.perform]
    change followingCount (KeyValueClient.handler op c.world.state).2 u v =
      followerCount (KeyValueClient.handler op c.world.state).2 u v + _
    omega
  | resume index call result prog current resumed =>
    refine ⟨paired, ?_⟩
    rcases result with head | result
    · obtain rfl := Option.some.inj resumed
      have moved := System.countP_set_add (betweenPuts u v) current
        ⟨call, WarbleCall.body platform head⟩
      have outside := (@body_starting u v call platform head).1
      have returned : ¬ betweenPuts u v ⟨call, .ret (.inl head)⟩ := by
        simp [betweenPuts, Program.nextOp]
      rw [if_neg outside, if_neg returned] at moved
      simp only
      omega
    · contradiction

/-- Follow symmetry. In every interleaving, `v` has been put into the list of `u` as often as `u`
into the list of `v`, and once more for every `Follow` that is between its two puts. -/
theorem follow_symmetry {server : KeyValueStoreImpl} (empty : server.storage = ∅)
    (events : List (Event WarbleCall)) (u v : Bytes) :
    let c := (warbleService platform).run (System.initial server) events
    followingCount c.world.state u v =
        followerCount c.world.state u v + c.tasks.countP (betweenPuts u v) ∧
      ((∀ task ∈ c.tasks, ¬ betweenPuts u v task) →
        followingCount c.world.state u v = followerCount c.world.state u v) := by
  intro c
  have start : Symmetric u v (System.initial server) := by
    refine ⟨(fun _ member => nomatch member), ?_⟩
    simp [System.initial, followingCount, followerCount, empty]
  have counted : followingCount c.world.state u v =
      followerCount c.world.state u v + c.tasks.countP (betweenPuts u v) :=
    (System.run_invariant step_symmetric start events).counted
  refine ⟨counted, fun nobody => ?_⟩
  rw [counted, List.countP_eq_zero.mpr nobody, Nat.add_zero]

/-- A run that stops between the two puts of a `Follow`. -/
theorem follow_symmetry_example :
    let events : List (Event WarbleCall) := [.invoke (.registerUser ⟨str "a"⟩), .advance 0,
      .advance 0, .invoke (.registerUser ⟨str "b"⟩), .advance 1, .advance 1,
      .invoke (.follow ⟨str "a", str "b"⟩), .advance 2, .advance 2, .advance 2]
    let c := (warbleService protobufPlatform).run (System.initial ⟨∅, [], false, none⟩) events
    followingCount c.world.state (str "a") (str "b") =
        followerCount c.world.state (str "a") (str "b") +
          c.tasks.countP (betweenPuts (str "a") (str "b")) ∧
      ((∀ task ∈ c.tasks, ¬ betweenPuts (str "a") (str "b") task) →
        followingCount c.world.state (str "a") (str "b") =
          followerCount c.world.state (str "a") (str "b")) :=
  follow_symmetry rfl _ (str "a") (str "b")

end FuncWarble.Proofs
