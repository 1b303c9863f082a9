import Mathlib
import FuncWarble.Model.WarbleMessage
import FuncWarble.Proofs.ConcurrentService

/-! # Threads have no cycles

Warbles under one id may collide, warbles may name any parent, and a `Read` sees a different store
in each of its turns. The first put under the id of a warble still comes after the first put under
its parent, in every interleaving, so neither the store nor the walk of a `Read` goes round in a
circle of warbles.
-/

namespace FuncWarble.Proofs

open Text Model Machine

variable {platform : Platform} {w : ServiceWorld}

/-- A `WarbleMethod` has put a value under the key. -/
def WrittenByWarble (w : ServiceWorld) (key : Bytes) : Prop :=
  ∃ request tv val, (WarbleCall.warble request tv, ClientOp.put key val) ∈ w.trace

/-- `WarbleMethod` wrote the key, which holds exactly one value, and the warble stored under it is
a reply to `parent`. -/
def ThreadLink (w : ServiceWorld) (key parent : Bytes) : Prop :=
  ∃ request tv val, (WarbleCall.warble request tv, ClientOp.put key val) ∈ w.trace ∧
    (w.state.storage.get key).length = 1 ∧ request.parentId = parent

/-- The warbles in the reply of a `Read` that has returned or is at the head of its loop. -/
def warblesOf : WarbleService.ReadLoop ⊕ WarbleResult → List Warble
  | .inl head => head.reply.warbles
  | .inr (_, .read reply) => reply.warbles
  | .inr _ => []

/-- The warbles that a task has appended to its reply; a task that waits for the answer to a `Get`
shows them when it has got it. -/
def appendedBy (server : KeyValueStoreImpl) (task : ServiceTask) : List Warble :=
  warblesOf (task.prog.run KeyValueClient.handler server).1

/-- The keys that the warbles of a reply were fetched from. -/
def fetchedKeys (start : Bytes) (warbles : List Warble) : List Bytes :=
  (lookedUp start warbles).dropLast

theorem Kept.written_entry (kept : Kept platform w) {request : WarbleRequest} {tv : Timestamp}
    {key val : Bytes} (member : (WarbleCall.warble request tv, ClientOp.put key val) ∈ w.trace) :
    .warble (WarbleService.newWarble platform request tv) ∈ entriesIn platform w ∧
      (WarbleService.newWarble platform request tv).id = key := by
  obtain ⟨entry, isEntry, rfl⟩ := kept.written _ _ _ member
  obtain rfl := Option.some.inj isEntry
  exact ⟨List.mem_filterMap.mpr ⟨_, member, rfl⟩, rfl⟩

theorem Kept.not_isNameKey (kept : Kept platform w) {key : Bytes}
    (written : WrittenByWarble w key) : ¬ IsNameKey key := by
  obtain ⟨request, tv, val, member⟩ := written
  obtain ⟨inEntries, rfl⟩ := kept.written_entry member
  exact kept.held.typed.warble_id_not_isNameKey inEntries

theorem Kept.repliesTo_of_threadLink (kept : Kept platform w) {key parent : Bytes}
    (link : ThreadLink w key parent) : RepliesTo (entriesIn platform w) key parent := by
  obtain ⟨request, tv, val, member, single, rfl⟩ := link
  obtain ⟨serialized, single⟩ := List.length_eq_one_iff.mp single
  rw [kept.held.store] at single
  obtain ⟨inEntries, isKey⟩ := kept.written_entry member
  obtain ⟨before, entry, after, split, _, fresh, only⟩ := exists_entry_of_single single
  obtain rfl := (only _ inEntries).mp isKey
  exact ⟨_, ⟨before, after, split, isKey, fresh⟩, rfl⟩

theorem Returned.walked {request : ReadRequest}
    {result : WarbleService.ReadLoop ⊕ WarbleResult}
    (returned : Returned platform (.read request) result w) (undoes : platform.Undoes) :
    Walked (entriesIn platform w) (lookedUp request.warbleId (warblesOf result)) := by
  rcases result with head | ⟨status, answer⟩
  · exact (returned undoes).walked
  · cases answer with
    | read reply => exact returned undoes
    | _ => exact List.isChain_singleton _

/-- A walk that stays on keys of warbles comes to no key twice. -/
theorem Walked.nodup {entries : List Entry} (typed : Typed platform entries) {keys : List Bytes}
    (walked : Walked entries keys) (warbles : ∀ key ∈ keys, ¬ IsNameKey key) : keys.Nodup := by
  have replies : keys.IsChain (RepliesTo entries) := walked.imp_of_mem_imp
    fun key parent member _ step => step.resolve_left (warbles key member)
  exact Walk.nodup_of_isChain typed.acyclic replies

/-- Threads are acyclic for any hash. After any interleaving of the calls' `Get`s and `Put`s there
is no cycle of keys of warbles, each with a single value, along the parents of the warbles stored
there; and where parsing undoes serializing, no stretch of a `Read` on keys of warbles fetches from
a key twice. -/
theorem threads_acyclic {server : KeyValueStoreImpl} (empty : server.storage = ∅)
    (events : List (Event WarbleCall)) :
    let c := (warbleService platform).run (System.initial server) events
    (∀ key, ¬ Relation.TransGen (ThreadLink c.world) key key) ∧
    (platform.Undoes → ∀ task ∈ c.tasks, ∀ request, task.call = .read request →
      ∀ stretch, stretch <:+: fetchedKeys request.warbleId (appendedBy c.world.state task) →
        (∀ key ∈ stretch, WrittenByWarble c.world key) → stretch.Nodup) := by
  intro c
  obtain ⟨kept, tasks⟩ := @warbleService_guaranteed platform server empty events
  constructor
  · intro key cycle
    have replies : Relation.TransGen (RepliesTo (entriesIn platform c.world)) key key :=
      Relation.TransGen.mono (fun _ _ => kept.repliesTo_of_threadLink) key key cycle
    exact kept.held.typed.acyclic key replies
  · intro undoes task member request isRead stretch inside written
    obtain ⟨w, later, kept', _, returned⟩ := (tasks task member).alone kept
    rw [isRead] at returned
    have within : stretch <:+: lookedUp request.warbleId (appendedBy c.world.state task) :=
      inside.trans (List.dropLast_prefix _).isInfix
    obtain ⟨front, back, split⟩ := within
    have walked : Walked (entriesIn platform w)
        (lookedUp request.warbleId (appendedBy c.world.state task)) := returned.walked undoes
    rw [← split] at walked
    have along : Walked (entriesIn platform w) stretch := walked.left_of_append.right_of_append
    exact along.nodup kept'.held.typed fun key member => kept.not_isNameKey (written key member)

/-- "a" joins and posts a warble, which is read while "a" posts it once more. -/
def postAndRead : List (Event WarbleCall) :=
  let post : WarbleRequest := ⟨str "a", str "hi", []⟩
  let posted := WarbleService.newWarble protobufPlatform post ⟨0, 0⟩
  [.invoke (.registerUser ⟨str "a"⟩), .advance 0, .advance 0,
    .invoke (.warble post ⟨0, 0⟩), .advance 1, .advance 1,
    .invoke (.read ⟨posted.id, str "a"⟩), .advance 2, .advance 2,
    .invoke (.warble post ⟨0, 0⟩), .advance 3, .advance 3, .advance 2, .advance 2]

theorem threads_acyclic_example :
    let c := (warbleService protobufPlatform).run (System.initial ⟨∅, [], false, none⟩) postAndRead
    (∀ key, ¬ Relation.TransGen (ThreadLink c.world) key key) ∧
    ∀ task ∈ c.tasks, ∀ request, task.call = .read request →
      ∀ stretch, stretch <:+: fetchedKeys request.warbleId (appendedBy c.world.state task) →
        (∀ key ∈ stretch, WrittenByWarble c.world key) → stretch.Nodup := by
  obtain ⟨acyclic, walks⟩ :=
    @threads_acyclic protobufPlatform ⟨∅, [], false, none⟩ rfl postAndRead
  exact ⟨acyclic, walks protobufPlatform_undoes⟩

end FuncWarble.Proofs
