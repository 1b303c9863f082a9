import Mathlib
import FuncWarble.Model.GetCall
import FuncWarble.Proofs.DurableStore

/-! # A Get of several keys

Every state of a streaming call determines what the call will return: what the reader has, what is
on its way to it, and what the handler will still write for the requests that are on their way and
the keys that are still to be sent. No step of any party changes that, every step uses up some of
the work of the call, and only a call that has returned can take no step. So the call returns,
however the parties are scheduled, and it returns what the handler returns when it runs alone.
-/

namespace FuncWarble.Proofs

open Text Model

theorem client_get_fst (server : KeyValueStoreImpl) (keys : List Bytes) :
    (KeyValueClient.get server keys).1 =
      let handled := (server.get (keys.map GetRequest.mk)).1
      if handled.1.isOk then some (handled.2.map GetReply.value) else none := rfl

theorem client_get_nil (server : KeyValueStoreImpl) :
    (KeyValueClient.get server []).1 = some [] := rfl

/-- The first key decides, or adds its values in front. -/
theorem client_get_cons (server : KeyValueStoreImpl) (key : Bytes) (keys : List Bytes) :
    (KeyValueClient.get server (key :: keys)).1 =
      if server.storage.get key = [] then none
      else (KeyValueClient.get server keys).1.map (server.storage.get key ++ ·) := by
  rw [client_get_fst, client_get_fst, List.map_cons, KeyValueStoreImpl.get_cons]
  split
  · rfl
  · simp only [List.map_append, List.map_map]
    split
    · simp [Function.comp_def]
    · rfl

/-- A `Get` of some keys yields all their values, unless one of them has none. -/
theorem client_get_eq (server : KeyValueStoreImpl) (keys : List Bytes) :
    (KeyValueClient.get server keys).1 =
      if ∃ key ∈ keys, server.storage.get key = [] then none
      else some (keys.flatMap server.storage.get) := by
  induction keys with
  | nil => simp [client_get_nil]
  | cons key keys ih =>
    rw [client_get_cons, ih]
    simp only [List.exists_mem_cons_iff, List.flatMap_cons]
    by_cases absent : server.storage.get key = []
    · rw [if_pos absent, if_pos (.inl absent)]
    · rw [if_neg absent]
      simp only [absent, false_or]
      split <;> rfl

namespace GetCall

open Model.GetCall

/-- The keys that the handler has not read. -/
def pending (call : GetCall) : List Bytes :=
  call.requests.map GetRequest.key ++ call.writer.getD []

/-- The values that the reader has or that are on their way to it. -/
def collected (call : GetCall) : List Bytes := call.result ++ call.replies.map GetReply.value

/-- What is returned after `values` when the handler stands there, with some keys to come. -/
def outcomeFrom (server : KeyValueStoreImpl) (values keys : List Bytes) :
    Handling → Option (List Bytes)
  | .reading => (KeyValueClient.get server keys).1.map (values ++ ·)
  | .writing rest => (KeyValueClient.get server keys).1.map (values ++ rest ++ ·)
  | .finished status => if status.isOk then some values else none

/-- What the call will return. -/
def outcome (server : KeyValueStoreImpl) (call : GetCall) : Option (List Bytes) :=
  outcomeFrom server (collected call) (pending call) call.handling

variable {server : KeyValueStoreImpl} {call next : GetCall}

/-- Reading a request does not change what is returned. -/
theorem outcomeFrom_lookUp (values : List Bytes) (request : GetRequest) (keys : List Bytes) :
    outcomeFrom server values keys (lookUp server.storage request) =
      outcomeFrom server values (request.key :: keys) .reading := by
  rw [outcomeFrom, client_get_cons, lookUp]
  simp only [List.length_eq_zero_iff]
  split
  · rfl
  · rw [outcomeFrom, Option.map_map]
    simp only [Function.comp_def, List.append_assoc]

/-- No step changes what the call will return. -/
theorem outcome_step (stepped : Step server.storage call next) :
    outcome server next = outcome server call := by
  unfold outcome
  cases stepped with
  | write unsent => simp [pending, unsent, collected]
  | writesDone sent => simp [pending, sent, collected]
  | read reading sent =>
    rw [reading, outcomeFrom_lookUp]
    simp [pending, sent, collected]
  | readEnd reading drained closed =>
    simp [outcomeFrom, reading, pending, drained, closed, client_get_nil, collected]
  | reply writing => simp [outcomeFrom, writing, collected, pending]
  | replied written => simp [outcomeFrom, written, collected, pending]
  | receive sent => simp [collected, pending, sent]
  | finish ended drained joined running => rfl

/-- All along, the call is going to return what the handler returns when it runs alone. -/
theorem outcome_of_reaches {keys : List Bytes} (reached : Reaches server.storage keys call) :
    outcome server call = (KeyValueClient.get server keys).1 := by
  induction reached with
  | refl => simp [outcome, outcomeFrom, start, pending, collected]
  | tail _ stepped ih => rw [outcome_step stepped, ih]

theorem outcome_of_returned {keys : List Bytes} (reached : Reaches server.storage keys call)
    {answer : Option (List Bytes)} (returned : call.returned = some answer) :
    outcome server call = answer := by
  induction reached with
  | refl => simp [start] at returned
  | tail _ stepped ih =>
    rw [outcome_step stepped]
    cases stepped with
    | finish ended drained joined running =>
      obtain rfl := Option.some.inj returned
      simp [outcome, outcomeFrom, ended, collected, drained]
    | _ => exact ih returned

/-- A call that has not returned is not stuck. -/
theorem progress (storage : Storage) {call : GetCall} (running : call.returned = none) :
    ∃ next, Step storage call next := by
  cases writer : call.writer with
  | some keys =>
    cases keys with
    | nil => exact ⟨_, .writesDone writer⟩
    | cons key keys => exact ⟨_, .write writer⟩
  | none =>
    cases handling : call.handling with
    | reading =>
      cases requests : call.requests with
      | nil => exact ⟨_, .readEnd handling requests writer⟩
      | cons request requests => exact ⟨_, .read handling requests⟩
    | writing values =>
      cases values with
      | nil => exact ⟨_, .replied handling⟩
      | cons value values => exact ⟨_, .reply handling⟩
    | finished status =>
      cases replies : call.replies with
      | nil => exact ⟨_, .finish handling replies writer running⟩
      | cons reply replies => exact ⟨_, .receive replies⟩

/-- The steps that a key can still cause once its request has been sent. -/
def keyWork (storage : Storage) (key : Bytes) : ℕ := 2 * (storage.get key).length + 2

def writerWork (storage : Storage) : Option (List Bytes) → ℕ
  | none => 0
  | some keys => (keys.map fun key => keyWork storage key + 1).sum + 1

def handlingWork : Handling → ℕ
  | .reading => 1
  | .writing values => 2 * values.length + 2
  | .finished _ => 0

/-- A bound on the steps that a call can still take. -/
def work (storage : Storage) (call : GetCall) : ℕ :=
  writerWork storage call.writer +
    (call.requests.map fun request => keyWork storage request.key).sum +
    handlingWork call.handling + call.replies.length + if call.returned = none then 1 else 0

theorem handlingWork_lookUp_le (storage : Storage) (request : GetRequest) :
    handlingWork (lookUp storage request) ≤ keyWork storage request.key := by
  simp only [lookUp]
  split
  · exact Nat.zero_le _
  · exact le_rfl

/-- Every step uses up work. -/
theorem work_step {storage : Storage} {call next : GetCall} (stepped : Step storage call next) :
    work storage next < work storage call := by
  cases stepped with
  | write unsent =>
    simp only [work, unsent, writerWork, List.map_cons, List.sum_cons, List.map_append,
      List.map_nil, List.sum_append, List.sum_nil]
    omega
  | writesDone sent =>
    simp only [work, sent, writerWork, List.map_nil, List.sum_nil]
    omega
  | @read request requests reading sent =>
    have bound := handlingWork_lookUp_le storage request
    have turn : handlingWork .reading = 1 := rfl
    simp only [work, reading, sent, turn, List.map_cons, List.sum_cons]
    omega
  | readEnd reading drained closed =>
    simp only [work, reading, handlingWork]
    omega
  | reply writing =>
    simp only [work, writing, handlingWork, List.length_append, List.length_cons, List.length_nil]
    omega
  | replied written =>
    simp only [work, written, handlingWork, List.length_nil]
    omega
  | receive sent =>
    simp only [work, sent, List.length_cons]
    omega
  | finish ended drained joined running =>
    simp only [work, running, reduceCtorEq, ↓reduceIte]
    omega

/-- No schedule goes on for ever. -/
theorem no_infinite_run (storage : Storage) (run : ℕ → GetCall) :
    ¬ ∀ n, Step storage (run n) (run (n + 1)) := by
  intro steps
  have spent : ∀ n, work storage (run n) + n ≤ work storage (run 0) := by
    intro n
    induction n with
    | zero => exact le_rfl
    | succ n ih =>
      have less := work_step (steps n)
      omega
  have last := spent (work storage (run 0) + 1)
  omega

end GetCall

/-- What a call returns, read off the storage. -/
theorem returned_spec {server : KeyValueStoreImpl} {keys : List Bytes} {call : GetCall}
    (reached : Model.GetCall.Reaches server.storage keys call) {answer : Option (List Bytes)}
    (returned : call.returned = some answer) :
    answer = if ∃ key ∈ keys, server.storage.get key = [] then none
      else some (keys.flatMap server.storage.get) := by
  rw [← client_get_eq, ← GetCall.outcome_of_reaches reached,
    GetCall.outcome_of_returned reached returned]

/-- The server after it has handled a put or remove. -/
def LogRecord.handle (server : KeyValueStoreImpl) : LogRecord → KeyValueStoreImpl
  | put key value => (server.put ⟨key, value⟩).2
  | remove key => (server.remove ⟨key⟩).2

/-- Handling the requests applies them to the storage, whether or not they are logged. -/
theorem handle_storage (server : KeyValueStoreImpl) (past : List LogRecord) :
    (past.foldl LogRecord.handle server).storage = applyAll server.storage past := by
  induction past generalizing server with
  | nil => rfl
  | cons record past ih =>
    rw [List.foldl_cons, ih]
    cases record with
    | put key value =>
      rw [LogRecord.handle, KeyValueStoreImpl.put_eq]
      rfl
    | remove key =>
      rw [LogRecord.handle, KeyValueStoreImpl.remove_eq]
      rfl

/-- A `Get` of any list of keys, on a server that has handled some puts and removes, in either
mode. Whatever the schedule, the call cannot get stuck and cannot go on for ever; when it returns,
it returns what the handler yields when it runs alone, which is null if and only if a key is absent,
and otherwise the values of all the keys in order, which are not empty unless the list is. -/
theorem multi_key_get (persistentFile : Bytes) (persistentMode : Bool) (disk : Option Bytes)
    (past : List LogRecord) (keys : List Bytes) :
    let server := past.foldl LogRecord.handle ⟨∅, persistentFile, persistentMode, disk⟩
    (∀ call, Model.GetCall.Reaches server.storage keys call →
      (call.returned = none → ∃ next, Model.GetCall.Step server.storage call next) ∧
      ∀ answer, call.returned = some answer →
        answer = (KeyValueClient.get server keys).1 ∧
        (answer = none ↔ ∃ key ∈ keys, server.storage.find key = none) ∧
        (∀ values, answer = some values →
          values = keys.flatMap fun key => valuesSince key past) ∧
        (keys ≠ [] → answer ≠ some [])) ∧
    ∀ run : ℕ → GetCall, run 0 = Model.GetCall.start keys →
      ¬ ∀ n, Model.GetCall.Step server.storage (run n) (run (n + 1)) := by
  intro server
  refine ⟨fun call reached => ⟨GetCall.progress _, fun answer returned => ?_⟩,
    fun run _ => GetCall.no_infinite_run _ run⟩
  have spec := returned_spec reached returned
  have alone : answer = (KeyValueClient.get server keys).1 := spec.trans (client_get_eq _ _).symm
  simp only [Storage.get_eq_nil_iff] at spec
  refine ⟨alone, ?_, ?_, ?_⟩
  · rw [spec]
    split
    · next missing => exact iff_of_true rfl missing
    · next present => exact iff_of_false (Option.some_ne_none _) present
  · rintro values rfl
    split at spec
    · contradiction
    · rw [Option.some.inj spec]
      refine List.flatMap_congr fun key _ => ?_
      rw [handle_storage, applyAll_get]
  · rintro nonempty rfl
    split at spec
    · contradiction
    · next present =>
      obtain ⟨key, others, rfl⟩ := List.exists_cons_of_ne_nil nonempty
      have empty := List.flatMap_eq_nil_iff.mp (Option.some.inj spec).symm key List.mem_cons_self
      exact present ⟨key, List.mem_cons_self, (Storage.get_eq_nil_iff _ key).mp empty⟩

end FuncWarble.Proofs
