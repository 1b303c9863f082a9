import Mathlib
import FuncWarble.Model.KeyValueService

/-! # The key value client

`KeyValueClient` turns each of its methods into one RPC and reports what the RPC returned. The
services above it see two operations: a `Get` of some keys, which yields all their values or
nothing, and a `Put`. An RPC that reaches the server is one step of the server.
-/

namespace FuncWarble.Model

open Text Machine

namespace KeyValueClient

/-- `KeyValueClient::Put`. -/
def put (server : KeyValueStoreImpl) (key val : Bytes) : Bool × KeyValueStoreImpl :=
  let (status, server) := server.put ⟨key, val⟩
  (status.isOk, server)

/-- `KeyValueClient::Get`: the null pointer is `none`. -/
def get (server : KeyValueStoreImpl) (keys : List Bytes) :
    Option (List Bytes) × KeyValueStoreImpl :=
  let ((status, replies), server) := server.get (keys.map GetRequest.mk)
  (if status.isOk then some (replies.map GetReply.value) else none, server)

/-- `KeyValueClient::Remove`. -/
def remove (server : KeyValueStoreImpl) (key : Bytes) : Bool × KeyValueStoreImpl :=
  let (status, server) := server.remove ⟨key⟩
  (status.isOk, server)

theorem put_storage (server : KeyValueStoreImpl) (key val : Bytes) :
    (put server key val).2.storage = server.storage.pushBack key val := by
  rw [put, KeyValueStoreImpl.put_eq]

/-- A `Get` of one key yields its values, and nothing for an absent key. -/
theorem get_single (server : KeyValueStoreImpl) (key : Bytes) : get server [key] =
    (if server.storage.get key = [] then none else some (server.storage.get key), server) := by
  rw [get, List.map_cons, List.map_nil, KeyValueStoreImpl.get_cons]
  rcases eq_or_ne (server.storage.get key) [] with absent | present
  · rw [if_pos absent, if_pos absent]
    rfl
  · rw [if_neg present, if_neg present]
    simp [KeyValueStoreImpl.get, KeyValueStoreImpl.getProgram, Function.comp_def]

end KeyValueClient

/-- The client operations that the services perform. -/
inductive ClientOp where
  | get (keys : List Bytes)
  | put (key val : Bytes)
deriving DecidableEq

@[reducible] def ClientOp.Answer : ClientOp → Type
  | get _ => Option (List Bytes)
  | put _ _ => Bool

abbrev ClientProgram := Program ClientOp.Answer

abbrev kvGet (keys : List Bytes) : ClientProgram (Option (List Bytes)) :=
  Program.perform (ClientOp.get keys)

abbrev kvPut (key val : Bytes) : ClientProgram Bool := Program.perform (ClientOp.put key val)

/-- Each operation on the key value server. -/
def KeyValueClient.handler : Handler ClientOp.Answer KeyValueStoreImpl
  | .get keys, server => KeyValueClient.get server keys
  | .put key val, server => KeyValueClient.put server key val

/-- What the client reports when the RPC of an operation fails. -/
def ClientOp.failed : (op : ClientOp) → op.Answer
  | get _ => none
  | put _ _ => false

/-- Each operation on a server that some RPCs do not reach. The state counts the RPCs; the one with
number `n` fails, and changes nothing, when `fails n`. -/
def KeyValueClient.faultyHandler (fails : ℕ → Bool) :
    Handler ClientOp.Answer (ℕ × KeyValueStoreImpl)
  | op, (count, server) =>
    if fails count then (op.failed, count + 1, server)
    else ((handler op server).1, count + 1, (handler op server).2)

namespace KeyValueClient

theorem handler_get (key : Bytes) (server : KeyValueStoreImpl) :
    handler (.get [key]) server =
      (if server.storage.get key = [] then none else some (server.storage.get key), server) :=
  get_single server key

/-- A `Get` changes nothing. -/
theorem handler_get_snd (keys : List Bytes) (server : KeyValueStoreImpl) :
    (handler (.get keys) server).2 = server := KeyValueStoreImpl.get_snd server _

@[simp] theorem handler_put_storage (key val : Bytes) (server : KeyValueStoreImpl) :
    (handler (.put key val) server).2.storage = server.storage.pushBack key val :=
  put_storage server key val

end KeyValueClient

end FuncWarble.Model
