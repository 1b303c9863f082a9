import Mathlib
import FuncWarble.Machine.Interleaving
import FuncWarble.Text.Stream
import FuncWarble.Model.Messages
import FuncWarble.Model.Storage

/-! # The key value server and its log

`KeyValueStoreImpl` keeps a `Storage` and, in persistent mode, appends each put and remove to a
log file that the constructor replays. The handlers are programs over the server's atomic
actions: the storage methods, which hold the storage mutex, and the append of a whole record.
Run alone they are the sequential server; interleaved they are the concurrent one.

`ReadNCharacter` reads into a local `char` without checking the stream. The value that variable
has before the first successful read is a parameter: at most one call of a load can observe it,
because the stream is spent from then on.
-/

namespace FuncWarble.Model

open Text Machine

/-- The loop of `ReadNCharacter`: `numCharacter` more bytes onto `result`. -/
def readCharacters : ℕ → IFStream → Byte → Bytes → IFStream × Byte × Bytes
  | 0, inFile, ch, result => (inFile, ch, result)
  | numCharacter + 1, inFile, ch, result =>
    let (inFile, ch) := inFile.get ch
    readCharacters numCharacter inFile ch (result ++ [ch])

/-- `ReadNCharacter`: the bytes read, and the stream after the separator has been skipped.
`ch` is the indeterminate initial value of the local variable; a negative count reads nothing. -/
def readNCharacter (ch : Byte) (inFile : IFStream) (numCharacter : ℤ) : IFStream × Bytes :=
  let (inFile, ch, result) := readCharacters numCharacter.toNat inFile ch []
  ((inFile.get ch).1, result)

/-- The replay of one `put` record after its command line. -/
def replayPut (ch : Byte) (storage : Storage) (inFile : IFStream) :
    Except StoiError (Storage × IFStream) := do
  let (inFile, keyLen) := inFile.getline []
  let (inFile, key) := readNCharacter ch inFile (← stoi keyLen)
  let (inFile, valueLen) := inFile.getline []
  let (inFile, value) := readNCharacter ch inFile (← stoi valueLen)
  return ((storage.put key value).2, inFile)

/-- The replay of one `remove` record after its command line. -/
def replayRemove (ch : Byte) (storage : Storage) (inFile : IFStream) :
    Except StoiError (Storage × IFStream) := do
  let (inFile, keyLen) := inFile.getline []
  let (inFile, key) := readNCharacter ch inFile (← stoi keyLen)
  return ((storage.deleteKey key).2, inFile)

/-- Go round the replay loop again, or leave it with the exception of `std::stoi`. -/
def continueReplay :
    Except StoiError (Storage × IFStream) → (Storage × IFStream) ⊕ Except StoiError Storage
  | .ok next => .inl next
  | .error e => .inr (.error e)

/-- One turn of `while (getline(in_file, request))`. -/
def replayStep (ch : Byte) : Storage × IFStream → (Storage × IFStream) ⊕ Except StoiError Storage
  | (storage, inFile) =>
    let (inFile, request) := inFile.getline []
    if inFile.fail then .inr (.ok storage)
    else if request = str "put" then continueReplay (replayPut ch storage inFile)
    else if request = str "remove" then continueReplay (replayRemove ch storage inFile)
    else .inr (.ok storage)

theorem readCharacters_length_le (n : ℕ) (inFile : IFStream) (ch : Byte) (result : Bytes) :
    (readCharacters n inFile ch result).1.rest.length ≤ inFile.rest.length := by
  induction n generalizing inFile ch result with
  | zero => exact le_rfl
  | succ n ih => exact (ih _ _ _).trans (inFile.get_length_le ch)

theorem readNCharacter_length_le (ch : Byte) (inFile : IFStream) (n : ℤ) :
    (readNCharacter ch inFile n).1.rest.length ≤ inFile.rest.length :=
  (IFStream.get_length_le _ _).trans (readCharacters_length_le _ _ _ _)

private theorem replayPut_length_le {ch : Byte} {storage storage' : Storage}
    {inFile inFile' : IFStream} (read : replayPut ch storage inFile = .ok (storage', inFile')) :
    inFile'.rest.length ≤ inFile.rest.length := by
  simp only [replayPut, bind, Except.bind, pure, Except.pure] at read
  split at read
  · contradiction
  · split at read
    · contradiction
    · cases read
      exact (readNCharacter_length_le _ _ _).trans ((IFStream.getline_length_le _ _).trans
        ((readNCharacter_length_le _ _ _).trans (IFStream.getline_length_le _ _)))

private theorem replayRemove_length_le {ch : Byte} {storage storage' : Storage}
    {inFile inFile' : IFStream} (read : replayRemove ch storage inFile = .ok (storage', inFile')) :
    inFile'.rest.length ≤ inFile.rest.length := by
  simp only [replayRemove, bind, Except.bind, pure, Except.pure] at read
  split at read
  · contradiction
  · cases read
    exact (readNCharacter_length_le _ _ _).trans (IFStream.getline_length_le _ _)

/-- Every turn of the replay loop takes its command line off the file. -/
theorem replayStep_shortens (ch : Byte) (s next : Storage × IFStream)
    (stepped : replayStep ch s = .inl next) : next.2.rest.length < s.2.rest.length := by
  obtain ⟨storage, inFile⟩ := s
  obtain ⟨storage', inFile'⟩ := next
  simp only [replayStep] at stepped
  split_ifs at stepped with failed isPut isRemove
  · have present : (inFile.getline []).1.fail = false := by simpa using failed
    have shorter := IFStream.getline_shortens present
    cases read : replayPut ch storage (inFile.getline []).1 with
    | error e => simp [read, continueReplay] at stepped
    | ok pair =>
      simp only [read, continueReplay, Sum.inl.injEq] at stepped
      exact (replayPut_length_le (stepped ▸ read)).trans_lt shorter
  · have present : (inFile.getline []).1.fail = false := by simpa using failed
    have shorter := IFStream.getline_shortens present
    cases read : replayRemove ch storage (inFile.getline []).1 with
    | error e => simp [read, continueReplay] at stepped
    | ok pair =>
      simp only [read, continueReplay, Sum.inl.injEq] at stepped
      exact (replayRemove_length_le (stepped ▸ read)).trans_lt shorter

/-- The replay loop of `PersistentLoad`; it always ends, possibly with an exception. -/
def replay (ch : Byte) (storage : Storage) (inFile : IFStream) : Except StoiError Storage :=
  Loop.total (replayStep ch) (fun s => s.2.rest.length) (replayStep_shortens ch) (storage, inFile)

theorem replay_eq (ch : Byte) (storage : Storage) (inFile : IFStream) :
    replay ch storage inFile =
      match replayStep ch (storage, inFile) with
      | .inl (storage', inFile') => replay ch storage' inFile'
      | .inr result => result := by
  unfold replay
  rw [Loop.total_eq]
  rcases replayStep ch (storage, inFile) with ⟨storage', inFile'⟩ | result <;> rfl

/-- The bytes that one call of `PersistentStore` sends to the log. -/
def recordBytes (request key value : Bytes) : Bytes :=
  request ++ [newline] ++ decimal key.length ++ [newline] ++ key ++ [newline] ++
    if request = str "put" then decimal value.length ++ [newline] ++ value ++ [newline] else []

/-- `KeyValueStoreImpl` with the file that `persistent_file_` names (`none` when missing). -/
structure KeyValueStoreImpl where
  storage : Storage
  persistentFile : Bytes
  persistentMode : Bool
  disk : Option Bytes
deriving DecidableEq

namespace KeyValueStoreImpl

/-- `PersistentLoad`, called by the constructor on an empty storage: without a file name the mode
is off, a missing file is created, and an existing one is replayed and left as it is. -/
def persistentLoad (ch : Byte) (persistentFile : Bytes) (disk : Option Bytes) :
    Except StoiError KeyValueStoreImpl :=
  if persistentFile.length = 0 then
    .ok { storage := ∅, persistentFile, persistentMode := false, disk }
  else
    match disk with
    | none => .ok { storage := ∅, persistentFile, persistentMode := true, disk := some [] }
    | some bytes =>
      match replay ch ∅ (.ofBytes bytes) with
      | .ok storage => .ok { storage, persistentFile, persistentMode := true, disk := some bytes }
      | .error e => .error e

/-- An existing log is loaded by replaying it; nothing is written to it. -/
theorem persistentLoad_some (ch : Byte) {persistentFile : Bytes} (named : persistentFile ≠ [])
    (bytes : Bytes) :
    persistentLoad ch persistentFile (some bytes) = (replay ch ∅ (.ofBytes bytes)).map
      fun storage => ⟨storage, persistentFile, true, some bytes⟩ := by
  have size : ¬ persistentFile.length = 0 := mt List.length_eq_zero_iff.mp named
  simp only [persistentLoad, size, ↓reduceIte]
  cases replay ch ∅ (.ofBytes bytes) <;> rfl

/-- A loaded server keeps the file name it was given; the mode is on when there is one. -/
theorem persistentLoad_ok {ch : Byte} {persistentFile : Bytes} {disk : Option Bytes}
    {server : KeyValueStoreImpl} (loaded : persistentLoad ch persistentFile disk = .ok server) :
    server.persistentFile = persistentFile ∧
      (server.persistentMode = true ↔ persistentFile ≠ []) := by
  rcases eq_or_ne persistentFile [] with rfl | named
  · obtain rfl := Except.ok.inj loaded
    simp
  · cases disk with
    | none =>
      have size : ¬ persistentFile.length = 0 := mt List.length_eq_zero_iff.mp named
      simp only [persistentLoad, size, ↓reduceIte] at loaded
      obtain rfl := Except.ok.inj loaded
      simp [named]
    | some bytes =>
      rw [persistentLoad_some ch named] at loaded
      cases read : replay ch ∅ (.ofBytes bytes) with
      | error e =>
        rw [read] at loaded
        contradiction
      | ok storage =>
        rw [read] at loaded
        obtain rfl := Except.ok.inj loaded
        simp [named]

/-- `PersistentStore`: the file is opened for appending, and created when it is missing. -/
def persistentStore (server : KeyValueStoreImpl) (request key value : Bytes) : KeyValueStoreImpl :=
  { server with disk := some (server.disk.getD [] ++ recordBytes request key value) }

end KeyValueStoreImpl

/-- The atomic actions of the handlers. -/
inductive ServerOp where
  | storagePut (key val : Bytes)
  | storageGet (key : Bytes)
  | storageDeleteKey (key : Bytes)
  | persistentStore (request key value : Bytes)
deriving DecidableEq

@[reducible] def ServerOp.Answer : ServerOp → Type
  | storagePut _ _ => Bool
  | storageGet _ => List Bytes
  | storageDeleteKey _ => Bool
  | persistentStore _ _ _ => Unit

abbrev ServerProgram := Program ServerOp.Answer

abbrev storagePut (key val : Bytes) : ServerProgram Bool :=
  Program.perform (ServerOp.storagePut key val)

abbrev storageGet (key : Bytes) : ServerProgram (List Bytes) :=
  Program.perform (ServerOp.storageGet key)

abbrev storageDeleteKey (key : Bytes) : ServerProgram Bool :=
  Program.perform (ServerOp.storageDeleteKey key)

abbrev storeRecord (request key value : Bytes) : ServerProgram Unit :=
  Program.perform (ServerOp.persistentStore request key value)

namespace KeyValueStoreImpl

/-- Each action on the server's state. -/
def handler : Handler ServerOp.Answer KeyValueStoreImpl
  | .storagePut key val, server =>
    let (result, storage) := server.storage.put key val
    (result, { server with storage })
  | .storageGet key, server => (server.storage.get key, server)
  | .storageDeleteKey key, server =>
    let (result, storage) := server.storage.deleteKey key
    (result, { server with storage })
  | .persistentStore request key value, server => ((), server.persistentStore request key value)

/-- The handler of `put`. -/
def putProgram (persistentMode : Bool) (request : PutRequest) : ServerProgram Status := do
  let _putResult ← storagePut request.key request.value
  if persistentMode then do
    storeRecord (str "put") request.key request.value
    return Status.OK
  else return Status.OK

/-- The handler of `get`: the replies written to the stream, then the final status. -/
def getProgram : List GetRequest → ServerProgram (Status × List GetReply)
  | [] => return (Status.OK, [])
  | request :: stream => do
    let values ← storageGet request.key
    if values.length = 0 then return (⟨.notFound, "Key is not found."⟩, [])
    else do
      let (status, replies) ← getProgram stream
      return (status, values.map GetReply.mk ++ replies)

/-- The handler of `remove`. -/
def removeProgram (persistentMode : Bool) (request : RemoveRequest) : ServerProgram Status := do
  let deleted ← storageDeleteKey request.key
  if deleted then
    if persistentMode then do
      storeRecord (str "remove") request.key []
      return Status.OK
    else return Status.OK
  else return ⟨.notFound, "Failed to delete the key."⟩

def put (server : KeyValueStoreImpl) (request : PutRequest) : Status × KeyValueStoreImpl :=
  (putProgram server.persistentMode request).run handler server

def get (server : KeyValueStoreImpl) (stream : List GetRequest) :
    (Status × List GetReply) × KeyValueStoreImpl :=
  (getProgram stream).run handler server

def remove (server : KeyValueStoreImpl) (request : RemoveRequest) : Status × KeyValueStoreImpl :=
  (removeProgram server.persistentMode request).run handler server

/-- What `put` does when nothing runs beside it. -/
theorem put_eq (server : KeyValueStoreImpl) (request : PutRequest) :
    server.put request = (Status.OK,
      { server with
        storage := server.storage.pushBack request.key request.value
        disk := if server.persistentMode then
            some (server.disk.getD [] ++ recordBytes (str "put") request.key request.value)
          else server.disk }) := by
  cases mode : server.persistentMode <;>
    simp [put, putProgram, mode, handler, persistentStore]

/-- What `remove` does when nothing runs beside it; it succeeds on absent keys as well. -/
theorem remove_eq (server : KeyValueStoreImpl) (request : RemoveRequest) :
    server.remove request = (Status.OK,
      { server with
        storage := server.storage.erase request.key
        disk := if server.persistentMode then
            some (server.disk.getD [] ++ recordBytes (str "remove") request.key [])
          else server.disk }) := by
  cases mode : server.persistentMode <;>
    simp [remove, removeProgram, mode, handler, persistentStore]

/-- One key of the request stream: an absent key ends it with `NOT_FOUND`. -/
theorem get_cons (server : KeyValueStoreImpl) (request : GetRequest) (stream : List GetRequest) :
    server.get (request :: stream) =
      if server.storage.get request.key = [] then
        ((⟨.notFound, "Key is not found."⟩, []), server)
      else (((server.get stream).1.1,
        (server.storage.get request.key).map GetReply.mk ++ (server.get stream).1.2),
        (server.get stream).2) := by
  change Program.run handler (if (server.storage.get request.key).length = 0 then _ else _) server
    = _
  by_cases absent : server.storage.get request.key = []
  · rw [if_pos (List.length_eq_zero_iff.mpr absent), if_pos absent]
    rfl
  · rw [if_neg (mt List.length_eq_zero_iff.mp absent), if_neg absent, Program.run_bind]
    rfl

/-- Reading changes nothing. -/
theorem get_snd (server : KeyValueStoreImpl) (stream : List GetRequest) :
    (server.get stream).2 = server := by
  induction stream with
  | nil => rfl
  | cons request stream ih =>
    rw [get_cons]
    split
    · rfl
    · exact ih

end KeyValueStoreImpl

/-- The RPCs of the service. -/
inductive ServerCall where
  | put (request : PutRequest)
  | get (stream : List GetRequest)
  | remove (request : RemoveRequest)
deriving DecidableEq

/-- The handler of an RPC: the final status, and the replies written to the stream. -/
def ServerCall.program (persistentMode : Bool) :
    ServerCall → ServerProgram (Status × List GetReply)
  | put request => do
    let status ← KeyValueStoreImpl.putProgram persistentMode request
    return (status, [])
  | get stream => KeyValueStoreImpl.getProgram stream
  | remove request => do
    let status ← KeyValueStoreImpl.removeProgram persistentMode request
    return (status, [])

/-- The server whose RPCs are handled side by side; every handler ends when it returns. -/
def server (persistentMode : Bool) :
    System ServerOp.Answer ServerCall (Status × List GetReply) KeyValueStoreImpl where
  handler := KeyValueStoreImpl.handler
  start call := call.program persistentMode
  resume _ := none

end FuncWarble.Model
