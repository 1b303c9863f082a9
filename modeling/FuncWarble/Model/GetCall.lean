import Mathlib
import FuncWarble.Model.KeyValueClient

/-! # One streaming call of `Get`

`KeyValueClient::Get` runs two threads: a writer, which sends one request for each key whatever
becomes of them, and a reader, which collects replies until the server has returned. On the other
side the handler of `get` reads the requests as they come, and returns at the first absent key.
The parties take their steps in any order; the two directions of the stream deliver in order.
-/

namespace FuncWarble.Model

open Text

/-- Where the handler of `get` stands: before a `Read`, writing the rest of a vector, or done. -/
inductive Handling where
  | reading
  | writing (values : List Bytes)
  | finished (status : Status)
deriving DecidableEq

/-- The state of a call. -/
structure GetCall where
  /-- The keys that the writer has still to send; `none` after `WritesDone`. -/
  writer : Option (List Bytes)
  /-- Requests that were sent and not read, the oldest first. -/
  requests : List GetRequest
  handling : Handling
  /-- Replies that were written and not read, the oldest first. -/
  replies : List GetReply
  result : List Bytes
  /-- What `Get` has returned; the null pointer is `none`. -/
  returned : Option (Option (List Bytes))
deriving DecidableEq

namespace GetCall

def start (keys : List Bytes) : GetCall where
  writer := some keys
  requests := []
  handling := .reading
  replies := []
  result := []
  returned := none

/-- What the handler does with a request that it has read. -/
def lookUp (storage : Storage) (request : GetRequest) : Handling :=
  let values := storage.get request.key
  if values.length = 0 then .finished ⟨.notFound, "Key is not found."⟩ else .writing values

/-- One step of one of the parties. -/
inductive Step (storage : Storage) : GetCall → GetCall → Prop
  /-- The writer does not look at what `Write` returns; behind the end of the handler a request
  stays unread. -/
  | write {call : GetCall} {key : Bytes} {keys : List Bytes}
      (unsent : call.writer = some (key :: keys)) :
      Step storage call { call with writer := some keys, requests := call.requests ++ [⟨key⟩] }
  | writesDone {call : GetCall} (sent : call.writer = some []) :
      Step storage call { call with writer := none }
  | read {call : GetCall} {request : GetRequest} {requests : List GetRequest}
      (reading : call.handling = .reading) (next : call.requests = request :: requests) :
      Step storage call { call with requests, handling := lookUp storage request }
  | readEnd {call : GetCall} (reading : call.handling = .reading) (drained : call.requests = [])
      (closed : call.writer = none) : Step storage call { call with handling := .finished .OK }
  | reply {call : GetCall} {value : Bytes} {values : List Bytes}
      (writing : call.handling = .writing (value :: values)) :
      Step storage call
        { call with handling := .writing values, replies := call.replies ++ [⟨value⟩] }
  | replied {call : GetCall} (written : call.handling = .writing []) :
      Step storage call { call with handling := .reading }
  | receive {call : GetCall} {reply : GetReply} {replies : List GetReply}
      (next : call.replies = reply :: replies) :
      Step storage call { call with replies, result := call.result ++ [reply.value] }
  /-- `Read` returns false, the writer is joined and `Finish` yields the status. -/
  | finish {call : GetCall} {status : Status} (ended : call.handling = .finished status)
      (drained : call.replies = []) (joined : call.writer = none)
      (running : call.returned = none) :
      Step storage call
        { call with returned := some (if status.isOk then some call.result else none) }

/-- The call is in progress, or has returned, on a storage that nobody changes. -/
def Reaches (storage : Storage) (keys : List Bytes) (call : GetCall) : Prop :=
  Relation.ReflTransGen (Step storage) (start keys) call

end GetCall

end FuncWarble.Model
