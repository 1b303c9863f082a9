import Mathlib
import FuncWarble.Text.OutStream
import FuncWarble.Model.KeyValueService

/-! # A log that may not take a record

`PersistentStore` sends the parts of a record to an output stream one after the other, never looks
at the state of the stream and returns nothing. Here each call is given the device that its stream
meets, and the handlers of `put` and `remove` run on it unchanged.
-/

namespace FuncWarble.Model

open Text Machine

namespace KeyValueStoreImpl

/-- `PersistentStore` on a device. -/
def persistentStoreOn (device : Device) (server : KeyValueStoreImpl) (request key value : Bytes) :
    KeyValueStoreImpl :=
  let outFile := OFStream.openApp server.disk device
  let outFile := (outFile.write request).write [newline]
  let outFile := (outFile.write (decimal key.length)).write [newline]
  let outFile := (outFile.write key).write [newline]
  let outFile :=
    if request = str "put" then
      (((outFile.write (decimal value.length)).write [newline]).write value).write [newline]
    else outFile
  { server with disk := outFile.file }

/-- The stream appends the bytes of the record, as far as the device lets it. -/
theorem persistentStoreOn_eq (device : Device) (server : KeyValueStoreImpl)
    (request key value : Bytes) : server.persistentStoreOn device request key value =
      { server with disk := device.append server.disk (recordBytes request key value) } := by
  have front := OFStream.openApp_file server.disk device
    [request, [newline], decimal key.length, [newline], key, [newline]]
  have whole := OFStream.openApp_file server.disk device
    [request, [newline], decimal key.length, [newline], key, [newline], decimal value.length,
      [newline], value, [newline]]
  simp only [List.foldl_cons, List.foldl_nil, List.flatten_cons, List.flatten_nil,
    List.append_nil] at front whole
  rw [persistentStoreOn]
  split
  · next isPut =>
    rw [isPut] at whole
    simp only [whole, recordBytes, isPut, ↓reduceIte, List.append_assoc]
  · next other =>
    simp only [front, recordBytes, other, ↓reduceIte, List.append_nil, List.append_assoc]

/-- Each action on the server's state, the log being on a device. -/
def handlerOn (device : Device) : Handler ServerOp.Answer KeyValueStoreImpl
  | .persistentStore request key value, server =>
    ((), server.persistentStoreOn device request key value)
  | .storagePut key val, server => handler (.storagePut key val) server
  | .storageGet key, server => handler (.storageGet key) server
  | .storageDeleteKey key, server => handler (.storageDeleteKey key) server

def putOn (device : Device) (server : KeyValueStoreImpl) (request : PutRequest) :
    Status × KeyValueStoreImpl :=
  (putProgram server.persistentMode request).run (handlerOn device) server

def removeOn (device : Device) (server : KeyValueStoreImpl) (request : RemoveRequest) :
    Status × KeyValueStoreImpl :=
  (removeProgram server.persistentMode request).run (handlerOn device) server

end KeyValueStoreImpl

end FuncWarble.Model
