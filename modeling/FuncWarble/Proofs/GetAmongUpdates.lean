import Mathlib
import FuncWarble.Proofs.MultiKeyGet

/-! # A call of `Get` among updates

The storage may change between any two steps of a streaming `Get`: the handler takes the mutex of
the storage once for each key. What is returned is then no snapshot of the storage, but it is made
of one value list for each key, and each of them is what the key held at some moment of the call,
these moments being in the order of the keys. The call returns even if the storage never rests.
-/

namespace FuncWarble.Proofs

open Text Model

/-- The state of a call, with the requests that the storage had seen at each of its steps. Between
two steps the storage may see any more requests. -/
inductive Amid (keys : List Bytes) : List (List LogRecord) → GetCall → Prop
  | start : Amid keys [] (Model.GetCall.start keys)
  | step {moments : List (List LogRecord)} {call next : GetCall} {past : List LogRecord}
      (amid : Amid keys moments call) (later : ∀ earlier ∈ moments, earlier <+: past)
      (stepped : Model.GetCall.Step (applyAll ∅ past) call next) :
      Amid keys (moments ++ [past]) next

/-- A key with what the storage had seen when the handler looked it up. -/
abbrev LookedUp := Bytes × List LogRecord

/-- The values that were found. -/
def valuesFound (seen : List LookedUp) : List Bytes :=
  seen.flatMap fun look => valuesSince look.1 look.2

def AllFound (seen : List LookedUp) : Prop := ∀ look ∈ seen, valuesSince look.1 look.2 ≠ []

/-- What the handler has done with the keys that it has looked up, where `collected` are the values
that it has sent and `pending` the keys to come. -/
def Handled (collected pending : List Bytes) (seen : List LookedUp) : Handling → Prop
  | .reading => AllFound seen ∧ collected = valuesFound seen
  | .writing values => AllFound seen ∧ collected ++ values = valuesFound seen
  | .finished status =>
    (status = .OK ∧ pending = [] ∧ AllFound seen ∧ collected = valuesFound seen) ∨
    (status.isOk = false ∧ ∃ found missing, seen = found ++ [missing] ∧ AllFound found ∧
      valuesSince missing.1 missing.2 = [])

/-- What is true at every step of a call. -/
structure Serving (keys : List Bytes) (moments : List (List LogRecord)) (call : GetCall)
    (seen : List LookedUp) : Prop where
  keys : seen.map Prod.fst ++ GetCall.pending call = keys
  moments : (seen.map Prod.snd).Sublist moments
  handled : Handled (GetCall.collected call) (GetCall.pending call) seen call.handling
  returned : ∀ answer, call.returned = some answer → ∃ status, call.handling = .finished status ∧
    call.writer = none ∧ call.replies = [] ∧
    answer = if status.isOk then some call.result else none

variable {keys : List Bytes} {moments : List (List LogRecord)} {call next : GetCall}
  {seen : List LookedUp} {past : List LogRecord}

/-- A step that looks nothing up. -/
private theorem Serving.quiet (serving : Serving keys moments call seen)
    (pending : GetCall.pending next = GetCall.pending call)
    (handled : Handled (GetCall.collected next) (GetCall.pending call) seen next.handling)
    (running : next.returned = none) : Serving keys (moments ++ [past]) next seen where
  keys := by rw [pending, serving.keys]
  moments := serving.moments.trans (List.sublist_append_left ..)
  handled := pending ▸ handled
  returned answer returned := by
    rw [running] at returned
    contradiction

/-- A call that has returned takes no step any more. -/
private theorem Serving.running (serving : Serving keys moments call seen) {storage : Storage}
    (stepped : Model.GetCall.Step storage call next) : call.returned = none := by
  cases answered : call.returned with
  | none => rfl
  | some answer =>
    obtain ⟨status, ended, joined, drained, _⟩ := serving.returned answer answered
    cases stepped with
    | write unsent => simp [joined] at unsent
    | writesDone sent => simp [joined] at sent
    | read reading sent => simp [ended] at reading
    | readEnd reading drained closed => simp [ended] at reading
    | reply writing => simp [ended] at writing
    | replied written => simp [ended] at written
    | receive sent => simp [drained] at sent
    | finish ended drained joined running => exact answered.symm.trans running

theorem AllFound.concat (found : AllFound seen) {look : LookedUp}
    (present : valuesSince look.1 look.2 ≠ []) : AllFound (seen ++ [look]) := by
  intro other member
  rcases List.mem_append.mp member with old | new
  · exact found other old
  · obtain rfl := List.mem_singleton.mp new
    exact present

theorem valuesFound_concat (seen : List LookedUp) (look : LookedUp) :
    valuesFound (seen ++ [look]) = valuesFound seen ++ valuesSince look.1 look.2 := by
  simp [valuesFound]

/-- Looking up a key adds it, with the moment, to those that were looked up. -/
private theorem handled_lookUp {request : GetRequest} {collected pending : List Bytes}
    (found : AllFound seen) (same : collected = valuesFound seen) :
    Handled collected pending (seen ++ [(request.key, past)])
      (Model.GetCall.lookUp (applyAll ∅ past) request) := by
  simp only [Model.GetCall.lookUp, applyAll_get, List.length_eq_zero_iff]
  split_ifs with absent
  · exact .inr ⟨rfl, seen, _, rfl, found, absent⟩
  · refine ⟨found.concat absent, ?_⟩
    rw [valuesFound_concat, same]

/-- Every step keeps the record of what was looked up, and adds at most one key to it. -/
private theorem Serving.step (serving : Serving keys moments call seen)
    (stepped : Model.GetCall.Step (applyAll ∅ past) call next) :
    ∃ seen', Serving keys (moments ++ [past]) next seen' := by
  have running := serving.running stepped
  have handled := serving.handled
  cases stepped with
  | write unsent => exact ⟨seen, serving.quiet (by simp [GetCall.pending, unsent]) handled running⟩
  | writesDone sent => exact ⟨seen, serving.quiet (by simp [GetCall.pending, sent]) handled running⟩
  | @read request requests reading sent =>
    rw [reading] at handled
    refine ⟨seen ++ [(request.key, past)], ?_, ?_, handled_lookUp handled.1 handled.2, ?_⟩
    · rw [← serving.keys]
      simp [GetCall.pending, sent]
    · rw [List.map_append]
      exact serving.moments.append (List.Sublist.refl _)
    · intro answer returned
      exact absurd (running.symm.trans returned) (Option.some_ne_none answer).symm
  | readEnd reading drained closed =>
    rw [reading] at handled
    have none : GetCall.pending call = [] := by simp [GetCall.pending, drained, closed]
    exact ⟨seen, serving.quiet rfl (.inl ⟨rfl, none, handled⟩) running⟩
  | reply writing =>
    rw [writing] at handled
    refine ⟨seen, serving.quiet rfl ⟨handled.1, ?_⟩ running⟩
    rw [← handled.2]
    simp [GetCall.collected]
  | replied written =>
    rw [written] at handled
    refine ⟨seen, serving.quiet rfl ⟨handled.1, ?_⟩ running⟩
    rw [← handled.2, List.append_nil]
    rfl
  | @receive reply replies sent =>
    refine ⟨seen, serving.quiet rfl ?_ running⟩
    have same : GetCall.collected call =
        call.result ++ [reply.value] ++ replies.map GetReply.value := by
      simp [GetCall.collected, sent]
    rw [same] at handled
    exact handled
  | finish ended drained joined running =>
    refine ⟨seen, serving.keys, serving.moments.trans (List.sublist_append_left ..), handled, ?_⟩
    rintro answer ⟨⟩
    exact ⟨_, ended, joined, drained, rfl⟩

/-- At every step there is a record of what was looked up. -/
theorem Amid.serving (amid : Amid keys moments call) : ∃ seen, Serving keys moments call seen := by
  induction amid with
  | start =>
    refine ⟨[], ?_, List.Sublist.refl _, ⟨List.forall_mem_nil _, rfl⟩, ?_⟩
    · simp [GetCall.pending, Model.GetCall.start]
    · rintro answer ⟨⟩
  | step amid later stepped ih =>
    obtain ⟨seen, serving⟩ := ih
    exact serving.step stepped

/-- What a call may return, by what it has looked up and when: on success the values of all keys,
none of which was missing, and otherwise nothing, the last key looked up being missing. -/
def Explains (keys : List Bytes) (seen : List LookedUp) : Option (List Bytes) → Prop
  | some values => seen.map Prod.fst = keys ∧ AllFound seen ∧ values = valuesFound seen
  | none => ∃ found missing, seen = found ++ [missing] ∧ seen.map Prod.fst <+: keys ∧
      AllFound found ∧ valuesSince missing.1 missing.2 = []

private theorem Serving.explains (serving : Serving keys moments call seen)
    {answer : Option (List Bytes)} (returned : call.returned = some answer) :
    Explains keys seen answer := by
  obtain ⟨status, ended, joined, drained, rfl⟩ := serving.returned answer returned
  have handled := serving.handled
  rw [ended] at handled
  rcases handled with ⟨rfl, none, found, same⟩ | ⟨failed, found, missing, rfl, all, absent⟩
  · have whole := serving.keys
    rw [none, List.append_nil] at whole
    rw [GetCall.collected, drained, List.map_nil, List.append_nil] at same
    exact ⟨whole, found, same⟩
  · rw [failed]
    exact ⟨found, missing, rfl, ⟨_, serving.keys⟩, all, absent⟩

def writerLeft : Option (List Bytes) → ℕ
  | none => 0
  | some keys => 2 * keys.length + 1

def handlerLeft : Handling → ℕ
  | .finished _ => 0
  | _ => 1

/-- The messages that the call is still going to handle. -/
def messagesLeft (call : GetCall) : ℕ :=
  writerLeft call.writer + call.requests.length + handlerLeft call.handling +
    if call.returned = none then 1 else 0

def vectorLeft : Handling → ℕ
  | .writing values => 2 * values.length + 1
  | _ => 0

/-- What is left of the vector that is being sent. -/
def repliesLeft (call : GetCall) : ℕ := vectorLeft call.handling + call.replies.length

/-- The messages only decrease; looking up a key, which decreases them, may set the replies to any
number. -/
def remaining (call : GetCall) : ℕ ×ₗ ℕ := toLex (messagesLeft call, repliesLeft call)

private theorem handlerLeft_le_one (handling : Handling) : handlerLeft handling ≤ 1 := by
  cases handling with
  | finished status => exact Nat.zero_le 1
  | _ => exact le_rfl

/-- Every step decreases what remains, whatever the storage holds. -/
theorem remaining_step {storage : Storage} (stepped : Model.GetCall.Step storage call next) :
    remaining next < remaining call := by
  rw [remaining, remaining, Prod.Lex.toLex_lt_toLex]
  cases stepped with
  | write unsent =>
    left
    simp only [messagesLeft, unsent, writerLeft, List.length_cons, List.length_append,
      List.length_nil]
    omega
  | writesDone sent =>
    left
    simp only [messagesLeft, sent, writerLeft, List.length_nil]
    omega
  | @read request requests reading sent =>
    left
    have bound := handlerLeft_le_one (Model.GetCall.lookUp storage request)
    simp only [messagesLeft, reading, sent, handlerLeft, List.length_cons] at bound ⊢
    omega
  | readEnd reading drained closed =>
    left
    simp only [messagesLeft, reading, handlerLeft]
    omega
  | reply writing =>
    right
    simp only [messagesLeft, repliesLeft, writing, handlerLeft, vectorLeft, List.length_cons,
      List.length_append, List.length_nil, true_and]
    omega
  | replied written =>
    right
    simp only [messagesLeft, repliesLeft, written, handlerLeft, vectorLeft, List.length_nil,
      true_and]
    omega
  | receive sent =>
    right
    simp only [messagesLeft, repliesLeft, sent, List.length_cons, true_and]
    omega
  | finish ended drained joined running =>
    left
    simp only [messagesLeft, running, reduceCtorEq, ↓reduceIte]
    omega

/-- A `Get` of any list of keys while the storage sees any requests. The call is never stuck and
never goes on for ever, however the storage changes. What it returns is made of what the keys held
at moments of the call, in the order of the keys. -/
theorem get_among_updates (keys : List Bytes) :
    (∀ moments call, Amid keys moments call →
      (call.returned = none → ∀ storage, ∃ next, Model.GetCall.Step storage call next) ∧
      ∀ answer, call.returned = some answer →
        ∃ seen, (seen.map Prod.snd).Sublist moments ∧ Explains keys seen answer) ∧
    ∀ (run : ℕ → GetCall) (storages : ℕ → Storage),
      ¬ ∀ n, Model.GetCall.Step (storages n) (run n) (run (n + 1)) := by
  refine ⟨fun moments call amid => ⟨fun running storage => GetCall.progress storage running, ?_⟩,
    fun run storages steps => ?_⟩
  · intro answer returned
    obtain ⟨seen, serving⟩ := amid.serving
    exact ⟨seen, serving.moments, serving.explains returned⟩
  · have falls : ∀ n, remaining (run (n + 1)) < remaining (run n) := fun n =>
      remaining_step (steps n)
    obtain ⟨n, stops⟩ := @WellFounded.not_rel_apply_succ (ℕ ×ₗ ℕ) (· < ·) inferInstance
      fun n => remaining (run n)
    exact stops (falls n)

end FuncWarble.Proofs
