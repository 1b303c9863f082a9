import Mathlib
import FuncWarble.Machine.Progress
import FuncWarble.Model.WarbleMessage
import FuncWarble.Proofs.ConcurrentService

/-! # Every call returns

No call of the warble service waits for another one, and only `Read` has a loop. As long as the ids
that clients name are not keys of usernames, its walk goes back in the order of the puts, which
warbles that are posted in the meantime do not change. Every call then returns, whatever other
calls run beside it.
-/

namespace FuncWarble.Proofs

open Text Model Machine

variable {platform : Platform} {call : WarbleCall} {w w' : ServiceWorld} {entries : List Entry}

/-- The call names no key of usernames as the id of a warble. -/
def NamesNoList : WarbleCall → Prop
  | .warble request _ => ¬ IsNameKey request.parentId
  | .read request => ¬ IsNameKey request.warbleId
  | _ => True

/-- None of the calls that have done something names such a key. -/
def Tame (w : ServiceWorld) : Prop := ∀ performed ∈ w.trace, NamesNoList performed.1

/-- The rank of a key that has been put does not change any more. -/
theorem rank_of_prefix {more : List Entry} (extended : entries <+: more) {key : Bytes}
    (present : Present entries key) : rank more key = rank entries key := by
  obtain ⟨rest, rfl⟩ := extended
  obtain ⟨entry, member, same⟩ := present
  have inside : entries.findIdx (fun other => other.key = key) < entries.length :=
    List.findIdx_lt_length_of_exists ⟨entry, member, decide_eq_true same⟩
  rw [rank, rank, if_pos ⟨entry, List.mem_append_left rest member, same⟩,
    if_pos ⟨entry, member, same⟩, List.findIdx_append, if_pos inside]

theorem RepliesTo.present {key parent : Bytes} (replies : RepliesTo entries key parent) :
    Present entries key := by
  obtain ⟨warble, ⟨before, after, rfl, same, _⟩, _⟩ := replies
  exact ⟨.warble warble, by simp, same⟩

/-- The parents of the warbles of such calls are not keys of usernames either. -/
theorem Tame.not_isNameKey (tame : Tame w) {key parent : Bytes}
    (replies : RepliesTo (entriesIn platform w) key parent) : ¬ IsNameKey parent := by
  obtain ⟨warble, ⟨before, after, split, _⟩, rfl⟩ := replies
  have member : .warble warble ∈ entriesIn platform w := by
    rw [split]
    simp
  obtain ⟨⟨call, op⟩, performed, isEntry⟩ := List.mem_filterMap.mp member
  have names := tame _ performed
  cases call with
  | warble request tv =>
    cases op with
    | get keys => contradiction
    | put key val =>
      obtain rfl := Entry.warble.inj (Option.some.inj isEntry)
      exact names
  | follow request =>
    cases op with
    | get keys => contradiction
    | put key val =>
      simp only [entryOf] at isEntry
      split_ifs at isEntry <;> simp at isEntry
  | registerUser request =>
    cases op with
    | get keys => contradiction
    | put key val => simp [entryOf] at isEntry
  | read request | profile request => contradiction

/-- A walk that starts at no key of usernames comes to none. -/
theorem Walked.not_isNameKey (tame : Tame w) {keys : List Bytes} {start : Bytes}
    (walked : Walked (entriesIn platform w) (start :: keys)) (notName : ¬ IsNameKey start) :
    ∀ key ∈ start :: keys, ¬ IsNameKey key := by
  induction keys generalizing start with
  | nil =>
    intro key member
    rwa [List.mem_singleton.mp member]
  | cons parent keys ih =>
    obtain ⟨linked, walked⟩ := List.isChain_cons_cons.mp walked
    have onward := ih walked (tame.not_isNameKey (linked.resolve_left notName))
    exact List.forall_mem_cons.mpr ⟨notName, onward⟩

theorem Walking.replies (tame : Tame w) {start : Bytes} {head : WarbleService.ReadLoop}
    (walking : Walking platform (entriesIn platform w) start head) (notName : ¬ IsNameKey start)
    {serialized : Bytes} (single : head.serializedWarbles = some [serialized]) :
    RepliesTo (entriesIn platform w) head.warbleId
      (platform.parseFromString serialized).2.parentId := by
  have member := List.mem_of_getLast? walking.last
  have notNames := Walked.not_isNameKey tame walking.walked notName
  exact (walking.found serialized single).resolve_left (notNames _ member)

/-- The world of the calls under consideration. -/
abbrev Steady (platform : Platform) (w : ServiceWorld) : Prop := Kept platform w ∧ Tame w

theorem Tame.perform (tame : Tame w) (names : NamesNoList call) (op : ClientOp) :
    Tame ((warbleService platform).perform call op w) := System.forall_mem_concat tame names

/-- The loop of `Read` ends. -/
private theorem head_ends (undoes : platform.Undoes) {request : ReadRequest}
    (notName : ¬ IsNameKey request.warbleId) {head : WarbleService.ReadLoop}
    (steady : Steady platform w)
    (walking : Walking platform (entriesIn platform w) request.warbleId head) :
    (warbleService platform).Ends (Steady platform) (.read request) (.ret (.inl head)) w := by
  generalize place : rank (entriesIn platform w) head.warbleId = n
  induction n using Nat.strong_induction_on generalizing head w with
  | _ n ih =>
    refine .resume rfl ?_
    obtain ⟨⟨warbles⟩, id, found⟩ := head
    rcases found with _ | _ | ⟨serialized, _ | ⟨second, more⟩⟩
    · exact .returned rfl
    · exact .returned rfl
    · refine .perform fun w₁ later steady₁ => ?_
      have names : NamesNoList (.read request) := notName
      have replies := walking.replies steady.2 notName rfl
      have returned : Returned platform (.read request)
          (.inl ⟨⟨warbles⟩, id, some [serialized]⟩) w₁ :=
        fun _ => walking.mono (entriesIn_later later)
      obtain ⟨kept₂, onward⟩ :=
        body_keeps steady₁.1 returned w₁ (System.Later.refl w₁) steady₁.1
      have walking₂ := onward _ (System.Later.refl _) kept₂ undoes
      refine ih _ ?_ ⟨kept₂, steady₁.2.perform names _⟩ walking₂ rfl
      have later₂ := later.trans (System.later_perform (warbleService platform) (.read request)
        (.get [(platform.parseFromString serialized).2.parentId]) w₁)
      rw [← place, ← rank_of_prefix (entriesIn_later later₂) replies.present]
      exact kept₂.held.typed.rank_lt_of_repliesTo (replies.mono (entriesIn_later later₂))
    · exact .returned rfl

/-- Every such call ends. -/
theorem call_ends (undoes : platform.Undoes) (names : NamesNoList call)
    (steady : Steady platform w) :
    (warbleService platform).Ends (Steady platform) call (call.program platform) w := by
  refine (program_keeps call steady.1).ends (fun op w tame => tame.perform names op) steady ?_
  intro result w' _ steady' returned
  rcases result with head | result
  · cases call with
    | read request => exact head_ends undoes names steady' (returned undoes)
    | _ => exact returned.elim
  · exact .returned rfl

/-- Every call returns. Under every schedule, however long other calls go on, a call that can always
take another step returns in the end, as long as no call names a key of usernames as an id. -/
theorem calls_return (undoes : platform.Undoes) {server : KeyValueStoreImpl}
    (empty : server.storage = ∅) {schedule : ℕ → Event WarbleCall}
    (names : ∀ k call, schedule k = .invoke call → NamesNoList call) {n : ℕ} {call : WarbleCall}
    (invoked : schedule n = .invoke call) :
    let before := (warbleService platform).follow (System.initial server) schedule
    (∀ k, ∃ m, k ≤ m ∧ schedule m = .advance (before n).tasks.length) →
      ∃ m result, (before m).tasks[(before n).tasks.length]? = some ⟨call, .ret (.inr result)⟩ := by
  intro before fair
  have steady : ∀ k, Steady platform (before k).world := by
    intro k
    rw [show before k = _ from System.follow_eq_run _ schedule k]
    refine ⟨(warbleService_guaranteed empty _).1, (System.run_calls fun other member => ?_).2⟩
    obtain ⟨k, _, invokes⟩ := List.mem_map.mp member
    exact names k other invokes
  have arrived : (before (n + 1)).tasks[(before n).tasks.length]? =
      some ⟨call, call.program platform⟩ := by
    have stepped : before (n + 1) = (warbleService platform).step (before n) (schedule n) := rfl
    rw [stepped, invoked]
    exact List.getElem?_concat_length ..
  obtain ⟨m, result, _, returned, last⟩ := System.Ends.returns steady fair
    (call_ends undoes (names n call invoked) (steady (n + 1))) (System.Later.refl _) arrived
  rcases result with head | result
  · contradiction
  · exact ⟨m, result, returned⟩

/-- "a" posts a warble. -/
def rootPost : WarbleRequest := ⟨str "a", str "hi", []⟩

def rootWarble : Warble := WarbleService.newWarble protobufPlatform rootPost ⟨0, 0⟩

/-- "a" replies to it. -/
def answerPost : WarbleRequest := ⟨str "a", str "ho", rootWarble.id⟩

def answerWarble : Warble := WarbleService.newWarble protobufPlatform answerPost ⟨0, 1⟩

/-- "a" has joined and posted the two warbles, and starts to read the reply. -/
def readStarts : List (Event WarbleCall) :=
  [.invoke (.registerUser ⟨str "a"⟩), .advance 0, .advance 0,
    .invoke (.warble rootPost ⟨0, 0⟩), .advance 1, .advance 1,
    .invoke (.warble answerPost ⟨0, 1⟩), .advance 2, .advance 2, .advance 2,
    .invoke (.read ⟨answerWarble.id, str "a"⟩)]

/-- From then on, for every step of the `Read`, another warble is posted, and some other call takes
a step. -/
def readAmongPosts (k : ℕ) : Event WarbleCall :=
  match readStarts[k]? with
  | some event => event
  | none =>
    match k % 3 with
    | 0 => .advance 3
    | 1 => .invoke (.warble rootPost ⟨Int64.ofNat k, 0⟩)
    | _ => .advance (k / 3)

theorem readAmongPosts_names {k : ℕ} {call : WarbleCall}
    (invokes : readAmongPosts k = .invoke call) : NamesNoList call := by
  have noParent : ¬ IsNameKey [] := by
    rintro ⟨kind, owner, same⟩
    exact nameKey_ne_nil kind owner same.symm
  have decimalId (n : ℕ) : ¬ IsNameKey (decimal n) := by
    rintro ⟨kind, owner, same⟩
    exact decimal_ne_nameKey n kind owner same
  rw [readAmongPosts] at invokes
  split at invokes
  · next event found =>
    have member := List.mem_of_getElem? found
    simp only [invokes, readStarts, List.mem_cons, Event.invoke.injEq, reduceCtorEq,
      List.not_mem_nil, false_or, or_false] at member
    rcases member with rfl | rfl | rfl | rfl
    · trivial
    · exact noParent
    · exact decimalId _
    · exact decimalId _
  · split at invokes
    · contradiction
    · cases invokes
      exact noParent
    · contradiction

/-- A thread is read while more and more warbles are posted. -/
theorem calls_return_example :
    let before := (warbleService protobufPlatform).follow
      (System.initial ⟨∅, [], false, none⟩) readAmongPosts
    ∃ m result, (before m).tasks[3]? =
      some ⟨.read ⟨answerWarble.id, str "a"⟩, .ret (.inr result)⟩ := by
  have place : ((warbleService protobufPlatform).follow (System.initial ⟨∅, [], false, none⟩)
      readAmongPosts 10).tasks.length = 3 := by decide +kernel
  have fair (k : ℕ) : ∃ m, k ≤ m ∧ readAmongPosts m = .advance 3 := by
    refine ⟨3 * (k + 4), by omega, ?_⟩
    have late : readStarts[3 * (k + 4)]? = none :=
      List.getElem?_eq_none (show 11 ≤ 3 * (k + 4) by omega)
    rw [readAmongPosts, late, Nat.mul_mod_right]
    rfl
  have returned := @calls_return protobufPlatform protobufPlatform_undoes ⟨∅, [], false, none⟩ rfl
    readAmongPosts (fun _ _ => readAmongPosts_names) 10 _ rfl
  simp only [place] at returned
  exact returned fair

end FuncWarble.Proofs
