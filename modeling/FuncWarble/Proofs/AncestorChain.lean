import Mathlib
import FuncWarble.Model.WarbleMessage
import FuncWarble.Proofs.ReadThread

/-! # Reading the ancestors of a warble

Under an id that no list of names uses, the store holds the posted warbles with this id and nothing
else. A warble whose id was given out once is therefore alone under it, and `Read` goes through a
chain of such warbles from reply to parent until it looks up the empty key, which is never there.
-/

namespace FuncWarble.Proofs

open Text Model Machine

variable {platform : Platform} {past : List Exchange} {server server' : KeyValueStoreImpl}

/-- The warble that the exchange returned, if it was a successful post. -/
def Exchange.posted (exchange : Exchange) : Option Warble :=
  match exchange.call, exchange.answer with
  | .warble _ _, .warble reply => if exchange.status = Status.OK then reply.warble else none
  | _, _ => none

/-- The warbles of a history, one for every successful post. -/
def postedWarbles (past : List Exchange) : List Warble := past.filterMap Exchange.posted

def Entry.posted : Entry → Option Warble
  | name _ _ _ => none
  | warble posted => some posted

private theorem posted_entries (exchange : Exchange) :
    exchange.entries.filterMap Entry.posted = exchange.posted.toList := by
  obtain ⟨call, status, answer⟩ := exchange
  by_cases ok : status = Status.OK
  · cases call with
    | warble request tv =>
      cases answer with
      | warble reply =>
        obtain ⟨_ | posted⟩ := reply <;> simp [Exchange.entries, Exchange.posted, Entry.posted, ok]
      | _ => simp [Exchange.entries, Exchange.posted, ok]
    | _ => simp [Exchange.entries, Exchange.posted, Entry.posted, ok]
  · cases call <;> cases answer <;> simp [Exchange.entries, Exchange.posted, ok]

theorem postedWarbles_eq (past : List Exchange) :
    (entriesOf past).filterMap Entry.posted = postedWarbles past :=
  filterMap_entriesOf posted_entries past

theorem mem_postedWarbles {warble : Warble} :
    warble ∈ postedWarbles past ↔ Posted past warble := by
  rw [← postedWarbles_eq, posted_iff, List.mem_filterMap]
  constructor
  · rintro ⟨_ | posted, member, same⟩
    · contradiction
    · obtain rfl := Option.some.inj same
      exact member
  · exact fun member => ⟨_, member, rfl⟩

/-- The entries of a key that holds no names are the warbles with this id. -/
private theorem filter_key {id : Bytes} (notName : ¬ IsNameKey id) (entries : List Entry) :
    entries.filter (fun entry => entry.key = id) =
      ((entries.filterMap Entry.posted).filter fun warble => warble.id = id).map .warble := by
  induction entries with
  | nil => rfl
  | cons entry entries ih =>
    cases entry with
    | name kind owner value =>
      have other : (Entry.name kind owner value).key ≠ id := fun same =>
        notName ⟨kind, owner, same.symm⟩
      simp only [List.filter_cons, other, decide_false, Bool.false_eq_true, ↓reduceIte, ih]
      rfl
    | warble posted =>
      have isKey : (Entry.warble posted).key = posted.id := rfl
      have isPosted : Entry.posted (.warble posted) = some posted := rfl
      rw [List.filterMap_cons_some isPosted]
      simp only [List.filter_cons, isKey, decide_eq_true_eq, ih]
      split_ifs <;> rfl

/-- An id holds the serializations of the warbles that were posted with it. -/
theorem Run.get_id (run : Run platform past server) {id : Bytes} (notName : ¬ IsNameKey id) :
    server.storage.get id = ((postedWarbles past).filter fun warble => warble.id = id).map
      platform.serializeToString := by
  rw [run.holdsEntries.store, stored_get, filter_key notName, postedWarbles_eq, List.map_map]
  rfl

theorem Posted.not_isNameKey (run : Run platform past server) {warble : Warble}
    (posted : Posted past warble) : ¬ IsNameKey warble.id :=
  run.holdsEntries.typed.warble_id_not_isNameKey (posted_iff.mp posted)

/-- The warble was posted, and no other post returned its id. -/
structure PostedOnce (past : List Exchange) (warble : Warble) : Prop where
  posted : Posted past warble
  once : (postedWarbles past).countP (fun other => other.id = warble.id) = 1

/-- A warble whose id was given out once is alone under it. -/
theorem PostedOnce.get_id (run : Run platform past server) {warble : Warble}
    (single : PostedOnce past warble) :
    server.storage.get warble.id = [platform.serializeToString warble] := by
  rw [run.get_id (single.posted.not_isNameKey run)]
  have once := single.once
  rw [List.countP_eq_length_filter] at once
  obtain ⟨other, filtered⟩ := List.length_eq_one_iff.mp once
  have member : warble ∈ (postedWarbles past).filter fun other => other.id = warble.id :=
    List.mem_filter.mpr ⟨mem_postedWarbles.mpr single.posted, decide_eq_true rfl⟩
  rw [filtered, List.mem_singleton] at member
  rw [filtered, ← member]
  rfl

/-- A warble, its parent, the parent of that one and so on to a warble that replies to nothing.
The id of each of them was given out once. -/
inductive AncestorChain (past : List Exchange) : List Warble → Prop
  | root {warble : Warble} (single : PostedOnce past warble) (noParent : warble.parentId = []) :
    AncestorChain past [warble]
  | reply {warble parent : Warble} {rest : List Warble} (single : PostedOnce past warble)
    (isParent : warble.parentId = parent.id) (chain : AncestorChain past (parent :: rest)) :
    AncestorChain past (warble :: parent :: rest)

private theorem single_turn (run : Run platform past server) (undoes : platform.Undoes)
    {warble : Warble} (single : PostedOnce past warble) (front : List Warble) :
    Program.turn KeyValueClient.handler (WarbleCall.body platform)
        (⟨⟨front⟩, warble.id, lookup server warble.id⟩, server) =
      .inl (⟨⟨front ++ [warble]⟩, warble.parentId, lookup server warble.parentId⟩, server) := by
  have found : lookup server warble.id = some [platform.serializeToString warble] :=
    lookup_eq_some_iff.mpr ⟨single.get_id run, List.cons_ne_nil _ _⟩
  rw [readBody_turn, found]
  simp only [undoes warble]

/-- The loop of `Read` goes through the chain. -/
theorem AncestorChain.yields (run : Run platform past server) (undoes : platform.Undoes)
    {warble : Warble} {rest : List Warble} (chain : AncestorChain past (warble :: rest))
    (front : List Warble) :
    Loop.Yields (Program.turn KeyValueClient.handler (WarbleCall.body platform))
      (⟨⟨front⟩, warble.id, lookup server warble.id⟩, server)
      ((Status.OK, .read ⟨front ++ warble :: rest⟩), server) := by
  induction rest generalizing warble front with
  | nil =>
    cases chain with
    | root single noParent =>
      rw [Loop.yields_of_inl (single_turn run undoes single front), noParent]
      have missing : lookup server [] = none := by
        have held := run.holdsEntries
        have absent : ¬ Found server [] := by
          rw [held.found_iff]
          exact held.typed.not_present_nil
        rw [lookup, handler_get_missing absent]
      apply Loop.yields_of_inr
      rw [readBody_turn, missing]
  | cons parent rest ih =>
    cases chain with
    | reply single isParent chain =>
      rw [Loop.yields_of_inl (single_turn run undoes single front), isParent]
      have onward := ih chain (front ++ [warble])
      rw [List.append_assoc] at onward
      exact onward

private theorem PostedOnce.repliesTo (run : Run platform past server) (undoes : platform.Undoes)
    {warble : Warble} (single : PostedOnce past warble) :
    RepliesTo (entriesOf past) warble.id warble.parentId := by
  have alone := single.get_id run
  rw [run.holdsEntries.store] at alone
  have replies := repliesTo_of_single undoes (single.posted.not_isNameKey run) alone
  rw [undoes warble] at replies
  exact replies

theorem AncestorChain.ids_isChain (run : Run platform past server) (undoes : platform.Undoes)
    {warbles : List Warble} (chain : AncestorChain past warbles) :
    (warbles.map Warble.id).IsChain (RepliesTo (entriesOf past)) := by
  induction chain with
  | root single noParent => exact List.isChain_singleton _
  | reply single isParent _ ih =>
    have replies := single.repliesTo run undoes
    rw [isParent] at replies
    exact List.isChain_cons_cons.mpr ⟨replies, ih⟩

/-- Nobody is among his own ancestors. -/
theorem AncestorChain.nodup (run : Run platform past server) (undoes : platform.Undoes)
    {warbles : List Warble} (chain : AncestorChain past warbles) : warbles.Nodup :=
  (Walk.nodup_of_isChain run.holdsEntries.typed.acyclic (chain.ids_isChain run undoes)).of_map _

/-- `Read` returns exactly the ancestors. For a registered user it ends, with OK and the chain from
the warble to the root of its thread, in which no warble occurs twice. -/
theorem read_ancestors (undoes : platform.Undoes) (run : Run platform past server)
    {username : Bytes} (joined : Joined past username) {warble : Warble} {rest : List Warble}
    (chain : AncestorChain past (warble :: rest)) :
    (∀ result server', Serves platform (.read ⟨warble.id, username⟩) server result server' ↔
      result = (Status.OK, .read ⟨warble :: rest⟩) ∧ server' = server) ∧
    (warble :: rest).Nodup := by
  have single : PostedOnce past warble := by
    cases chain with
    | root single _ => exact single
    | reply single _ _ => exact single
  have found : Found server warble.id := by
    rw [Found, single.get_id run]
    exact List.cons_ne_nil _ _
  have served : Serves platform (.read ⟨warble.id, username⟩) server
      (Status.OK, .read ⟨warble :: rest⟩) server := by
    have user := (run.found_user_iff username).mpr joined
    rw [serves_read, if_neg (not_not.mpr user), if_neg (not_not.mpr found),
      ← lookup_of_found found]
    exact chain.yields run undoes []
  refine ⟨fun result server' => ⟨fun other => ?_, ?_⟩, chain.nodup run undoes⟩
  · exact Program.Outcome.unique other served
  · rintro ⟨rfl, rfl⟩
    exact served

/-- A warble of the user "a", posted at the start of the epoch. -/
def firstWarble : Warble :=
  WarbleService.newWarble protobufPlatform ⟨str "a", str "hi", []⟩ ⟨0, 0⟩

/-- A reply to it. -/
def replyWarble : Warble :=
  WarbleService.newWarble protobufPlatform ⟨str "a", str "yes", firstWarble.id⟩ ⟨0, 1⟩

def threadHistory : List Exchange :=
  [⟨.registerUser ⟨str "a"⟩, Status.OK, .registerUser {}⟩,
    ⟨.warble ⟨str "a", str "hi", []⟩ ⟨0, 0⟩, Status.OK, .warble ⟨some firstWarble⟩⟩,
    ⟨.warble ⟨str "a", str "yes", firstWarble.id⟩ ⟨0, 1⟩, Status.OK, .warble ⟨some replyWarble⟩⟩]

theorem read_ancestors_example : ∃ server, Run protobufPlatform threadHistory server ∧
    (∀ result server',
      Serves protobufPlatform (.read ⟨replyWarble.id, str "a"⟩) server result server' ↔
        result = (Status.OK, .read ⟨[replyWarble, firstWarble]⟩) ∧ server' = server) ∧
    [replyWarble, firstWarble].Nodup := by
  have served : (serveAll protobufPlatform 0 (threadHistory.map Exchange.call) []
      ⟨∅, [], false, none⟩).map Prod.fst = some threadHistory := by decide
  obtain ⟨server, run⟩ := exists_run_of_serveAll served
  have first : PostedOnce threadHistory firstWarble :=
    ⟨mem_postedWarbles.mp (by decide), by decide⟩
  have reply : PostedOnce threadHistory replyWarble :=
    ⟨mem_postedWarbles.mp (by decide), by decide⟩
  exact ⟨server, run, read_ancestors protobufPlatform_undoes run
    ⟨_, List.mem_cons_self, rfl, rfl⟩ (.reply reply rfl (.root first rfl))⟩

end FuncWarble.Proofs
