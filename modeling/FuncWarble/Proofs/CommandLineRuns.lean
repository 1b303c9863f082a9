import Mathlib
import FuncWarble.Proofs.AncestorChain
import FuncWarble.Proofs.CommandLineUsage

/-! # Command lines side by side

Any number of users may start the tool at the same time. The tool never unhooks and hooks every
method to its own type only, so what one process has hooked stays hooked while the others start,
and an event always runs the method that its command line asks for. The processes therefore act
and print as if their methods had been called one after the other.
-/

namespace FuncWarble.Proofs

open Text Model Machine CommandHelper CommandLineClient

variable {asctime : Int64 → Bytes} {platform : Platform} {packing : Packing}

/-- A process of the tool. -/
abbrev CommandSession := Session RpcOp.Answer FlagOption Bytes

/-- One RPC of a process, with the func server around it. -/
abbrev CommandStep := Transition RpcOp.Answer FlagOption Bytes FuncState

/-- Any number of processes of the tool: their RPCs reach the func server in any order. -/
abbrev CommandLines (asctime : Int64 → Bytes) (platform : Platform) (packing : Packing)
    (store : KeyValueStoreImpl) : List CommandStep → FuncState → List CommandSession → Prop :=
  Sessions (main asctime packing)
    (fun op s answer s' => ∃ tv, Answers platform packing tv op s answer s')
    ⟨FuncServiceImpl.new, store, []⟩

/-- How far a process has come. The methods that it has hooked are bound; `owners` names for every
exchange the process that has made it. -/
inductive Phase (asctime : Int64 → Bytes) (packing : Packing) (func : FuncServiceImpl)
    (exchanges : List Exchange) (owners : List ℕ) (index : ℕ) (flagOption : FlagOption) :
    FuncClientProgram Bytes → Prop
  | hooking {methods : List Method} {rest : FuncClientProgram Bytes}
    (obeys : Obeys asctime packing flagOption rest)
    (bound : ∀ method, method ∈ methods ∨ Bound func method) (before : index ∉ owners) :
    Phase asctime packing func exchanges owners index flagOption (hookAll methods rest)
  | asked {method : Method} {params : ClientEventParams}
    {rest : Bool × ClientEventReply → FuncClientProgram Bytes}
    (usage : Usage flagOption method params) (shows : Shows asctime params method rest)
    (bound : Bound func method) (before : index ∉ owners) :
    Phase asctime packing func exchanges owners index flagOption
      (helperOf packing (typeOf method) params ClientEventReply.new method >>= rest)
  | answered {method : Method} {params : ClientEventParams} {position : ℕ} {tv : Timestamp}
    {status : Status} {answer : WarbleAnswer} (usage : Usage flagOption method params)
    (owned : owners[position]? = some index)
    (made : exchanges[position]? = some ⟨directCall params tv method, status, answer⟩) :
    Phase asctime packing func exchanges owners index flagOption
      (.ret (display asctime (directCall params tv method) (status, answer)))

variable {func func' : FuncServiceImpl} {exchanges : List Exchange} {owners : List ℕ} {index : ℕ}
  {flagOption : FlagOption} {prog : FuncClientProgram Bytes}

/-- Another process may bind methods. -/
theorem Phase.bind (phase : Phase asctime packing func exchanges owners index flagOption prog)
    (bound : ∀ method, Bound func method → Bound func' method) :
    Phase asctime packing func' exchanges owners index flagOption prog := by
  cases phase with
  | hooking obeys own before =>
    exact .hooking obeys (fun method => (own method).imp_right (bound method)) before
  | asked usage shows own before => exact .asked usage shows (bound _ own) before
  | answered usage owned made => exact .answered usage owned made

/-- Another process may make an exchange. -/
theorem Phase.grow (phase : Phase asctime packing func exchanges owners index flagOption prog)
    (exchange : Exchange) {other : ℕ} (different : index ≠ other) :
    Phase asctime packing func (exchanges ++ [exchange]) (owners ++ [other]) index flagOption
      prog := by
  have still : index ∉ owners → index ∉ owners ++ [other] := by
    intro before
    rw [List.mem_append, List.mem_singleton, not_or]
    exact ⟨before, different⟩
  cases phase with
  | hooking obeys bound before => exact .hooking obeys bound (still before)
  | asked usage shows bound before => exact .asked usage shows bound (still before)
  | answered usage owned made =>
    exact .answered usage ((List.getElem?_append_left (List.getElem?_eq_some_iff.mp owned).1).trans
      owned) ((List.getElem?_append_left (List.getElem?_eq_some_iff.mp made).1).trans made)

/-- A process that has ended has shown the result of its exchange, or has refused its command
line. -/
theorem Phase.of_ret {output : Bytes}
    (phase : Phase asctime packing func exchanges owners index flagOption (.ret output)) :
    (∃ (position : ℕ) (exchange : Exchange), owners[position]? = some index ∧
      exchanges[position]? = some exchange ∧
      output = display asctime exchange.call (exchange.status, exchange.answer)) ∨
    ((∀ method params, ¬ Usage flagOption method params) ∧ index ∉ owners ∧
      output = printOptions) := by
  generalize same : Program.ret output = prog at phase
  cases phase with
  | @hooking methods rest obeys bound before =>
    cases methods with
    | cons method methods => contradiction
    | nil =>
      cases obeys with
      | refuse invalid => exact .inr ⟨invalid, before, Program.ret.inj same⟩
      | command usage shows =>
        rw [hookAll, event_eq, Program.call_bind] at same
        contradiction
  | asked usage shows bound before =>
    rw [helperOf_eq packing _ _ _ ⟨0, 0⟩, Program.call_bind] at same
    contradiction
  | answered usage owned made => exact .inl ⟨_, _, owned, made, Program.ret.inj same⟩

/-- The process that owns an exchange has asked for its call. -/
theorem Phase.of_owner (phase : Phase asctime packing func exchanges owners index flagOption prog)
    (once : owners.Nodup) {position : ℕ} (owned : owners[position]? = some index) :
    ∃ exchange ∈ exchanges[position]?, ∃ method params tv, Usage flagOption method params ∧
      exchange.call = directCall params tv method := by
  cases phase with
  | hooking obeys bound before => exact absurd (List.mem_of_getElem? owned) before
  | asked usage shows bound before => exact absurd (List.mem_of_getElem? owned) before
  | @answered method params other tv status answer usage own made =>
    obtain ⟨within, first⟩ := List.getElem?_eq_some_iff.mp own
    obtain ⟨within', second⟩ := List.getElem?_eq_some_iff.mp owned
    obtain rfl := once.getElem_inj_iff.mp (first.trans second.symm)
    exact ⟨_, made, method, params, tv, usage, rfl⟩

/-- The exchanges were served one after the other, each made by the process that `owners` names,
and every process is in a phase. -/
structure Serial (asctime : Int64 → Bytes) (platform : Platform) (packing : Packing) (s : FuncState)
    (sessions : List CommandSession) (exchanges : List Exchange) (owners : List ℕ) : Prop where
  run : Run platform exchanges s.store
  invoked : exchanges.map Exchange.call = s.invoked
  sound : Sound s.func
  once : owners.Nodup
  length : owners.length = exchanges.length
  known : ∀ owner ∈ owners, owner < sessions.length
  phases : ∀ (index : ℕ) session, sessions[index]? = some session →
    Phase asctime packing s.func exchanges owners index session.call session.prog

variable {s s' : FuncState} {sessions : List CommandSession}

theorem Serial.join (serial : Serial asctime platform packing s sessions exchanges owners)
    (flagOption : FlagOption) :
    Serial asctime platform packing s
      (sessions ++ [⟨flagOption, [], main asctime packing flagOption⟩]) exchanges owners where
  run := serial.run
  invoked := serial.invoked
  sound := serial.sound
  once := serial.once
  length := serial.length
  known owner member := by
    have := serial.known owner member
    rw [List.length_append]
    omega
  phases index session found := by
    rcases Nat.lt_or_ge index sessions.length with old | new
    · rw [List.getElem?_append_left old] at found
      exact serial.phases index session found
    · rw [List.getElem?_append_right new] at found
      obtain rfl := List.mem_singleton.mp (List.mem_of_getElem? found)
      obtain ⟨rest, program, obeys⟩ := main_eq asctime packing flagOption
      rw [program]
      refine .hooking obeys (fun method => .inl (mem_hookedMethods method)) fun member => ?_
      have := serial.known index member
      omega

theorem Serial.made (serial : Serial asctime platform packing s sessions exchanges owners)
    {position owner : ℕ} (owned : owners[position]? = some owner) :
    ∃ exchange ∈ exchanges[position]?, ∃ session ∈ sessions[owner]?, ∃ method params tv,
      Usage session.call method params ∧ exchange.call = directCall params tv method := by
  have known := serial.known owner (List.mem_of_getElem? owned)
  have found := List.getElem?_eq_getElem known
  obtain ⟨exchange, made, asked⟩ :=
    (serial.phases owner _ found).of_owner serial.once owned
  exact ⟨exchange, made, _, found, asked⟩

/-- The phases after one process has moved. -/
private theorem phases_set {func : FuncServiceImpl} {exchanges : List Exchange} {owners : List ℕ}
    {index : ℕ} {session : CommandSession} (others : ∀ (other : ℕ) session', other ≠ index →
      sessions[other]? = some session' →
        Phase asctime packing func exchanges owners other session'.call session'.prog)
    (own : Phase asctime packing func exchanges owners index session.call session.prog) :
    ∀ (other : ℕ) session', (sessions.set index session)[other]? = some session' →
      Phase asctime packing func exchanges owners other session'.call session'.prog := by
  intro other session' found
  rcases eq_or_ne other index with rfl | different
  · rw [List.getElem?_set_self'] at found
    obtain ⟨_, _, rfl⟩ := Option.map_eq_some_iff.mp found
    exact own
  · rw [List.getElem?_set_ne different.symm] at found
    exact others other session' different found

/-- A process that hooks a method or asks for one. -/
private theorem Serial.stay (serial : Serial asctime platform packing s sessions exchanges owners)
    {func : FuncServiceImpl} (sound : Sound func)
    (bound : ∀ method, Bound s.func method → Bound func method) {index : ℕ}
    {session : CommandSession}
    (phase : Phase asctime packing func exchanges owners index session.call session.prog) :
    Serial asctime platform packing { s with func := func } (sessions.set index session) exchanges
      owners where
  run := serial.run
  invoked := serial.invoked
  sound := sound
  once := serial.once
  length := serial.length
  known owner member := by
    rw [List.length_set]
    exact serial.known owner member
  phases := phases_set (fun other session' _ found =>
    (serial.phases other session' found).bind bound) phase

/-- A process whose event has been served. -/
private theorem Serial.serve (serial : Serial asctime platform packing s sessions exchanges owners)
    {index : ℕ} (current : index < sessions.length) (before : index ∉ owners)
    {session : CommandSession} {method : Method} {params : ClientEventParams} {tv : Timestamp}
    {status : Status} {answer : WarbleAnswer} {store : KeyValueStoreImpl}
    (usage : Usage session.call method params)
    (served : Serves platform (directCall params tv method) s.store (status, answer) store)
    (shown : session.prog =
      .ret (display asctime (directCall params tv method) (status, answer))) :
    Serial asctime platform packing ⟨s.func, store, s.invoked ++ [directCall params tv method]⟩
      (sessions.set index session) (exchanges ++ [⟨directCall params tv method, status, answer⟩])
      (owners ++ [index]) where
  run := serial.run.serve served
  invoked := by
    rw [List.map_append, serial.invoked]
    rfl
  sound := serial.sound
  once := by
    rw [← List.concat_eq_append]
    exact serial.once.concat before
  length := by
    rw [List.length_append, List.length_append, serial.length]
    rfl
  known owner member := by
    rw [List.length_set]
    rcases List.mem_append.mp member with old | new
    · exact serial.known owner old
    · obtain rfl := List.mem_singleton.mp new
      exact current
  phases := by
    refine phases_set (fun other session' different found =>
      (serial.phases other session' found).grow _ different) ?_
    have owned : (owners ++ [index])[exchanges.length]? = some index := by
      rw [← serial.length]
      exact List.getElem?_concat_length ..
    rw [shown]
    exact .answered usage owned (List.getElem?_concat_length ..)

/-- One RPC of a process. -/
theorem Serial.perform (lawful : packing.Lawful)
    (serial : Serial asctime platform packing s sessions exchanges owners)
    {flagOption : FlagOption} {performed : List (Answered RpcOp.Answer)} {op : RpcOp}
    {next : op.Answer → FuncClientProgram Bytes} {answer : op.Answer} {tv : Timestamp}
    (current : sessions[index]? = some ⟨flagOption, performed, .call op next⟩)
    (answered : Answers platform packing tv op s answer s') : ∃ exchanges owners,
      Serial asctime platform packing s'
        (sessions.set index ⟨flagOption, performed ++ [⟨op, answer⟩], next answer⟩) exchanges
        owners := by
  have phase := serial.phases index _ current
  simp only at phase
  generalize same : Program.call op next = prog at phase
  cases phase with
  | answered usage owned made => contradiction
  | @hooking methods rest obeys bound before =>
    cases methods with
    | cons method methods =>
      obtain ⟨rfl, same⟩ := Program.call.inj same
      obtain rfl := eq_of_heq same
      obtain ⟨result, handled, rfl⟩ := answered
      obtain ⟨rfl, rfl⟩ := handles_hook.mp handled
      have kept : ∀ other, Bound s.func other → Bound (rehook s.func method) other :=
        fun other own => serial.sound.bound_rehook (.inr own)
      refine ⟨exchanges, owners, serial.stay (serial.sound.hook _) kept
        (.hooking obeys (fun other => ?_) before)⟩
      have own := bound other
      rw [List.mem_cons, or_assoc, or_left_comm] at own
      exact own.imp_right serial.sound.bound_rehook
    | nil =>
      cases obeys with
      | refuse invalid => contradiction
      | @command method params rest usage shows =>
        rw [hookAll, event_eq, Program.call_bind] at same
        obtain ⟨rfl, same⟩ := Program.call.inj same
        obtain rfl := eq_of_heq same
        have own := (bound method).resolve_left List.not_mem_nil
        obtain ⟨rfl, rfl⟩ := (answers_query_hooked own).mp answered
        refine ⟨exchanges, owners, serial.stay serial.sound (fun _ own => own) ?_⟩
        simp only [afterQuery_hooked]
        exact .asked usage shows own before
  | @asked method params rest usage shows bound before =>
    rw [helperOf_eq packing _ params _ tv, Program.call_bind] at same
    obtain ⟨rfl, same⟩ := Program.call.inj same
    obtain rfl := eq_of_heq same
    obtain ⟨⟨status, reply⟩, store, served, rfl, rfl⟩ :=
      (answers_event_hooked serial.sound bound).mp answered
    rw [methodCall_packRequest lawful] at served ⊢
    refine ⟨_, _, serial.serve (List.getElem?_eq_some_iff.mp current).1 before usage served ?_⟩
    have delivered := unpackReply_delivery lawful served
    simp only [delivered]
    exact shows tv status reply (replyMethod_of_serves served)

theorem CommandLines.serial (lawful : packing.Lawful) {store : KeyValueStoreImpl}
    (empty : store.storage = ∅) {past : List CommandStep}
    (run : CommandLines asctime platform packing store past s sessions) :
    ∃ exchanges owners, Serial asctime platform packing s sessions exchanges owners := by
  induction run with
  | initial =>
    refine ⟨[], [], .start empty, rfl, Sound.new, List.nodup_nil, rfl, ?_, ?_⟩
    · exact List.forall_mem_nil _
    · intro index session found
      simp at found
  | join flagOption _ ih =>
    obtain ⟨exchanges, owners, serial⟩ := ih
    exact ⟨exchanges, owners, serial.join flagOption⟩
  | perform _ current answered ih =>
    obtain ⟨exchanges, owners, serial⟩ := ih
    obtain ⟨tv, answers⟩ := answered
    exact serial.perform lawful current answers

/-- What the earlier exchanges say that the tool prints for a call. A thread is printed from its
root to the warble that was asked for. -/
def Told (asctime : Int64 → Bytes) (platform : Platform) (before : List Exchange)
    (output : Bytes) : WarbleCall → Prop
  | .registerUser request =>
    (¬ Joined before request.username → output =
      line (str "User " ++ request.username ++ str " has been registered successfully.")) ∧
    (Joined before request.username → output =
      line (str "User " ++ request.username ++ str " already exists."))
  | .warble request tv =>
    (Joined before request.username → request.parentId = [] ∨
        (∃ warble, Posted before warble ∧ warble.id = request.parentId) →
      output = printWarble asctime (WarbleService.newWarble platform request tv)) ∧
    (¬ Joined before request.username → output = line (str "This warble cannot be posted"))
  | .follow request =>
    (Joined before request.username ∧ Joined before request.toFollow ∧
      request.username ≠ request.toFollow → output = []) ∧
    (¬ (Joined before request.username ∧ Joined before request.toFollow ∧
      request.username ≠ request.toFollow) → output = line (str "Follow request failed."))
  | .read request =>
    (Joined before request.username → ∀ warble replies, AncestorChain before (warble :: replies) →
      warble.id = request.warbleId → output =
        line (str "Current warble thread with warble id : [" ++ request.warbleId ++
          str "] has following warbles.") ++
        (replies.reverse ++ [warble]).flatMap (printWarble asctime) ++
        line (str "End of warble thread")) ∧
    (¬ Joined before request.username → output =
      line (str "The warble with warble id : [" ++ request.warbleId ++ str "] does not exist."))
  | .profile request =>
    (Joined before request.username → output = printUser request.username
      (followingOf before request.username) (followersOf before request.username)) ∧
    (¬ Joined before request.username → output =
      line (str "Current username does not exist in system"))

variable {before : List Exchange} {server server' : KeyValueStoreImpl} {call : WarbleCall}
  {result : WarbleResult}

/-- A registered user reads the chain of a warble. -/
theorem AncestorChain.serves (undoes : platform.Undoes) (run : Run platform before server)
    {username : Bytes} (joined : Joined before username) {warble : Warble} {replies : List Warble}
    (chain : AncestorChain before (warble :: replies)) :
    Serves platform (.read ⟨warble.id, username⟩) server (Status.OK, .read ⟨warble :: replies⟩)
      server := by
  have single : PostedOnce before warble := by
    cases chain with
    | root single _ => exact single
    | reply single _ _ => exact single
  have found : Found server warble.id := by
    rw [Found, single.get_id run]
    exact List.cons_ne_nil _ _
  have user := (run.found_user_iff username).mpr joined
  rw [serves_read, if_neg (not_not.mpr user), if_neg (not_not.mpr found), ← lookup_of_found found]
  exact chain.yields run undoes []

/-- The results of the methods are displayed as the earlier exchanges say. -/
theorem Run.told (undoes : platform.Undoes) (run : Run platform before server)
    (served : Serves platform call server result server') :
    Told asctime platform before (display asctime call result) call := by
  cases call with
  | registerUser request =>
    obtain ⟨rfl, rfl⟩ := serves_registerUser.mp served
    rw [Told, ← run.found_user_iff, registerUser_run]
    split_ifs with user
    · exact ⟨fun other => absurd user other, fun _ => rfl⟩
    · exact ⟨fun _ => rfl, fun other => absurd other user⟩
  | warble request tv =>
    obtain ⟨rfl, rfl⟩ := serves_warble.mp served
    rw [Told, ← run.found_user_iff, warbleMethod_run]
    split_ifs with user parent
    · refine ⟨fun _ => ?_, fun other => absurd user other⟩
      rintro (root | ⟨warble, posted, same⟩)
      · exact absurd root parent.1
      · refine absurd ?_ parent.2
        rw [run.holdsEntries.found_iff, ← same]
        exact ⟨_, posted_iff.mp posted, rfl⟩
    · exact ⟨fun _ _ => rfl, fun other => absurd user other⟩
    · exact ⟨fun other => absurd other user, fun _ => rfl⟩
  | follow request =>
    obtain ⟨rfl, rfl⟩ := serves_follow.mp served
    rw [Told, ← run.found_user_iff, ← run.found_user_iff, follow_run]
    split_ifs with users own
    · refine ⟨?_, fun _ => rfl⟩
      rintro ⟨user, toFollow, _⟩
      exact absurd users (not_or.mpr ⟨not_not.mpr user, not_not.mpr toFollow⟩)
    · exact ⟨fun all => absurd own all.2.2, fun _ => rfl⟩
    · obtain ⟨user, toFollow⟩ := not_or.mp users
      exact ⟨fun _ => rfl, fun other => absurd ⟨not_not.mp user, not_not.mp toFollow, own⟩ other⟩
  | read request =>
    obtain ⟨warbleId, username⟩ := request
    refine ⟨fun joined warble replies chain same => ?_, fun stranger => ?_⟩
    · obtain rfl : warble.id = warbleId := same
      obtain ⟨rfl, _⟩ := Program.Outcome.unique served (chain.serves undoes run joined)
      rw [← List.reverse_cons]
      rfl
    · rw [← run.found_user_iff] at stranger
      rw [serves_read, if_pos stranger] at served
      obtain ⟨rfl, _⟩ := served
      rfl
  | profile request =>
    obtain ⟨rfl, rfl⟩ := serves_profile.mp served
    rw [Told, ← run.found_user_iff, profile_run, ← run.get_following, ← run.get_followedBy]
    split_ifs with user
    · exact ⟨fun _ => rfl, fun other => absurd user other⟩
    · exact ⟨fun other => absurd other user, fun _ => rfl⟩

/-- The processes have acted as if the exchanges had been made one after the other: one for each
valid command line whose event has been handled, made by the process that `owners` names. -/
structure Serialized (asctime : Int64 → Bytes) (platform : Platform) (s : FuncState)
    (sessions : List CommandSession) (exchanges : List Exchange) (owners : List ℕ) : Prop where
  run : Run platform exchanges s.store
  invoked : exchanges.map Exchange.call = s.invoked
  once : owners.Nodup
  length : owners.length = exchanges.length
  made : ∀ (position owner : ℕ), owners[position]? = some owner →
    ∃ exchange ∈ exchanges[position]?, ∃ session ∈ sessions[owner]?, ∃ method params tv,
      Usage session.call method params ∧ exchange.call = directCall params tv method
  shown : ∀ (index : ℕ), ∀ session ∈ sessions[index]?, ∀ output, session.prog = .ret output →
    (∃ (position : ℕ) (exchange : Exchange), owners[position]? = some index ∧
      exchanges[position]? = some exchange ∧
      output = display asctime exchange.call (exchange.status, exchange.answer) ∧
      Told asctime platform (exchanges.take position) output exchange.call) ∨
    ((∀ method params, ¬ Usage session.call method params) ∧ index ∉ owners ∧
      output = printOptions)

/-- Command lines are serializable. However the RPCs of any number of processes of the tool
interleave, a history of calls leads to the same store, and a process that has ended has printed
what the calls before its own say, or the options if its command line is invalid. -/
theorem command_lines_serializable (lawful : packing.Lawful) (undoes : platform.Undoes)
    {store : KeyValueStoreImpl} (empty : store.storage = ∅) {past : List CommandStep}
    (run : CommandLines asctime platform packing store past s sessions) :
    ∃ exchanges owners, Serialized asctime platform s sessions exchanges owners := by
  obtain ⟨exchanges, owners, serial⟩ := CommandLines.serial lawful empty run
  refine ⟨exchanges, owners, serial.run, serial.invoked, serial.once, serial.length,
    fun _ _ owned => serial.made owned, ?_⟩
  intro index session found output ended
  have phase := serial.phases index session found
  rw [ended] at phase
  rcases phase.of_ret with ⟨position, exchange, owned, made, shown⟩ | refused
  · refine .inl ⟨position, exchange, owned, made, shown, ?_⟩
    obtain ⟨within, rfl⟩ := List.getElem?_eq_some_iff.mp made
    have split : exchanges = exchanges.take position ++
        exchanges[position] :: exchanges.drop (position + 1) := by
      rw [← List.drop_eq_getElem_cons within, List.take_append_drop]
    obtain ⟨server, server', earlier, served⟩ := serial.run.split split
    rw [shown]
    exact earlier.told undoes served
  · exact .inr refused

/-- The RPCs of the processes, computed on the func server. -/
private def respond (op : RpcOp) (s : FuncState) : Option (op.Answer × FuncState) :=
  (Program.execute funcHandler (FuncCall.body protobufPlatform protobufPacking) 0
    ((op.call ⟨0, 0⟩).program protobufPlatform protobufPacking) s).map fun (result, s') =>
      (op.deliver result, s')

private theorem answers_of_respond (op : RpcOp) (s : FuncState) (answer : op.Answer)
    (s' : FuncState) (responded : respond op s = some (answer, s')) :
    ∃ tv, Answers protobufPlatform protobufPacking tv op s answer s' := by
  obtain ⟨⟨result, reached⟩, executed, same⟩ := Option.map_eq_some_iff.mp responded
  obtain ⟨rfl, rfl⟩ := Prod.mk.inj same
  exact ⟨⟨0, 0⟩, result, Program.outcome_of_execute executed, rfl⟩

/-- What the process has printed, if it has ended. -/
def printed (session : CommandSession) : Option Bytes :=
  match session.prog with
  | .ret output => some output
  | .call _ _ => none

private def registersAda : FlagOption := { noFlags with registeruser := str "ada" }

private def showsAda : FlagOption := { noFlags with user := str "ada", profile := true }

/-- One process registers "ada", another one shows her profile, and they take turns. -/
private def takeTurns : Option (List CommandStep × FuncState × List CommandSession) :=
  Session.schedule respond (List.replicate 7 [0, 1]).flatten
    ([], ⟨FuncServiceImpl.new, ⟨∅, [], false, none⟩, []⟩, [registersAda, showsAda].map
      fun flagOption => ⟨flagOption, [], main (fun _ => []) protobufPacking flagOption⟩)

private theorem takeTurns_prints : takeTurns.map (fun reached =>
      (reached.1.map fun step => step.call.profile, reached.2.2.map printed)) =
    some ((List.replicate 7 [false, true]).flatten,
      [some (line (str "User ada has been registered successfully.")),
        some (display (fun _ => []) (.profile ⟨str "ada"⟩) (Status.OK, .profile ⟨[], []⟩))]) := by
  decide +kernel

/-- The RPCs of the two processes alternate, and both have ended. -/
theorem command_lines_serializable_example : ∃ past s sessions,
    CommandLines (fun _ => []) protobufPlatform protobufPacking ⟨∅, [], false, none⟩ past s
      sessions ∧
    (past.map fun step => step.call.profile) = (List.replicate 7 [false, true]).flatten ∧
    sessions.map printed = [some (line (str "User ada has been registered successfully.")),
      some (display (fun _ => []) (.profile ⟨str "ada"⟩) (Status.OK, .profile ⟨[], []⟩))] ∧
    ∃ exchanges owners, Serialized (fun _ => []) protobufPlatform s sessions exchanges owners := by
  obtain ⟨⟨past, s, sessions⟩, ran, shown⟩ := Option.map_eq_some_iff.mp takeTurns_prints
  obtain ⟨order, outputs⟩ := Prod.mk.inj shown
  have started : CommandLines (fun _ => []) protobufPlatform protobufPacking
      ⟨∅, [], false, none⟩ [] _ _ := (Sessions.initial.join registersAda).join showsAda
  have run : CommandLines (fun _ => []) protobufPlatform protobufPacking
      ⟨∅, [], false, none⟩ past s sessions :=
    started.of_schedule answers_of_respond ran
  exact ⟨past, s, sessions, run, order, outputs,
    command_lines_serializable protobufPacking_lawful protobufPlatform_undoes rfl run⟩

end FuncWarble.Proofs
