import Mathlib
import FuncWarble.Model.CommandLineClient
import FuncWarble.Proofs.TransparentFunc

/-! # The command line tool from end to end

A command line either is one of the six that `PrintOptions` lists or makes the tool print the list.
The tool first hooks the five functions, so whatever other clients have done to the hook table
before, its event runs the method that the command asks for, and it prints what this method has
returned.
-/

namespace FuncWarble.Proofs

open Text Model Machine CommandHelper CommandLineClient

variable {asctime : Int64 → Bytes} {platform : Platform} {packing : Packing} {tv : Timestamp}
  {flagOption : FlagOption} {method : Method} {params : ClientEventParams}

/-- A command line without flags. -/
def noFlags : FlagOption := ⟨[], [], [], [], [], [], false⟩

/-- The valid command lines, with the method that each asks for and its parameters. -/
inductive Usage : FlagOption → Method → ClientEventParams → Prop
  | register {username : Bytes} (named : username ≠ []) :
    Usage { noFlags with registeruser := username } .registerUser
      { ClientEventParams.new with username := username }
  | post {username text : Bytes} (named : username ≠ []) (given : text ≠ []) :
    Usage { noFlags with user := username, warble := text } .warbleMethod
      { ClientEventParams.new with username := username, warbleText := text }
  | reply {username text parent : Bytes} (named : username ≠ []) (given : text ≠ [])
    (replied : parent ≠ []) :
    Usage { noFlags with user := username, warble := text, reply := parent } .warbleMethod
      { ClientEventParams.new with
        username := username
        warbleText := text
        parentWarbleId := parent }
  | follow {username toFollow : Bytes} (named : username ≠ []) (given : toFollow ≠ []) :
    Usage { noFlags with user := username, follow := toFollow } .follow
      { ClientEventParams.new with username := username, toFollow := toFollow }
  | read {username warbleId : Bytes} (named : username ≠ []) (given : warbleId ≠ []) :
    Usage { noFlags with user := username, read := warbleId } .read
      { ClientEventParams.new with username := username, warbleId := warbleId }
  | profile {username : Bytes} (named : username ≠ []) :
    Usage { noFlags with user := username, profile := true } .profile
      { ClientEventParams.new with username := username }

/-- What the tool prints for a call and its result. -/
def display (asctime : Int64 → Bytes) : WarbleCall → WarbleResult → Bytes
  | .registerUser request, (status, _) =>
    if status.isOk then
      line (str "User " ++ request.username ++ str " has been registered successfully.")
    else line (str "User " ++ request.username ++ str " already exists.")
  | .warble _ _, (status, .warble reply) =>
    if status.isOk then printWarble asctime (reply.warble.getD Warble.empty)
    else line (str "This warble cannot be posted")
  | .follow _, (status, _) => if status.isOk then [] else line (str "Follow request failed.")
  | .read request, (status, .read reply) =>
    if reply.warbles = [] then
      line (str "The warble with warble id : [" ++ request.warbleId ++ str "] does not exist.")
    else if status.isOk then
      line (str "Current warble thread with warble id : [" ++ request.warbleId ++
        str "] has following warbles.") ++
      reply.warbles.reverse.flatMap (printWarble asctime) ++ line (str "End of warble thread")
    else []
  | .profile request, (status, .profile reply) =>
    if status.isOk then printUser request.username reply.following reply.followers
    else line (str "Current username does not exist in system")
  | _, _ => []

/-- The event type to which the tool hooks a method. -/
def typeOf : Method → Int32
  | .registerUser => registerType
  | .warbleMethod => warbleType
  | .follow => followType
  | .read => readType
  | .profile => profileType

theorem typeOf_inj {other : Method} : typeOf method = typeOf other ↔ method = other := by
  cases method <;> cases other <;> decide

/-- The methods in the order in which the constructor hooks them. -/
def hookedMethods : List Method := [.registerUser, .warbleMethod, .follow, .read, .profile]

theorem mem_hookedMethods (method : Method) : method ∈ hookedMethods := by
  cases method <;> decide

/-- Hook the methods to their types, and go on. -/
def hookAll : List Method → FuncClientProgram Bytes → FuncClientProgram Bytes
  | [], rest => rest
  | method :: methods, rest =>
    .call (.hook ⟨typeOf method, methodName method⟩) fun _ => hookAll methods rest

/-- What is left of the tool after its event prints the result of the method, although it sees only
the flag and the reply structure. -/
def Shows (asctime : Int64 → Bytes) (params : ClientEventParams) (method : Method)
    (rest : Bool × ClientEventReply → FuncClientProgram Bytes) : Prop :=
  ∀ tv status answer, replyMethod answer = method →
    rest (status.isOk, written ClientEventReply.new answer) =
      .ret (display asctime (directCall params tv method) (status, answer))

/-- The program of the tool after its constructor. -/
inductive Obeys (asctime : Int64 → Bytes) (packing : Packing) (flagOption : FlagOption) :
    FuncClientProgram Bytes → Prop
  | command {method : Method} {params : ClientEventParams}
    {rest : Bool × ClientEventReply → FuncClientProgram Bytes}
    (usage : Usage flagOption method params) (shows : Shows asctime params method rest) :
    Obeys asctime packing flagOption
      (FuncClientImpl.event packing (typeOf method) params ClientEventReply.new >>= rest)
  | refuse (invalid : ∀ method params, ¬ Usage flagOption method params) :
    Obeys asctime packing flagOption (.ret printOptions)

/-- `ParseFlag` finds no command in an invalid command line. -/
private theorem usage_of_parseFlag (found : parseFlag flagOption ≠ .otherFlag) :
    ∃ method params, Usage flagOption method params := by
  obtain ⟨registeruser, user, warble, reply, follow, read, profile⟩ := flagOption
  simp only [parseFlag] at found
  split_ifs at found with register post answer follows reads profiles
  all_goals simp only [ne_eq, List.length_eq_zero_iff, Bool.and_eq_true, decide_eq_true_eq,
    Bool.not_eq_true', decide_eq_false_iff_not, not_not] at *
  · obtain ⟨⟨⟨⟨⟨⟨named, rfl⟩, rfl⟩, rfl⟩, rfl⟩, rfl⟩, rfl⟩ := register
    exact ⟨_, _, .register named⟩
  · obtain ⟨⟨⟨⟨⟨⟨rfl, named⟩, given⟩, rfl⟩, rfl⟩, rfl⟩, rfl⟩ := post
    exact ⟨_, _, .post named given⟩
  · obtain ⟨⟨⟨⟨⟨⟨rfl, named⟩, given⟩, replied⟩, rfl⟩, rfl⟩, rfl⟩ := answer
    exact ⟨_, _, .reply named given replied⟩
  · obtain ⟨⟨⟨⟨⟨⟨rfl, named⟩, rfl⟩, rfl⟩, given⟩, rfl⟩, rfl⟩ := follows
    exact ⟨_, _, .follow named given⟩
  · obtain ⟨⟨⟨⟨⟨⟨rfl, named⟩, rfl⟩, rfl⟩, rfl⟩, given⟩, rfl⟩ := reads
    exact ⟨_, _, .read named given⟩
  · obtain ⟨⟨⟨⟨⟨⟨rfl, named⟩, rfl⟩, rfl⟩, rfl⟩, rfl⟩, rfl⟩ := profiles
    exact ⟨_, _, .profile named⟩
  · contradiction

/-- The handler sends the event of the method, and what it prints shows the result. -/
def Displays (asctime : Int64 → Bytes) (packing : Packing) (method : Method)
    (params : ClientEventParams) (handler : FuncClientProgram (Bool × Bytes)) : Prop :=
  ∃ rest, (handler >>= fun shown => .ret shown.2) =
    FuncClientImpl.event packing (typeOf method) params ClientEventReply.new >>= rest ∧
      Shows asctime params method rest

private theorem registerHandler_displays (username : Bytes) :
    Displays asctime packing .registerUser { ClientEventParams.new with username := username }
      (registerHandler packing username) := by
  rw [Displays, registerHandler, Program.bind_assoc]
  exact ⟨_, rfl, fun tv status answer _ => rfl⟩

private theorem warbleHandler_displays (username text parent : Bytes) :
    Displays asctime packing .warbleMethod
      { ClientEventParams.new with
        username := username
        warbleText := text
        parentWarbleId := parent }
      (warbleHandler asctime packing username text parent) := by
  rw [Displays, warbleHandler, Program.bind_assoc]
  refine ⟨_, rfl, fun tv status answer same => ?_⟩
  cases answer with
  | warble reply => rfl
  | _ => contradiction

private theorem followHandler_displays (username toFollow : Bytes) :
    Displays asctime packing .follow
      { ClientEventParams.new with username := username, toFollow := toFollow }
      (followHandler packing username toFollow) := by
  rw [Displays, followHandler, Program.bind_assoc]
  refine ⟨_, rfl, fun tv status answer _ => ?_⟩
  simp only [directCall, display]
  cases status.isOk <;> rfl

private theorem readHandler_displays (username warbleId : Bytes) :
    Displays asctime packing .read
      { ClientEventParams.new with username := username, warbleId := warbleId }
      (readHandler asctime packing username warbleId) := by
  rw [Displays, readHandler, Program.bind_assoc]
  refine ⟨_, rfl, fun tv status answer same => ?_⟩
  cases answer with
  | read reply =>
    obtain ⟨warbles⟩ := reply
    cases warbles with
    | nil => rfl
    | cons first others => rfl
  | _ => contradiction

private theorem profileHandler_displays (username : Bytes) :
    Displays asctime packing .profile { ClientEventParams.new with username := username }
      (profileHandler packing username) := by
  rw [Displays, profileHandler, Program.bind_assoc]
  refine ⟨_, rfl, fun tv status answer same => ?_⟩
  cases answer with
  | profile reply => rfl
  | _ => contradiction

/-- A valid command line runs the handler of its method. -/
private theorem main_of_usage (usage : Usage flagOption method params) :
    ∃ handler, main asctime packing flagOption =
        hookAll hookedMethods (handler >>= fun shown => .ret shown.2) ∧
      Displays asctime packing method params handler := by
  cases usage with
  | @register username named =>
    have flag : parseFlag { noFlags with registeruser := username } = .registerFlag := by
      simp [parseFlag, noFlags, named]
    exact ⟨_, by rw [main, flag]; rfl, registerHandler_displays username⟩
  | @post username text named given =>
    have flag : parseFlag { noFlags with user := username, warble := text } = .warbleFlag := by
      simp [parseFlag, noFlags, named, given]
    exact ⟨_, by rw [main, flag]; rfl, warbleHandler_displays username text []⟩
  | @reply username text parent named given replied =>
    have flag : parseFlag { noFlags with user := username, warble := text, reply := parent } =
        .replyFlag := by
      simp [parseFlag, noFlags, named, given, replied]
    exact ⟨_, by rw [main, flag]; rfl, warbleHandler_displays username text parent⟩
  | @follow username toFollow named given =>
    have flag : parseFlag { noFlags with user := username, follow := toFollow } = .followFlag := by
      simp [parseFlag, noFlags, named, given]
    exact ⟨_, by rw [main, flag]; rfl, followHandler_displays username toFollow⟩
  | @read username warbleId named given =>
    have flag : parseFlag { noFlags with user := username, read := warbleId } = .readFlag := by
      simp [parseFlag, noFlags, named, given]
    exact ⟨_, by rw [main, flag]; rfl, readHandler_displays username warbleId⟩
  | @profile username named =>
    have flag : parseFlag { noFlags with user := username, profile := true } = .profileFlag := by
      simp [parseFlag, noFlags, named]
    exact ⟨_, by rw [main, flag]; rfl, profileHandler_displays username⟩

private theorem main_of_invalid (invalid : ∀ method params, ¬ Usage flagOption method params) :
    main asctime packing flagOption = hookAll hookedMethods (.ret printOptions) := by
  have flag : parseFlag flagOption = .otherFlag := by
    by_contra found
    obtain ⟨method, params, usage⟩ := usage_of_parseFlag found
    exact invalid method params usage
  rw [main, flag]
  rfl

/-- The tool hooks the five functions, and then runs its command or prints the options. -/
theorem main_eq (asctime : Int64 → Bytes) (packing : Packing) (flagOption : FlagOption) :
    ∃ rest, main asctime packing flagOption = hookAll hookedMethods rest ∧
      Obeys asctime packing flagOption rest := by
  by_cases valid : ∃ method params, Usage flagOption method params
  · obtain ⟨method, params, usage⟩ := valid
    obtain ⟨handler, program, rest, sent, shows⟩ :=
      @main_of_usage asctime packing flagOption method params usage
    rw [sent] at program
    exact ⟨_, program, .command usage shows⟩
  · have invalid : ∀ method params, ¬ Usage flagOption method params := fun method params usage =>
      valid ⟨method, params, usage⟩
    exact ⟨_, main_of_invalid invalid, .refuse invalid⟩

variable {s s' : FuncState}

/-- The type of the method is hooked to it. -/
def Bound (func : FuncServiceImpl) (method : Method) : Prop :=
  func.hookMap.lookup (typeOf method) = some (methodName method)

/-- The tables after one method has been hooked to its type. -/
def rehook (func : FuncServiceImpl) (method : Method) : FuncServiceImpl :=
  (func.hook ⟨typeOf method, methodName method⟩).2

theorem Sound.rehook_eq {func : FuncServiceImpl} (sound : Sound func) (method : Method) :
    rehook func method =
      { func with hookMap := func.hookMap.insert (typeOf method) (methodName method) } := by
  rw [rehook, sound.hook_eq, if_pos (Proofs.mem_functionNames.mpr ⟨method, rfl⟩)]

/-- Hooking a method binds it and keeps the others bound. -/
theorem Sound.bound_rehook {func : FuncServiceImpl} (sound : Sound func) {method other : Method}
    (bound : other = method ∨ Bound func other) : Bound (rehook func method) other := by
  rw [Bound, sound.rehook_eq]
  rcases eq_or_ne other method with rfl | different
  · exact Finmap.lookup_insert _
  · rw [Finmap.lookup_insert_of_ne _ fun same => different (typeOf_inj.mp same)]
    exact bound.resolve_left different

/-- The tables after the constructor of the tool has run. -/
def rehooked (func : FuncServiceImpl) : FuncServiceImpl := hookedMethods.foldl rehook func

private theorem Sound.foldl_rehook {func : FuncServiceImpl} (sound : Sound func)
    (methods : List Method) : Sound (methods.foldl rehook func) ∧
      ∀ method, method ∈ methods ∨ Bound func method →
        Bound (methods.foldl rehook func) method := by
  induction methods generalizing func with
  | nil => exact ⟨sound, fun method bound => bound.resolve_left List.not_mem_nil⟩
  | cons first methods ih =>
    have first' : Sound (rehook func first) := sound.hook _
    obtain ⟨sound', bound'⟩ := ih first'
    refine ⟨sound', fun method bound => bound' method ?_⟩
    rw [List.mem_cons, or_assoc, or_left_comm] at bound
    exact bound.imp_right sound.bound_rehook

theorem Sound.rehooked {func : FuncServiceImpl} (sound : Sound func) :
    Sound (rehooked func) ∧ ∀ method, Bound (Proofs.rehooked func) method := by
  obtain ⟨sound', bound⟩ := sound.foldl_rehook hookedMethods
  exact ⟨sound', fun method => bound method (.inl (mem_hookedMethods method))⟩

theorem hookAll_executes {methods : List Method} {rest : FuncClientProgram Bytes}
    {output : Bytes} :
    (hookAll methods rest).Executes (Answers platform packing tv) s output s' ↔
      rest.Executes (Answers platform packing tv) { s with func := methods.foldl rehook s.func }
        output s' := by
  induction methods generalizing s with
  | nil => rfl
  | cons method methods ih =>
    rw [hookAll, Program.Executes]
    simp only [ih]
    constructor
    · rintro ⟨_, _, ⟨result, handled, rfl⟩, ended⟩
      obtain ⟨rfl, rfl⟩ := handles_hook.mp handled
      exact ended
    · exact fun ended => ⟨_, _, answers_hook, ended⟩

/-- An event whose type is hooked to a method calls this method. -/
theorem event_executes (lawful : packing.Lawful) (sound : Sound s.func) {eventType : Int32}
    (hooked : s.func.hookMap.lookup eventType = some (methodName method))
    {reply reply' : ClientEventReply} {returned : Bool} :
    (FuncClientImpl.event packing eventType params reply).Executes (Answers platform packing tv) s
        (returned, reply') s' ↔
      CalledDirectly platform params tv method reply s returned reply' s' := by
  rw [event_eq, Program.Executes]
  simp only [answers_query_hooked hooked]
  rw [← helperOf_executes lawful sound hooked, ← afterQuery_hooked]
  constructor
  · rintro ⟨_, _, ⟨rfl, rfl⟩, ended⟩
    exact ended
  · exact fun ended => ⟨_, _, ⟨rfl, rfl⟩, ended⟩

/-- A command that has hooked its method calls it and displays the result. -/
private theorem command_executes (lawful : packing.Lawful) (sound : Sound s.func)
    (bound : Bound s.func method) {rest : Bool × ClientEventReply → FuncClientProgram Bytes}
    (shows : Shows asctime params method rest) {output : Bytes} :
    (FuncClientImpl.event packing (typeOf method) params ClientEventReply.new >>= rest).Executes
        (Answers platform packing tv) s output s' ↔
      ∃ result store, Serves platform (directCall params tv method) s.store result store ∧
        output = display asctime (directCall params tv method) result ∧
        s' = ⟨s.func, store, s.invoked ++ [directCall params tv method]⟩ := by
  rw [Program.executes_bind]
  constructor
  · rintro ⟨⟨returned, reply'⟩, middle, called, ended⟩
    obtain ⟨status, answer, store, served, rfl, rfl, rfl⟩ :=
      (event_executes lawful sound bound).mp called
    rw [shows tv status answer (replyMethod_of_serves served)] at ended
    obtain ⟨rfl, rfl⟩ := ended
    exact ⟨(status, answer), store, served, rfl, rfl⟩
  · rintro ⟨⟨status, answer⟩, store, served, rfl, rfl⟩
    refine ⟨_, _, (event_executes lawful sound bound).mpr ⟨status, answer, store, served, rfl, rfl,
      rfl⟩, ?_⟩
    rw [shows tv status answer (replyMethod_of_serves served)]
    exact ⟨rfl, rfl⟩

/-- A valid command line, on sound tables. -/
theorem main_executes (lawful : packing.Lawful) (sound : Sound s.func)
    (usage : Usage flagOption method params) {output : Bytes} :
    (main asctime packing flagOption).Executes (Answers platform packing tv) s output s' ↔
      ∃ result store, Serves platform (directCall params tv method) s.store result store ∧
        output = display asctime (directCall params tv method) result ∧
        s' = ⟨rehooked s.func, store, s.invoked ++ [directCall params tv method]⟩ := by
  obtain ⟨sound', bound⟩ := sound.rehooked
  obtain ⟨handler, program, rest, sent, shows⟩ :=
    @main_of_usage asctime packing flagOption method params usage
  rw [sent] at program
  rw [program, hookAll_executes]
  exact command_executes lawful sound' (bound method) shows

/-- The tool, with no other RPC in between, after any history of RPCs of other clients: a valid
command line calls its method once and shows the result, and an invalid one only prints the
options. Either way the five functions are hooked again. -/
theorem command_line_alone {past : List FuncExchange} (lawful : packing.Lawful)
    (run : FuncRun platform packing past s) (flagOption : FlagOption) (tv : Timestamp)
    (output : Bytes) (s' : FuncState) :
    (main asctime packing flagOption).Executes (Answers platform packing tv) s output s' ↔
      (∃ method params result store, Usage flagOption method params ∧
        Serves platform (directCall params tv method) s.store result store ∧
        output = display asctime (directCall params tv method) result ∧
        s' = ⟨rehooked s.func, store, s.invoked ++ [directCall params tv method]⟩) ∨
      ((∀ method params, ¬ Usage flagOption method params) ∧ output = printOptions ∧
        s' = { s with func := rehooked s.func }) := by
  constructor
  · intro ended
    by_cases valid : ∃ method params, Usage flagOption method params
    · obtain ⟨method, params, usage⟩ := valid
      obtain ⟨result, store, served, shown, reached⟩ :=
        (main_executes lawful run.sound usage).mp ended
      exact .inl ⟨method, params, result, store, usage, served, shown, reached⟩
    · have invalid : ∀ method params, ¬ Usage flagOption method params := fun method params usage =>
        valid ⟨method, params, usage⟩
      rw [main_of_invalid invalid, hookAll_executes] at ended
      obtain ⟨rfl, rfl⟩ := ended
      exact .inr ⟨invalid, rfl, rfl⟩
  · rintro (⟨method, params, result, store, usage, served, rfl, rfl⟩ | ⟨invalid, rfl, rfl⟩)
    · exact (main_executes lawful run.sound usage).mpr ⟨result, store, served, rfl, rfl⟩
    · rw [main_of_invalid invalid, hookAll_executes]
      exact ⟨rfl, rfl⟩

/-- Another client has hooked the type of registration to `follow`; the tool registers all the
same. -/
theorem command_line_alone_example : ∃ s s',
    FuncRun protobufPlatform protobufPacking
      [⟨.hook ⟨registerType, methodName .follow⟩, .replied Status.OK (.hook {})⟩] s ∧
    s.func.hookMap.lookup registerType = some (methodName .follow) ∧
    (main (fun _ => []) protobufPacking { noFlags with registeruser := str "ada" }).Executes
      (Answers protobufPlatform protobufPacking ⟨0, 0⟩) s
      (line (str "User ada has been registered successfully.")) s' ∧
    Found s'.store (nameKey .user (str "ada")) := by
  refine ⟨_, _, FuncRun.hook_first ⟨∅, [], false, none⟩ registerType .follow, ?_,
    (command_line_alone protobufPacking_lawful (FuncRun.hook_first ⟨∅, [], false, none⟩ registerType
      .follow) _ ⟨0, 0⟩ _ _).mpr (.inl ⟨.registerUser, _, _, _, .register (by decide),
        serves_registerUser.mpr ⟨rfl, rfl⟩, ?_, rfl⟩), ?_⟩
  · decide
  · decide
  · decide

end FuncWarble.Proofs
