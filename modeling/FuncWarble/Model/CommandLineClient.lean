import Mathlib
import FuncWarble.Model.CommandLine
import FuncWarble.Model.FuncClient

/-! # The command line tool

Every start of the tool hooks the five functions, reads one command off its flags and runs the
handler of that command. A handler sends one event and prints what came of it. Its program returns
what it has sent to `std::cout`.
-/

namespace FuncWarble.Model

open Text Machine

namespace CommandHelper

/-- `FlagOption`: the flags of the command line, empty where they are not given. -/
structure FlagOption where
  registeruser : Bytes
  user : Bytes
  warble : Bytes
  reply : Bytes
  follow : Bytes
  read : Bytes
  profile : Bool
deriving DecidableEq, Repr

/-- What `ParseFlag` returns. -/
inductive Flag where
  | registerFlag
  | userFlag
  | warbleFlag
  | replyFlag
  | followFlag
  | readFlag
  | profileFlag
  | otherFlag
deriving DecidableEq, Repr

/-- `ParseFlag`. -/
def parseFlag (flagOption : FlagOption) : Flag :=
  let registeruser : Bool := flagOption.registeruser.length ≠ 0
  let user : Bool := flagOption.user.length ≠ 0
  let warble : Bool := flagOption.warble.length ≠ 0
  let reply : Bool := flagOption.reply.length ≠ 0
  let follow : Bool := flagOption.follow.length ≠ 0
  let read : Bool := flagOption.read.length ≠ 0
  let profile := flagOption.profile
  if registeruser && !user && !warble && !reply && !follow && !read && !profile then .registerFlag
  else if !registeruser && user && warble && !reply && !follow && !read && !profile then .warbleFlag
  else if !registeruser && user && warble && reply && !follow && !read && !profile then .replyFlag
  else if !registeruser && user && !warble && !reply && follow && !read && !profile then .followFlag
  else if !registeruser && user && !warble && !reply && !follow && read && !profile then .readFlag
  else if !registeruser && user && !warble && !reply && !follow && !read && profile then
    .profileFlag
  else .otherFlag

/-- `PrintUser`. -/
def printUser (username : Bytes) (following followers : List Bytes) : Bytes :=
  line (str "=====================user=====================") ++
  str "User : " ++ username ++ str " is following : " ++
  line (following.flatMap fun followingUser => followingUser ++ str " ") ++
  str "User : " ++ username ++ str " is followed by :" ++
  line (followers.flatMap fun follower => follower ++ str " ") ++
  line (str "=====================user=====================")

/-- `PrintOptions`. -/
def printOptions : Bytes :=
  str "Commands are invalid. " ++
  line (str "Valid flag options are as following : ") ++
  line (str "Register a user : ./warble --registeruser <USER_NAME>") ++
  line (str "Post a warble : ./warble --user <USER_NAME> --warble <WARBLE_TEXT>") ++
  line (str "Reply a warble : ./warble --user <USER_NAME> --warble <WARBLE_TEXT> " ++
    str "--reply <WARBLE_ID>") ++
  line (str "Follow a user : ./warble --user <USER_NAME> --follow <USER_NAME_TO_FOLLOW>") ++
  line (str "Read a warble thread : ./warble --user <USER_NAME> --read <WARBLE_ID>") ++
  line (str "Show profile of a user : ./warble --user <USER_NAME> --profile")

end CommandHelper

/-- A `ClientEventParams` as it is constructed. -/
def ClientEventParams.new : ClientEventParams := ⟨[], [], [], [], []⟩

/-- A `ClientEventReply` as it is constructed. -/
def ClientEventReply.new : ClientEventReply := ⟨Warble.empty, [], [], []⟩

namespace CommandLineClient

open CommandHelper

def registerType : Int32 := 0
def warbleType : Int32 := 1
def followType : Int32 := 2
def readType : Int32 := 3
def profileType : Int32 := 4

/-- `CommandLineClient::CommandLineClient`; it does not look at what `Hook` returns. -/
def new : FuncClientProgram Unit := do
  let _ ← FuncClientImpl.hook registerType (str "registeruser")
  let _ ← FuncClientImpl.hook warbleType (str "warble")
  let _ ← FuncClientImpl.hook followType (str "follow")
  let _ ← FuncClientImpl.hook readType (str "read")
  let _ ← FuncClientImpl.hook profileType (str "profile")
  return ()

variable (asctime : Int64 → Bytes) (packing : Packing)

/-- `CommandLineClient::RegisterHandler`. -/
def registerHandler (username : Bytes) : FuncClientProgram (Bool × Bytes) := do
  let eventParams := { ClientEventParams.new with username := username }
  let (registerResult, _) ←
    FuncClientImpl.event packing registerType eventParams ClientEventReply.new
  return (registerResult,
    if registerResult then
      line (str "User " ++ username ++ str " has been registered successfully.")
    else line (str "User " ++ username ++ str " already exists."))

/-- `CommandLineClient::WarbleHandler`. -/
def warbleHandler (username warbleText parentWarbleId : Bytes) :
    FuncClientProgram (Bool × Bytes) := do
  let eventParams := { ClientEventParams.new with
    username := username
    warbleText := warbleText
    parentWarbleId := parentWarbleId }
  let (warbleResult, eventReply) ←
    FuncClientImpl.event packing warbleType eventParams ClientEventReply.new
  return (warbleResult,
    if warbleResult then printWarble asctime eventReply.warble
    else line (str "This warble cannot be posted"))

/-- `CommandLineClient::FollowHandler`. -/
def followHandler (username usernameToFollow : Bytes) : FuncClientProgram (Bool × Bytes) := do
  let eventParams := { ClientEventParams.new with
    username := username
    toFollow := usernameToFollow }
  let (followResult, _) ←
    FuncClientImpl.event packing followType eventParams ClientEventReply.new
  return (followResult, if ¬ followResult then line (str "Follow request failed.") else [])

/-- `CommandLineClient::ReadHandler`; the loop runs from the last warble to the first. -/
def readHandler (username warbleId : Bytes) : FuncClientProgram (Bool × Bytes) := do
  let eventParams := { ClientEventParams.new with
    username := username
    warbleId := warbleId }
  let (readResult, eventReply) ←
    FuncClientImpl.event packing readType eventParams ClientEventReply.new
  let noWarbleThreads : Bool := eventReply.warbleThreads.length = 0
  if noWarbleThreads then
    return (false, line (str "The warble with warble id : [" ++ warbleId ++
      str "] does not exist."))
  else
    return (readResult,
      if readResult then
        line (str "Current warble thread with warble id : [" ++ warbleId ++
          str "] has following warbles.") ++
        eventReply.warbleThreads.reverse.flatMap (printWarble asctime) ++
        line (str "End of warble thread")
      else [])

/-- `CommandLineClient::ProfileHandler`. -/
def profileHandler (username : Bytes) : FuncClientProgram (Bool × Bytes) := do
  let eventParams := { ClientEventParams.new with username := username }
  let (profileResult, eventReply) ←
    FuncClientImpl.event packing profileType eventParams ClientEventReply.new
  return (profileResult,
    if profileResult then printUser username eventReply.following eventReply.followers
    else line (str "Current username does not exist in system"))

/-- `main`, after the flags have been parsed. -/
def main (flagOption : FlagOption) : FuncClientProgram Bytes := do
  new
  match parseFlag flagOption with
  | .registerFlag => do
    let (_, output) ← registerHandler packing flagOption.registeruser
    return output
  | .warbleFlag => do
    let (_, output) ← warbleHandler asctime packing flagOption.user flagOption.warble []
    return output
  | .replyFlag => do
    let (_, output) ←
      warbleHandler asctime packing flagOption.user flagOption.warble flagOption.reply
    return output
  | .followFlag => do
    let (_, output) ← followHandler packing flagOption.user flagOption.follow
    return output
  | .readFlag => do
    let (_, output) ← readHandler asctime packing flagOption.user flagOption.read
    return output
  | .profileFlag => do
    let (_, output) ← profileHandler packing flagOption.user
    return output
  | .otherFlag => return printOptions
  | .userFlag => return []

end CommandLineClient

end FuncWarble.Model
