import Mathlib
import FuncWarble.Model.FuncService
import FuncWarble.Model.WarbleMessage

/-! # The wire form of packed messages

`google::protobuf::Any` names the type of its message after the last slash of a URL and holds the
message in its wire form. The formats of the ten messages that the func service packs differ in
their names and fields only, so one packing serves them all.
-/

namespace FuncWarble.Model

open Text Machine

/-- The name and the generated code of a message type. -/
structure MessageFormat (M : Type) [Inhabited M] where
  fullName : Bytes
  serialize : M → Bytes
  merge : M → ℕ → Wire.Payload → Bool × M
  parse_serialize : ∀ message, Wire.mergeFrom merge default (serialize message) = (true, message)

namespace MessageFormat

variable {M : Type} [Inhabited M]

def typeUrl (format : MessageFormat M) : Bytes := str "type.googleapis.com/" ++ format.fullName

/-- The URL ends in the name of the type, with a slash before it. -/
def anyFormat (format : MessageFormat M) : AnyFormat M where
  packFrom message := ⟨format.typeUrl, format.serialize message⟩
  is any := (str "/" ++ format.fullName).isSuffixOf any.typeUrl
  unpackTo any :=
    if (str "/" ++ format.fullName).isSuffixOf any.typeUrl then
      Wire.mergeFrom format.merge default any.value
    else (false, default)

theorem anyFormat_lawful (format : MessageFormat M) : format.anyFormat.Lawful where
  undoes message := by
    have own : (str "/" ++ format.fullName).isSuffixOf format.typeUrl := by
      rw [List.isSuffixOf_iff_suffix]
      exact ⟨str "type.googleapis.com", rfl⟩
    simp only [anyFormat, own, ↓reduceIte, format.parse_serialize]
  mismatch any other := by
    simp only [anyFormat] at other
    simp only [anyFormat, other, Bool.false_eq_true, ↓reduceIte]
  empty := by
    have nonempty : ¬ (str "/" ++ format.fullName) <:+ [] := fun suffix =>
      List.cons_ne_nil _ _ (List.suffix_nil.mp suffix)
    rw [← List.isSuffixOf_iff_suffix, Bool.not_eq_true] at nonempty
    exact nonempty

end MessageFormat

/-- The fields of a repeated field are merged one after the other. -/
theorem mergeFrom_repeated {M α : Type} {merge : M → ℕ → Wire.Payload → Bool × M} {number : ℕ}
    (positive : 0 < number) {data : α → Bytes} {add : M → α → M}
    (understood : ∀ message x,
      merge message number (.lengthDelimited (data x)) = (true, add message x))
    (message : M) (xs : List α) (rest : Bytes) :
    Wire.mergeFrom merge message
        ((xs.flatMap fun x => Wire.bytesField number (data x)) ++ rest) =
      Wire.mergeFrom merge (xs.foldl add message) rest := by
  induction xs generalizing message with
  | nil => rfl
  | cons x xs ih =>
    rw [List.flatMap_cons, List.append_assoc, List.foldl_cons, ← ih]
    exact Wire.mergeFrom_field (add message x) (Wire.readField_bytesField positive (data x) _)
      (understood message x)

/-- A message without fields. -/
def emptyFormat {M : Type} [Inhabited M] (fullName : Bytes)
    (single : ∀ message : M, default = message) : MessageFormat M where
  fullName := fullName
  serialize _ := []
  merge message _ _ := (true, message)
  parse_serialize message := by rw [Wire.mergeFrom_nil, single message]

namespace RegisteruserRequest

def merge (request : RegisteruserRequest) (number : ℕ) (payload : Wire.Payload) :
    Bool × RegisteruserRequest :=
  match number, payload with
  | 1, .lengthDelimited data => (true, { request with username := data })
  | _, _ => (true, request)

def format : MessageFormat RegisteruserRequest where
  fullName := str "warble.RegisteruserRequest"
  serialize request := stringField 1 request.username
  merge := merge
  parse_serialize := by
    rintro ⟨username⟩
    rw [← List.append_nil (stringField 1 _)]
    refine (mergeFrom_stringField ⟨username⟩ (by decide) rfl ?_ _).trans (Wire.mergeFrom_nil _ _)
    rintro rfl
    rfl

end RegisteruserRequest

namespace WarbleRequest

def merge (request : WarbleRequest) (number : ℕ) (payload : Wire.Payload) : Bool × WarbleRequest :=
  match number, payload with
  | 1, .lengthDelimited data => (true, { request with username := data })
  | 2, .lengthDelimited data => (true, { request with text := data })
  | 3, .lengthDelimited data => (true, { request with parentId := data })
  | _, _ => (true, request)

def format : MessageFormat WarbleRequest where
  fullName := str "warble.WarbleRequest"
  serialize request := stringField 1 request.username ++ (stringField 2 request.text ++
    (stringField 3 request.parentId ++ []))
  merge := merge
  parse_serialize := by
    rintro ⟨username, text, parentId⟩
    refine (mergeFrom_stringField ⟨username, [], []⟩ (by decide) rfl ?_ _).trans ?_
    · rintro rfl
      rfl
    refine (mergeFrom_stringField ⟨username, text, []⟩ (by decide) rfl ?_ _).trans ?_
    · rintro rfl
      rfl
    refine (mergeFrom_stringField ⟨username, text, parentId⟩ (by decide) rfl ?_ _).trans ?_
    · rintro rfl
      rfl
    exact Wire.mergeFrom_nil _ _

end WarbleRequest

namespace FollowRequest

def merge (request : FollowRequest) (number : ℕ) (payload : Wire.Payload) : Bool × FollowRequest :=
  match number, payload with
  | 1, .lengthDelimited data => (true, { request with username := data })
  | 2, .lengthDelimited data => (true, { request with toFollow := data })
  | _, _ => (true, request)

def format : MessageFormat FollowRequest where
  fullName := str "warble.FollowRequest"
  serialize request := stringField 1 request.username ++ (stringField 2 request.toFollow ++ [])
  merge := merge
  parse_serialize := by
    rintro ⟨username, toFollow⟩
    refine (mergeFrom_stringField ⟨username, []⟩ (by decide) rfl ?_ _).trans ?_
    · rintro rfl
      rfl
    refine (mergeFrom_stringField ⟨username, toFollow⟩ (by decide) rfl ?_ _).trans ?_
    · rintro rfl
      rfl
    exact Wire.mergeFrom_nil _ _

end FollowRequest

namespace ReadRequest

def merge (request : ReadRequest) (number : ℕ) (payload : Wire.Payload) : Bool × ReadRequest :=
  match number, payload with
  | 1, .lengthDelimited data => (true, { request with warbleId := data })
  | 2, .lengthDelimited data => (true, { request with username := data })
  | _, _ => (true, request)

def format : MessageFormat ReadRequest where
  fullName := str "warble.ReadRequest"
  serialize request := stringField 1 request.warbleId ++ (stringField 2 request.username ++ [])
  merge := merge
  parse_serialize := by
    rintro ⟨warbleId, username⟩
    refine (mergeFrom_stringField ⟨warbleId, []⟩ (by decide) rfl ?_ _).trans ?_
    · rintro rfl
      rfl
    refine (mergeFrom_stringField ⟨warbleId, username⟩ (by decide) rfl ?_ _).trans ?_
    · rintro rfl
      rfl
    exact Wire.mergeFrom_nil _ _

end ReadRequest

namespace ProfileRequest

def merge (request : ProfileRequest) (number : ℕ) (payload : Wire.Payload) :
    Bool × ProfileRequest :=
  match number, payload with
  | 1, .lengthDelimited data => (true, { request with username := data })
  | _, _ => (true, request)

def format : MessageFormat ProfileRequest where
  fullName := str "warble.ProfileRequest"
  serialize request := stringField 1 request.username ++ []
  merge := merge
  parse_serialize := by
    rintro ⟨username⟩
    refine (mergeFrom_stringField ⟨username⟩ (by decide) rfl ?_ _).trans (Wire.mergeFrom_nil _ _)
    rintro rfl
    rfl

end ProfileRequest

namespace WarbleReply

def merge (reply : WarbleReply) (number : ℕ) (payload : Wire.Payload) : Bool × WarbleReply :=
  match number, payload with
  | 1, .lengthDelimited data =>
    let (understood, warble) := Wire.mergeFrom Warble.merge (reply.warble.getD Warble.empty) data
    (understood, ⟨some warble⟩)
  | _, _ => (true, reply)

def format : MessageFormat WarbleReply where
  fullName := str "warble.WarbleReply"
  serialize reply :=
    match reply.warble with
    | none => []
    | some warble => Wire.bytesField 1 warble.serialize
  merge := merge
  parse_serialize := by
    rintro ⟨_ | warble⟩
    · exact Wire.mergeFrom_nil _ _
    · have read := Wire.readField_bytesField (show 0 < 1 by decide) warble.serialize []
      rw [List.append_nil] at read
      refine (Wire.mergeFrom_field ⟨some warble⟩ read ?_).trans (Wire.mergeFrom_nil _ _)
      have parsed : Wire.mergeFrom Warble.merge Warble.empty warble.serialize = (true, warble) :=
        Warble.parse_serialize warble
      simp only [merge, show (default : WarbleReply).warble = none from rfl, Option.getD_none,
        parsed]

end WarbleReply

namespace ReadReply

/-- Repeated fields are added to those that are there. -/
def merge (reply : ReadReply) (number : ℕ) (payload : Wire.Payload) : Bool × ReadReply :=
  match number, payload with
  | 1, .lengthDelimited data =>
    let (understood, warble) := Warble.parse data
    (understood, ⟨reply.warbles ++ [warble]⟩)
  | _, _ => (true, reply)

def format : MessageFormat ReadReply where
  fullName := str "warble.ReadReply"
  serialize reply := (reply.warbles.flatMap fun warble => Wire.bytesField 1 warble.serialize) ++ []
  merge := merge
  parse_serialize := by
    rintro ⟨warbles⟩
    have understood : ∀ (reply : ReadReply) (warble : Warble),
        merge reply 1 (.lengthDelimited warble.serialize) =
          (true, ⟨reply.warbles ++ [warble]⟩) := by
      intro reply warble
      simp only [merge, Warble.parse_serialize]
    have added := Loop.foldl_push (fun (reply : ReadReply) warbles => ⟨reply.warbles ++ warbles⟩)
      (fun _ => by simp) (fun _ _ _ => by simp) ⟨[]⟩ warbles
    rw [mergeFrom_repeated (by decide) understood, Wire.mergeFrom_nil]
    exact congrArg _ added

end ReadReply

namespace ProfileReply

def merge (reply : ProfileReply) (number : ℕ) (payload : Wire.Payload) : Bool × ProfileReply :=
  match number, payload with
  | 1, .lengthDelimited data => (true, { reply with followers := reply.followers ++ [data] })
  | 2, .lengthDelimited data => (true, { reply with following := reply.following ++ [data] })
  | _, _ => (true, reply)

def format : MessageFormat ProfileReply where
  fullName := str "warble.ProfileReply"
  serialize reply := (reply.followers.flatMap fun name => Wire.bytesField 1 name) ++
    ((reply.following.flatMap fun name => Wire.bytesField 2 name) ++ [])
  merge := merge
  parse_serialize := by
    rintro ⟨followers, following⟩
    have first := Loop.foldl_push (fun (reply : ProfileReply) names =>
      { reply with followers := reply.followers ++ names })
      (fun _ => by simp) (fun _ _ _ => by simp) ⟨[], []⟩ followers
    have second := Loop.foldl_push (fun (reply : ProfileReply) names =>
      { reply with following := reply.following ++ names })
      (fun _ => by simp) (fun _ _ _ => by simp) ⟨followers, []⟩ following
    rw [mergeFrom_repeated (by decide) (fun _ _ => rfl),
      mergeFrom_repeated (by decide) (fun _ _ => rfl), Wire.mergeFrom_nil]
    exact congrArg _ ((congrArg (following.foldl _) first).trans second)

end ProfileReply

def protobufPacking : Packing where
  registeruserRequest := RegisteruserRequest.format.anyFormat
  registeruserReply := (emptyFormat (str "warble.RegisteruserReply") fun _ => rfl).anyFormat
  warbleRequest := WarbleRequest.format.anyFormat
  warbleReply := WarbleReply.format.anyFormat
  followRequest := FollowRequest.format.anyFormat
  followReply := (emptyFormat (str "warble.FollowReply") fun _ => rfl).anyFormat
  readRequest := ReadRequest.format.anyFormat
  readReply := ReadReply.format.anyFormat
  profileRequest := ProfileRequest.format.anyFormat
  profileReply := ProfileReply.format.anyFormat

theorem protobufPacking_lawful : protobufPacking.Lawful where
  registeruserRequest := MessageFormat.anyFormat_lawful _
  registeruserReply := MessageFormat.anyFormat_lawful _
  warbleRequest := MessageFormat.anyFormat_lawful _
  warbleReply := MessageFormat.anyFormat_lawful _
  followRequest := MessageFormat.anyFormat_lawful _
  followReply := MessageFormat.anyFormat_lawful _
  readRequest := MessageFormat.anyFormat_lawful _
  readReply := MessageFormat.anyFormat_lawful _
  profileRequest := MessageFormat.anyFormat_lawful _
  profileReply := MessageFormat.anyFormat_lawful _

end FuncWarble.Model
