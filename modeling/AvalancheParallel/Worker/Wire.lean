import AvalancheParallel.Worker.Pool

/-!
# Task results over the wire

`Server.handleGetTaskResult` of `pkg/worker/server.go` and `Client.GetTaskResult` of
`pkg/worker/client.go`. The server encodes the stored `Result` as JSON and the client
decodes it into the same Go struct, whose `Error` field has an interface type. The
request reaches the handler with the task ID, and the response reaches the client.

What `encoding/json` does with strings, byte slices and times is the parameter
`JsonCodec`, with the round trips as its laws. The encoding of an error value depends
on its type; decoding into the interface `error` accepts only null.
-/

namespace AvalancheParallel.Worker

open AvalancheParallel.RangeLoop

/-- A JSON value. -/
inductive Json where
  | null
  | bool (value : Bool)
  | number (literal : List UInt8)
  | string (text : List UInt8)
  | array (values : List Json)
  | object (fields : List (String × Json))

/-- The parts of `encoding/json` for the types of the fields. Encoding a time fails when its
year has more than four digits, and encoding an error may fail. -/
structure JsonCodec (ε : Type) where
  encodeString : List UInt8 → Json
  decodeString : Json → Option (List UInt8)
  encodeBytes : List UInt8 → Json
  decodeBytes : Json → Option (List UInt8)
  encodeTime : ℤ → Option Json
  decodeTime : Json → Option ℤ
  encodeError : ε → Option Json
  decode_encodeString : ∀ text, decodeString (encodeString text) = some text
  decode_encodeBytes : ∀ bytes, decodeBytes (encodeBytes bytes) = some bytes
  decode_encodeTime : ∀ time json, encodeTime time = some json → (decodeTime json).isSome

variable {W ε : Type}

namespace JsonCodec

/-- Encode an `error`: the nil interface becomes null. -/
def encodeInterface (codec : JsonCodec ε) : Option ε → Option Json
  | none => some .null
  | some error => codec.encodeError error

/-- Decode into an `error`: there is no type to decode another value than null into. -/
def decodeInterface (_ : JsonCodec ε) : Json → Option (Option ε)
  | .null => some none
  | _ => none

/-- `Encode` of a `Result`: the fields under their Go names. -/
def encodeResult (codec : JsonCodec ε) (result : Result ε) : Option Json := do
  let error ← codec.encodeInterface result.error
  let startTime ← codec.encodeTime result.startTime
  let endTime ← codec.encodeTime result.endTime
  return .object [("TaskID", codec.encodeString result.taskID),
    ("Output", codec.encodeBytes result.output), ("Error", error),
    ("StartTime", startTime), ("EndTime", endTime)]

/-- Decode the field of an object; a missing field keeps the zero value. -/
def field {α : Type} (fields : List (String × Json)) (name : String) (zero : α)
    (decode : Json → Option α) : Option α :=
  match fields.lookup name with
  | none => some zero
  | some json => decode json

/-- `Decode` into a `Result`; `none` is an error. -/
def decodeResult (codec : JsonCodec ε) : Json → Option (Result ε)
  | .object fields => do
    let taskID ← field fields "TaskID" [] codec.decodeString
    let output ← field fields "Output" [] codec.decodeBytes
    let error ← field fields "Error" none codec.decodeInterface
    let startTime ← field fields "StartTime" 0 codec.decodeTime
    let endTime ← field fields "EndTime" 0 codec.decodeTime
    return ⟨taskID, output, error, startTime, endTime⟩
  | .null => some ⟨[], [], none, 0, 0⟩
  | _ => none

end JsonCodec

/-- The body of a response. -/
inductive Body where
  | empty
  | text (message : List UInt8)
  | json (value : Json)

/-- A response: its status code and its body. -/
structure Response where
  status : ℕ
  body : Body

/-- The tasks known to the server and its pool. -/
structure Server (W ε : Type) where
  tasks : GoMap (List UInt8) Task
  workerPool : WorkerPool W ε

/-- The message given to `http.Error` for an unknown task. -/
def taskNotFound (taskID : List UInt8) : List UInt8 :=
  "Task not found: ".toUTF8.toList ++ taskID

/-- `handleGetTaskResult`. When a result cannot be encoded, nothing follows the header. -/
def handleGetTaskResult (codec : JsonCodec ε) (server : Server W ε) (taskID : List UInt8) :
    Response :=
  match server.tasks.lookup taskID with
  | none => ⟨404, .text (taskNotFound taskID)⟩
  | some _ =>
    match server.workerPool.results.lookup taskID with
    | none => ⟨202, .json (.object [("status", codec.encodeString "processing".toUTF8.toList)])⟩
    | some result => ⟨200, (codec.encodeResult result).elim .empty .json⟩

/-- The errors of `GetTaskResult`. -/
inductive ClientError where
  | taskNotFound (taskID : List UInt8)
  | unexpectedStatus (status : ℕ) (body : Body)
  | decode

/-- `GetTaskResult` on the response to its request. -/
def getTaskResult (codec : JsonCodec ε) (taskID : List UInt8) (response : Response) :
    Except ClientError (Result ε) :=
  if response.status = 404 then .error (.taskNotFound taskID)
  else if response.status ≠ 200 then .error (.unexpectedStatus response.status response.body)
  else
    match response.body with
    | .json json =>
      match codec.decodeResult json with
      | none => .error .decode
      | some result => .ok result
    | _ => .error .decode

/-- The client has received the task ID and the output, and an error exactly when there is one. -/
def Survives (stored : Result ε) (answer : Except ClientError (Result ε)) : Prop :=
  ∃ received, answer = .ok received ∧ received.taskID = stored.taskID ∧
    received.output = stored.output ∧ (received.error = none ↔ stored.error = none)

/-- What the client decodes from an encoded result: everything when there is no error, and
otherwise nothing or a result without the error. -/
theorem decode_encodeResult (codec : JsonCodec ε) (stored : Result ε) {json : Json}
    (encoded : codec.encodeResult stored = some json) :
    ∃ startTime endTime, codec.decodeResult json =
      ((codec.encodeInterface stored.error).bind codec.decodeInterface).map
        (fun error => ⟨stored.taskID, stored.output, error, startTime, endTime⟩) := by
  simp only [JsonCodec.encodeResult, Option.bind_eq_bind, Option.bind_eq_some_iff,
    Option.pure_def, Option.some.injEq] at encoded
  obtain ⟨error, errorEncoded, start, startEncoded, finish, finishEncoded, rfl⟩ := encoded
  obtain ⟨startTime, startDecoded⟩ :=
    Option.isSome_iff_exists.mp (codec.decode_encodeTime _ _ startEncoded)
  obtain ⟨endTime, endDecoded⟩ :=
    Option.isSome_iff_exists.mp (codec.decode_encodeTime _ _ finishEncoded)
  refine ⟨startTime, endTime, ?_⟩
  rw [errorEncoded]
  cases decoded : codec.decodeInterface error with
  | none =>
    simp [JsonCodec.decodeResult, JsonCodec.field, List.lookup_cons, codec.decode_encodeString,
      codec.decode_encodeBytes, decoded]
  | some value =>
    simp [JsonCodec.decodeResult, JsonCodec.field, List.lookup_cons, codec.decode_encodeString,
      codec.decode_encodeBytes, startDecoded, endDecoded, decoded]

/-- A result is encoded exactly when its error and its times are. -/
theorem encodeResult_isSome (codec : JsonCodec ε) (stored : Result ε) :
    (codec.encodeResult stored).isSome ↔ (codec.encodeInterface stored.error).isSome ∧
      (codec.encodeTime stored.startTime).isSome ∧ (codec.encodeTime stored.endTime).isSome := by
  unfold JsonCodec.encodeResult
  cases codec.encodeInterface stored.error with
  | none => simp
  | some error =>
    cases codec.encodeTime stored.startTime with
    | none => simp
    | some start =>
      cases codec.encodeTime stored.endTime with
      | none => simp
      | some finish => simp

/-- The answer of the client when the server has a result for the task. -/
theorem getTaskResult_stored (codec : JsonCodec ε) {server : Server W ε} {taskID : List UInt8}
    {stored : Result ε} (known : taskID ∈ server.tasks)
    (found : server.workerPool.results.lookup taskID = some stored) (received : Result ε) :
    getTaskResult codec taskID (handleGetTaskResult codec server taskID) = .ok received ↔
      (codec.encodeResult stored).bind codec.decodeResult = some received := by
  obtain ⟨task, lookup⟩ := Finmap.mem_iff.mp known
  simp only [handleGetTaskResult, lookup, found, getTaskResult]
  cases codec.encodeResult stored with
  | none => simp
  | some json =>
    simp only [Option.elim_some, Option.bind_some]
    cases codec.decodeResult json with
    | none => simp
    | some result => simp

/-- A stored result survives the wire exactly when it has no error and its times can be
encoded. -/
theorem result_survives_iff (codec : JsonCodec ε) (server : Server W ε) (taskID : List UInt8)
    (stored : Result ε) (known : taskID ∈ server.tasks)
    (found : server.workerPool.results.lookup taskID = some stored) :
    Survives stored (getTaskResult codec taskID (handleGetTaskResult codec server taskID)) ↔
      stored.error = none ∧ (codec.encodeTime stored.startTime).isSome ∧
        (codec.encodeTime stored.endTime).isSome := by
  simp only [Survives, getTaskResult_stored codec known found, Option.bind_eq_some_iff]
  constructor
  · rintro ⟨received, ⟨json, encoded, decoded⟩, _, _, sameError⟩
    have times := (encodeResult_isSome codec stored).mp (by simp [encoded])
    obtain ⟨startTime, endTime, fields⟩ := decode_encodeResult codec stored encoded
    rw [decoded] at fields
    obtain ⟨error, accepted, rfl⟩ := Option.map_eq_some_iff.mp fields.symm
    -- The interface is decoded from null only, so the received error is nil.
    have nil : error = none := by
      obtain ⟨value, _, isNull⟩ := Option.bind_eq_some_iff.mp accepted
      cases value <;> simp [JsonCodec.decodeInterface] at isNull
      exact isNull.symm
    exact ⟨sameError.mp nil, times.2⟩
  · rintro ⟨nil, times⟩
    have encoded := (encodeResult_isSome codec stored).mpr
      ⟨by simp [nil, JsonCodec.encodeInterface], times⟩
    obtain ⟨json, encoded⟩ := Option.isSome_iff_exists.mp encoded
    obtain ⟨startTime, endTime, fields⟩ := decode_encodeResult codec stored encoded
    refine ⟨⟨stored.taskID, stored.output, none, startTime, endTime⟩, ⟨json, encoded, ?_⟩, rfl, rfl,
      iff_of_true rfl nil⟩
    rw [fields, nil]
    rfl

/-- The codec for empty output and the epoch, with error values that are texts. An
`errors.New` value has no exported fields. -/
def epochCodec : JsonCodec (List UInt8) where
  encodeString := .string
  decodeString := fun json =>
    match json with
    | .string text => some text
    | _ => none
  encodeBytes := .string
  decodeBytes := fun json =>
    match json with
    | .string text => some text
    | _ => none
  encodeTime := fun time =>
    if time = 0 then some (.string "1970-01-01T00:00:00Z".toUTF8.toList) else none
  decodeTime := fun json =>
    match json with
    | .string _ => some 0
    | _ => none
  encodeError := fun _ => some (.object [])
  decode_encodeString := fun _ => rfl
  decode_encodeBytes := fun _ => rfl
  decode_encodeTime := by
    intro time json encoded
    split at encoded
    · obtain rfl := Option.some.inj encoded
      rfl
    · cases encoded

/-- A server with one task whose result is stored. -/
def serverWith (result : Result (List UInt8)) : Server Unit (List UInt8) where
  tasks := Finmap.singleton [97] ⟨[97], [], 0⟩
  workerPool := { newWorkerPool 100 with results := Finmap.singleton [97] result }

/-- A result without an error is the same after the two conversions. -/
theorem successful_result_survives :
    Survives ⟨[97], [], none, 0, 0⟩ (getTaskResult epochCodec [97]
      (handleGetTaskResult epochCodec (serverWith ⟨[97], [], none, 0, 0⟩) [97])) :=
  (result_survives_iff epochCodec (serverWith ⟨[97], [], none, 0, 0⟩) [97]
    ⟨[97], [], none, 0, 0⟩ ((Finmap.mem_singleton _ _ _).mpr rfl)
    Finmap.lookup_singleton_eq).mpr ⟨rfl, rfl, rfl⟩

/-- The client cannot decode the result of a failed task. -/
theorem failed_result_lost :
    getTaskResult epochCodec [97]
        (handleGetTaskResult epochCodec (serverWith ⟨[97], [], some [98], 0, 0⟩) [97]) =
      .error .decode ∧
    ¬ Survives ⟨[97], [], some [98], 0, 0⟩ (getTaskResult epochCodec [97]
      (handleGetTaskResult epochCodec (serverWith ⟨[97], [], some [98], 0, 0⟩) [97])) := by
  have answer : getTaskResult epochCodec [97]
      (handleGetTaskResult epochCodec (serverWith ⟨[97], [], some [98], 0, 0⟩) [97]) =
        .error .decode := rfl
  refine ⟨answer, ?_⟩
  rintro ⟨received, success, _⟩
  rw [answer] at success
  cases success

end AvalancheParallel.Worker
