import RustMq.Lib.Json
import RustMq.Server.Streams

/-!
# The fetch protocol

The Rust client's `fetch_messages_for_partition` (`sdk/rust/src/consumer.rs`) writes its request
with `serde_json` and reads the answer with `serde_json`. The broker's `route_request`
(`src/network/quic_server.rs`) reads requests with `bincode` and writes answers with `bincode`.

Neither side ever understands the other. A request begins with `{"Fetch"`, which `bincode` takes
for the length of the topic: about 2.5 · 10¹⁸ bytes, and so many have to follow. An answer has a
byte in it that no JSON document has: the count of an empty list, or the tag in front of the first
record's key. So a fetch always ends in an error (`fetch_refused`).

The handler of the broker, the text of its errors and that of the errors of the deserializer are
parameters.
-/

namespace RustMq.Server

/-! ## Responses -/

inductive ClientError where
  /-- `QuicTransport`: the stream ended before its first byte. -/
  | quicTransport
  | messageTooLarge (size maxSize : Nat)
  | broker (message : String)
  | protocol (message : String)
  deriving DecidableEq

def maxErrorSize : Nat := 16 * 1024

def maxResponseSize : Nat := 16 * 1024 * 1024

def utf8 (text : String) : List UInt8 := text.toUTF8.data.toList

/-- What `read_response` of the Rust client makes of the result of the router: the server answers
with the type byte and the data, or with the byte 255 and the text of the error. -/
def received : Except String (List UInt8) → Except ClientError (List UInt8)
  | .ok data =>
    if data.length ≤ maxResponseSize then .ok data
    else .error (.messageTooLarge maxResponseSize maxResponseSize)
  | .error text =>
    if (utf8 ("Error: " ++ text)).length ≤ maxErrorSize then
      .error (.broker ("Broker error: " ++ ("Error: " ++ text)))
    else .error (.messageTooLarge maxErrorSize maxErrorSize)

end RustMq.Server

namespace RustMq.Sdk.FetchProtocol

open Lib Server List Option

/-! ## The client -/

structure FetchCall where
  topic : String
  partition : Nat
  offset : Nat
  maxMessages : Nat
  timeoutMs : Nat
  deriving DecidableEq

def FetchCall.toVec (call : FetchCall) : List UInt8 :=
  Json.writeObject [("Fetch", Json.writeObject [
    ("topic", Json.writeString call.topic),
    ("partition", Json.writeNat call.partition),
    ("offset", Json.writeNat call.offset),
    ("max_messages", Json.writeNat call.maxMessages),
    ("timeout_ms", Json.writeNat call.timeoutMs)])]

structure Message where
  id : String
  topic : String
  partition : Nat
  offset : Nat
  key : Option (List UInt8)
  payload : List UInt8
  headers : List (String × String)
  timestamp : Nat
  producerId : Option String
  sequence : Option Nat
  compression : Option String
  size : Nat
  deriving DecidableEq

/-- What a fetch tells apart of a `ConsumerResponse`. The contents of the other variants are not
looked at. -/
inductive ConsumerResponse where
  | fetchOk (messages : List Message) (nextOffset partition : Nat)
  | error (message : String) (errorCode : Nat)
  | other (variant : String)
  deriving DecidableEq

section deserialize

def fieldOf (members : List (String × Json)) (name : String) : Option (Option Json) :=
  match members.filter fun m => m.1 = name with
  | [] => some none
  | [m] => some (some m.2)
  | _ => none

def required {α : Type} (members : List (String × Json)) (name : String)
    (read : Json → Option α) : Option α :=
  (fieldOf members name).bind fun field => field.bind read

def optional {α : Type} (members : List (String × Json)) (name : String)
    (read : Json → Option α) : Option (Option α) :=
  (fieldOf members name).bind fun
    | none => some none
    | some .null => some none
    | some v => (read v).map some

def readText : Json → Option String
  | .string text => some text
  | _ => none

def readUnsigned (bound : Nat) : Json → Option Nat
  | .number text =>
    let n := text.foldl (fun n b => 10 * n + (b.toNat - 48)) 0
    if text.all Json.isDigit ∧ n < bound then some n else none
  | _ => none

/-- `Bytes`: an array of numbers, or the bytes of a string. -/
def readBytes : Json → Option (List UInt8)
  | .array elements =>
    elements.mapM fun v => (readUnsigned 256 v).map UInt8.ofNat
  | .string text => some (utf8 text)
  | _ => none

def readHeaders : Json → Option (List (String × String))
  | .object members => members.mapM fun m => (readText m.2).map fun value => (m.1, value)
  | _ => none

def Message.ofJson : Json → Option Message
  | .object members => do
    let id ← required members "id" readText
    let topic ← required members "topic" readText
    let partition ← required members "partition" (readUnsigned (2 ^ 32))
    let offset ← required members "offset" (readUnsigned (2 ^ 64))
    let key ← optional members "key" readBytes
    let payload ← required members "payload" readBytes
    let headers ← required members "headers" readHeaders
    let timestamp ← required members "timestamp" (readUnsigned (2 ^ 64))
    let producerId ← optional members "producer_id" readText
    let sequence ← optional members "sequence" (readUnsigned (2 ^ 64))
    let compression ← optional members "compression" readText
    let size ← required members "size" (readUnsigned (2 ^ 64))
    return ⟨id, topic, partition, offset, key, payload, headers, timestamp, producerId, sequence,
      compression, size⟩
  | _ => none

def readMessages : Json → Option (List Message)
  | .array elements => elements.mapM Message.ofJson
  | _ => none

/-- The variants that a fetch does not expect. -/
def otherVariants : List String :=
  ["SubscribeOk", "CommitOk", "SeekOk", "SeekAllOk", "ConsumerGroupMetadata", "PartitionMetadata",
    "RebalanceTriggered"]

def ConsumerResponse.ofJson : Json → Option ConsumerResponse
  | .string "UnsubscribeOk" => some (.other "UnsubscribeOk")
  | .object [("FetchOk", .object members)] => do
    let messages ← required members "messages" readMessages
    let nextOffset ← required members "next_offset" (readUnsigned (2 ^ 64))
    let partition ← required members "partition" (readUnsigned (2 ^ 32))
    return .fetchOk messages nextOffset partition
  | .object [("Error", .object members)] => do
    let message ← required members "message" readText
    let errorCode ← required members "error_code" (readUnsigned (2 ^ 32))
    return .error message errorCode
  | .object [(variant, _)] => if variant ∈ otherVariants then some (.other variant) else none
  | _ => none

/-- `serde_json::from_slice`; its recursion limit leaves 127 levels. -/
def ConsumerResponse.fromSlice (bytes : List UInt8) : Option ConsumerResponse :=
  (Json.parse 127 bytes).bind ConsumerResponse.ofJson

end deserialize

inductive FetchError where
  | client (error : ClientError)
  | serialization (message : String)
  deriving DecidableEq

/-- `fetch_messages_for_partition`, with the messages it passes on. `sent` is the answer to the
bytes of the request. -/
def fetchMessages (parseError : List UInt8 → String)
    (sent : List UInt8 → Except ClientError (List UInt8)) (call : FetchCall) :
    Except FetchError (List Message) :=
  match sent call.toVec with
  | .error e => .error (.client e)
  | .ok bytes =>
    match ConsumerResponse.fromSlice bytes with
    | none => .error (.serialization (parseError bytes))
    | some (.fetchOk messages _ _) => .ok messages
    | some (.error _ _) => .ok []
    | some (.other _) => .ok []

/-! ## The broker -/

structure FetchResponse where
  records : List Record
  highWatermark : Nat
  errorCode : Nat
  errorMessage : Option String
  deriving DecidableEq

def fetchResponseCodec : Codec FetchResponse :=
  ((Codec.list recordCodec).pair ((Codec.uint 8).pair ((Codec.uint 4).pair (.option .string)))).iso
    (fun p => ⟨p.1, p.2.1, p.2.2.1, p.2.2.2⟩)
    (fun r => (r.records, r.highWatermark, r.errorCode, r.errorMessage)) fun _ => rfl

def routeFetch (decodeError : List UInt8 → String)
    (handleFetch : FetchRequest → Except String FetchResponse) (data : List UInt8) :
    Except String (List UInt8) :=
  match fetchRequestCodec.decode data with
  | none => .error (decodeError data)
  | some request => (handleFetch request).map fetchResponseCodec.enc

/-! ## A request is not understood -/

def requestStart : List UInt8 := [0x7B, 0x22, 0x46, 0x65, 0x74, 0x63, 0x68, 0x22]

theorem toVec_eq (call : FetchCall) : ∃ rest, call.toVec = requestStart ++ rest := by
  have hname : Json.writeString "Fetch" = [0x22, 0x46, 0x65, 0x74, 0x63, 0x68, 0x22] := by
    decide +kernel
  rw [FetchCall.toVec, Json.writeObject, map_singleton, intercalate_singleton, hname]
  exact ⟨_, rfl⟩

def topicLength : Nat := 2479340946433909371

variable {bytes : List UInt8} {request : FetchRequest}

theorem length_of_string_dec {rest : List UInt8} {text : String}
    (h : Codec.string.dec bytes = some (text, rest)) :
    ofLe (bytes.take 8) ≤ (bytes.drop 8).length := by
  obtain ⟨⟨b, rest₁⟩, hb, -⟩ := bind_eq_some_iff.mp h
  obtain ⟨⟨n, rest₂⟩, hn, hlength⟩ := bind_eq_some_iff.mp hb
  obtain ⟨-, rfl, rfl⟩ := Codec.uint_dec_cases hn
  exact (ite_none_right_eq_some.mp hlength).1

theorem exists_topic_of_decode (h : fetchRequestCodec.decode bytes = some request) :
    ∃ topic rest, Codec.string.dec bytes = some (topic, rest) := by
  obtain ⟨⟨_, _⟩, hfields, -⟩ := map_eq_some_iff.mp h
  obtain ⟨⟨_, _⟩, hpair, -⟩ := map_eq_some_iff.mp hfields
  obtain ⟨⟨topic, rest⟩, htopic, -⟩ := bind_eq_some_iff.mp hpair
  exact ⟨topic, rest, htopic⟩

theorem topicLength_le_of_decode {call : FetchCall}
    (h : fetchRequestCodec.decode call.toVec = some request) : topicLength ≤ call.toVec.length := by
  obtain ⟨rest, hvec⟩ := toVec_eq call
  rw [hvec] at h ⊢
  obtain ⟨topic, rest', htopic⟩ := exists_topic_of_decode h
  have hlength := length_of_string_dec htopic
  have hstart : ofLe ((requestStart ++ rest).take 8) = topicLength := by
    rw [take_left' (show requestStart.length = 8 from rfl)]
    decide +kernel
  rw [hstart, length_drop] at hlength
  omega

/-! ## An answer is not understood -/

theorem exists_illegal_recordCodec (r : Record) : ∃ b ∈ recordCodec.enc r, ¬ Json.Legal b := by
  cases hkey : r.key with
  | none =>
    refine ⟨0, ?_, by decide⟩
    simp [recordCodec, Codec.iso, Codec.pair, Codec.option, hkey]
  | some key =>
    refine ⟨1, ?_, by decide⟩
    simp [recordCodec, Codec.iso, Codec.pair, Codec.option, hkey]

theorem exists_illegal_fetchResponse (response : FetchResponse) :
    ∃ b ∈ fetchResponseCodec.enc response, ¬ Json.Legal b := by
  have hrecords : ∃ b ∈ (Codec.list recordCodec).enc response.records, ¬ Json.Legal b := by
    cases response.records with
    | nil => exact ⟨0, by decide, by decide⟩
    | cons r rs =>
      obtain ⟨b, hb, hillegal⟩ := exists_illegal_recordCodec r
      refine ⟨b, mem_append_right _ ?_, hillegal⟩
      rw [flatMap_cons]
      exact mem_append_left _ hb
  obtain ⟨b, hb, hillegal⟩ := hrecords
  exact ⟨b, mem_append_left _ hb, hillegal⟩

theorem fromSlice_enc (response : FetchResponse) :
    ConsumerResponse.fromSlice (fetchResponseCodec.enc response) = none := by
  obtain ⟨b, hb, hillegal⟩ := exists_illegal_fetchResponse response
  rw [ConsumerResponse.fromSlice, bind_eq_none_iff]
  intro v hv
  exact absurd (Json.legal_of_parse hv b hb) hillegal

theorem received_cases (result : Except String (List UInt8)) :
    (∃ e, received result = .error e) ∨ ∃ data, result = .ok data ∧ received result = .ok data := by
  cases result with
  | ok data =>
    by_cases hsize : data.length ≤ maxResponseSize
    · exact .inr ⟨data, rfl, if_pos hsize⟩
    · exact .inl ⟨_, if_neg hsize⟩
  | error text =>
    by_cases hsize : (utf8 ("Error: " ++ text)).length ≤ maxErrorSize
    · exact .inl ⟨_, if_pos hsize⟩
    · exact .inl ⟨_, if_neg hsize⟩

/-- **Client and broker do not speak the same protocol**, and a fetch ends in an error. -/
theorem fetch_refused (decodeError parseError : List UInt8 → String)
    (handleFetch : FetchRequest → Except String FetchResponse) (call : FetchCall)
    (request : FetchRequest) (response : FetchResponse) :
    (fetchRequestCodec.decode call.toVec = some request → topicLength ≤ call.toVec.length) ∧
      ConsumerResponse.fromSlice (fetchResponseCodec.enc response) = none ∧
      ∃ e, fetchMessages parseError
        (fun data => received (routeFetch decodeError handleFetch data)) call = .error e := by
  refine ⟨topicLength_le_of_decode, fromSlice_enc response, ?_⟩
  unfold fetchMessages
  rcases received_cases (routeFetch decodeError handleFetch call.toVec) with
    ⟨e, he⟩ | ⟨data, hdata, hreceived⟩
  · exact ⟨.client e, by simp only [he]⟩
  · have hanswer : ∃ response, data = fetchResponseCodec.enc response := by
      rw [routeFetch] at hdata
      split at hdata
      · cases hdata
      · rename_i request _
        cases hhandle : handleFetch request with
        | error e =>
          rw [hhandle] at hdata
          cases hdata
        | ok response =>
          rw [hhandle] at hdata
          cases hdata
          exact ⟨response, rfl⟩
    obtain ⟨response, rfl⟩ := hanswer
    exact ⟨.serialization (parseError (fetchResponseCodec.enc response)), by
      simp only [hreceived, fromSlice_enc]⟩

/-- A fetch from the start of `orders`, and an answer with one record. -/
theorem fetch_orders_refused :
    fetchRequestCodec.decode (FetchCall.toVec ⟨"orders", 0, 1, 100, 1000⟩) = none ∧
      ConsumerResponse.fromSlice
        (fetchResponseCodec.enc ⟨[⟨none, [42], [], 0⟩], 1, 0, none⟩) = none := by
  decide +kernel

/-- An answer as the client expects it is decoded. -/
example : ConsumerResponse.fromSlice
    (utf8 "\x7b\"FetchOk\":\x7b\"messages\":[],\"next_offset\":5,\"partition\":0\x7d\x7d") =
      some (.fetchOk [] 5 0) := by
  decide +kernel

end RustMq.Sdk.FetchProtocol
