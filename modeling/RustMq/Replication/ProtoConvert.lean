import RustMq.Lib.Fallible
import RustMq.Replication.Rejected

/-!
# Replication messages as protobuf messages

`src/proto_convert.rs`, for the messages of replication: a record, its headers, a `WalRecord`, the
state a follower reports, and the request and the response that carry them. Each type has a
conversion to the message of the `.proto` files and one back.

A protobuf field without a value is its default, so what is optional inside and a plain field on
the wire (a key, an error message) has two values that become the same bytes: an absent one and an
empty one. The way back reads an empty field as absent. A message field is optional on the wire;
the conversions always set it and fail with `MissingField` when it is not there.
-/

namespace RustMq.Replication

open Lib Store Option

inductive ConversionError where
  | missingField (field : String)
  | invalidTimestamp (error : String)
  | invalidEnumValue (value : Int) (enumName : String)
  | invalidFormat (message : String)
  deriving DecidableEq

abbrev ConversionResult (α : Type) := Except ConversionError α

/-! ## The messages -/

namespace Proto

structure Timestamp where
  seconds : Int
  nanos : Int
  deriving DecidableEq

structure TopicPartition where
  topic : String
  partition : Nat
  deriving DecidableEq

structure Header where
  key : String
  value : List UInt8
  deriving DecidableEq

structure Record where
  key : List UInt8
  value : List UInt8
  headers : List Header
  timestamp : Option Timestamp
  deriving DecidableEq

structure WalRecord where
  topicPartition : Option TopicPartition
  offset : Nat
  record : Option Record
  crc32 : Nat
  version : Nat
  deriving DecidableEq

structure FollowerState where
  brokerId : String
  lastKnownOffset : Nat
  lastHeartbeat : Option Timestamp
  lag : Nat
  lagTimeMs : Nat
  inSync : Bool
  deriving DecidableEq

structure RequestMetadata where
  clientId : String
  correlationId : String
  timestamp : Option Timestamp
  apiVersion : Nat
  timeoutMs : Nat
  deriving DecidableEq

structure ResponseMetadata where
  correlationId : String
  timestamp : Option Timestamp
  errorCode : Nat
  errorMessage : String
  throttleTimeMs : Nat
  deriving DecidableEq

structure ReplicateDataRequest where
  leaderEpoch : Nat
  topicPartition : Option TopicPartition
  records : List WalRecord
  leaderId : String
  leaderHighWatermark : Nat
  requestId : Nat
  metadata : Option RequestMetadata
  batchBaseOffset : Nat
  batchRecordCount : Nat
  batchSizeBytes : Nat
  compression : Int
  deriving DecidableEq

structure ReplicateDataResponse where
  success : Bool
  errorCode : Nat
  errorMessage : String
  followerState : Option FollowerState
  metadata : Option ResponseMetadata
  bytesReplicated : Nat
  recordsReplicated : Nat
  replicationTimeMs : Nat
  followerLogEndOffset : Nat
  followerHighWatermark : Nat
  deriving DecidableEq

end Proto

/-! ## Time -/

def asI32 (n : Int) : Int :=
  n.bmod (2 ^ 32)

/-- What `i64` arithmetic leaves of `n`. -/
def asI64 (n : Int) : Int :=
  n.bmod (2 ^ 64)

def IsI64 (n : Int) : Prop :=
  -2 ^ 63 ≤ n ∧ n < 2 ^ 63

instance (n : Int) : Decidable (IsI64 n) :=
  inferInstanceAs (Decidable (_ ∧ _))

/-- The first and the last second of chrono's calendar: the years -262143 to 262142. -/
def InCalendar (timestamp : Int) : Prop :=
  -8334601228800 ≤ timestamp ∧ timestamp ≤ 8210266876799

instance (timestamp : Int) : Decidable (InCalendar timestamp) :=
  inferInstanceAs (Decidable (_ ∧ _))

/-- `chrono::DateTime<Utc>`. From one second on, `subsecNanos` counts inside a leap second. -/
@[ext]
structure DateTime where
  timestamp : Int
  subsecNanos : Nat
  inCalendar : InCalendar timestamp
  subsecNanos_lt : subsecNanos < 2 * 10 ^ 9
  deriving DecidableEq

namespace DateTime

/-- The calendar is small enough for the product to stay in an `i64`. -/
def timestampMillis (d : DateTime) : Int :=
  d.timestamp * 1000 + (d.subsecNanos / 1000000 : Nat)

def fromTimestampMillis (millis : Int) : Option DateTime :=
  if h : InCalendar (millis / 1000) then
    some ⟨millis / 1000, (millis % 1000).toNat * 1000000, h, by omega⟩
  else none

def WholeMillis (d : DateTime) : Prop :=
  d.subsecNanos < 10 ^ 9 ∧ d.subsecNanos % 1000000 = 0

instance (d : DateTime) : Decidable d.WholeMillis :=
  inferInstanceAs (Decidable (_ ∧ _))

end DateTime

structure SystemTime where
  timestamp : Int
  subsecNanos : Nat
  inCalendar : InCalendar timestamp
  subsecNanos_lt : subsecNanos < 10 ^ 9

def SystemTime.utc (now : SystemTime) : DateTime :=
  ⟨now.timestamp, now.subsecNanos, now.inCalendar, by have := now.subsecNanos_lt; omega⟩

def timestampToProto (millis : Int) : ConversionResult Proto.Timestamp :=
  .ok ⟨millis.tdiv 1000, asI32 (millis.tmod 1000 * 1000000)⟩

def timestampFromProto (timestamp : Proto.Timestamp) : ConversionResult Int :=
  .ok (asI64 (asI64 (timestamp.seconds * 1000) + timestamp.nanos.tdiv 1000000))

/-! ## Records -/

def topicPartitionToProto (tp : TopicPartition) : Proto.TopicPartition :=
  ⟨tp.topic, tp.partition⟩

def topicPartitionFromProto (tp : Proto.TopicPartition) : TopicPartition :=
  ⟨tp.topic, tp.partition⟩

def headerToProto (header : Header) : Proto.Header :=
  ⟨header.key, header.value⟩

def headerFromProto (header : Proto.Header) : Header :=
  ⟨header.key, header.value⟩

def nonEmpty (bytes : List UInt8) : Option (List UInt8) :=
  if bytes.isEmpty then none else some bytes

def recordToProto (record : Record) : ConversionResult Proto.Record := do
  let timestamp ← timestampToProto record.timestamp
  return ⟨record.key.getD [], record.value, record.headers.map headerToProto, some timestamp⟩

def recordFromProto (now : SystemTime) (record : Proto.Record) : ConversionResult Record := do
  let timestamp ← record.timestamp.mapM timestampFromProto
  return ⟨nonEmpty record.key, record.value, record.headers.map headerFromProto,
    timestamp.getD now.utc.timestampMillis⟩

def walRecordToProto (walRecord : WalRecord) : ConversionResult Proto.WalRecord := do
  let record ← recordToProto walRecord.record
  return ⟨some (topicPartitionToProto walRecord.topicPartition), walRecord.offset, some record,
    walRecord.crc32, 1⟩

def required {α : Type} (field : String) (value : Option α) : ConversionResult α :=
  match value with
  | none => .error (.missingField field)
  | some a => .ok a

def walRecordFromProto (now : SystemTime) (walRecord : Proto.WalRecord) :
    ConversionResult WalRecord := do
  let topicPartition ← required "topic_partition" walRecord.topicPartition
  let record ← required "record" walRecord.record
  let record ← recordFromProto now record
  return ⟨topicPartitionFromProto topicPartition, walRecord.offset, record, walRecord.crc32⟩

/-! ## What a follower reports -/

/-- `FollowerState` with the time of the heartbeat, which the handler takes from the clock. -/
structure StampedState extends FollowerState where
  lastHeartbeat : DateTime
  deriving DecidableEq

structure StampedResponse where
  success : Bool
  errorCode : Nat
  errorMessage : Option String
  followerState : Option StampedState
  deriving DecidableEq

def ReplicateDataResponse.stamp (resp : ReplicateDataResponse) (now : SystemTime) :
    StampedResponse :=
  ⟨resp.success, resp.errorCode, resp.errorMessage, resp.followerState.map (⟨·, now.utc⟩)⟩

def followerStateToProto (state : StampedState) : ConversionResult Proto.FollowerState := do
  let lastHeartbeat ← timestampToProto state.lastHeartbeat.timestampMillis
  return ⟨state.brokerId, state.lastKnownOffset, some lastHeartbeat, state.lag, 0,
    state.lag < 1000⟩

def followerStateFromProto (now : SystemTime) (state : Proto.FollowerState) :
    ConversionResult StampedState := do
  let millis ← state.lastHeartbeat.mapM timestampFromProto
  let lastHeartbeat := millis.map fun ts => (DateTime.fromTimestampMillis ts).getD now.utc
  return ⟨⟨state.brokerId, state.lastKnownOffset, state.lag⟩, lastHeartbeat.getD now.utc⟩

/-! ## The request and the response -/

def replicateDataRequestToProto (req : ReplicateDataRequest) :
    ConversionResult Proto.ReplicateDataRequest := do
  let records ← req.records.mapM walRecordToProto
  return ⟨req.leaderEpoch, some (topicPartitionToProto req.topicPartition), records, req.leaderId,
    0, 0, none, 0, 0, 0, 0⟩

def replicateDataRequestFromProto (now : SystemTime) (req : Proto.ReplicateDataRequest) :
    ConversionResult ReplicateDataRequest := do
  let topicPartition ← required "topic_partition" req.topicPartition
  let records ← req.records.mapM (walRecordFromProto now)
  return ⟨req.leaderEpoch, topicPartitionFromProto topicPartition, records, req.leaderId⟩

def replicateDataResponseToProto (resp : StampedResponse) :
    ConversionResult Proto.ReplicateDataResponse := do
  let followerState ← resp.followerState.mapM followerStateToProto
  return ⟨resp.success, resp.errorCode, resp.errorMessage.getD "", followerState, none,
    0, 0, 0, 0, 0⟩

def replicateDataResponseFromProto (now : SystemTime) (resp : Proto.ReplicateDataResponse) :
    ConversionResult StampedResponse := do
  let followerState ← resp.followerState.mapM (followerStateFromProto now)
  return ⟨resp.success, resp.errorCode,
    if resp.errorMessage.isEmpty then none else some resp.errorMessage, followerState⟩

/-- One `replicate_data` from the request the leader holds to the answer it reads, with the clocks
of the service and of the client. -/
def replicateOverWire (cfg : StoreConfig) (served read : SystemTime)
    (h : FollowerReplicationHandler) (req : ReplicateDataRequest) (outcome : Nat → AppendOutcome) :
    ConversionResult (StampedResponse × FollowerReplicationHandler) := do
  let message ← replicateDataRequestToProto req
  let received ← replicateDataRequestFromProto served message
  let handled := h.handleReplicateData cfg received outcome
  let message ← replicateDataResponseToProto (handled.1.stamp served)
  let answer ← replicateDataResponseFromProto read message
  return (answer, handled.2)

/-! ## What comes back

Each conversion to the wire is total, and what comes back of a value is that value with an empty
key or message dropped and the heartbeat cut to milliseconds. -/

theorem asI32_of_bounds {n : Int} (hlo : -2 ^ 31 ≤ n) (hhi : n < 2 ^ 31) : asI32 n = n := by
  unfold asI32
  exact Int.bmod_eq_of_le (by omega) (by omega)

theorem asI64_of_isI64 {n : Int} (h : IsI64 n) : asI64 n = n := by
  unfold asI64 IsI64 at *
  exact Int.bmod_eq_of_le (by omega) (by omega)

theorem timestamp_back {millis : Int} (h : IsI64 millis) :
    (timestampToProto millis >>= timestampFromProto) = .ok millis := by
  have hsum := Int.tdiv_mul_add_tmod millis 1000
  have hlo : -1000 < millis.tmod 1000 := Int.lt_tmod_of_pos millis (by decide)
  have hhi : millis.tmod 1000 < 1000 := Int.tmod_lt_of_pos millis (by decide)
  have hnanos : asI32 (millis.tmod 1000 * 1000000) = millis.tmod 1000 * 1000000 :=
    asI32_of_bounds (by omega) (by omega)
  have hback : (millis.tmod 1000 * 1000000).tdiv 1000000 = millis.tmod 1000 :=
    Int.mul_tdiv_cancel _ (by decide)
  -- the whole seconds lie between zero and the number itself
  have hseconds : IsI64 (millis.tdiv 1000 * 1000) := by
    unfold IsI64 at *
    rcases Int.le_total 0 millis with hpos | hneg
    · have := Int.tmod_nonneg 1000 hpos
      omega
    · have hneg' := Int.tmod_nonneg 1000 (Int.neg_nonneg_of_nonpos hneg)
      rw [Int.neg_tmod] at hneg'
      omega
  change Except.ok (asI64 (asI64 (millis.tdiv 1000 * 1000) +
    (asI32 (millis.tmod 1000 * 1000000)).tdiv 1000000)) = _
  rw [hnanos, hback, asI64_of_isI64 hseconds, hsum, asI64_of_isI64 h]

def backRecord (record : Record) : Record :=
  { record with key := nonEmpty (record.key.getD []) }

def backWalRecord (walRecord : WalRecord) : WalRecord :=
  { walRecord with record := backRecord walRecord.record }

def backRequest (req : ReplicateDataRequest) : ReplicateDataRequest :=
  { req with records := req.records.map backWalRecord }

def backState (now : SystemTime) (state : StampedState) : StampedState :=
  { state with
    lastHeartbeat :=
      (DateTime.fromTimestampMillis state.lastHeartbeat.timestampMillis).getD now.utc }

def backResponse (now : SystemTime) (resp : StampedResponse) : StampedResponse :=
  { resp with
    errorMessage := if (resp.errorMessage.getD "").isEmpty then none else resp.errorMessage
    followerState := resp.followerState.map (backState now) }

theorem map_headerFromProto_headerToProto (headers : List Header) :
    (headers.map headerToProto).map headerFromProto = headers := by
  rw [List.map_map]
  exact List.map_id headers

variable {record : Record} {now : SystemTime}

theorem record_back (now : SystemTime) (h : IsI64 record.timestamp) :
    (recordToProto record >>= recordFromProto now) = .ok (backRecord record) := by
  obtain ⟨ts, hto, hfrom⟩ := bind_eq_ok.mp (timestamp_back h)
  simp only [recordToProto, recordFromProto, backRecord, hto, hfrom, mapM_some, bind,
    Except.bind, pure, Except.pure, map_headerFromProto_headerToProto, Functor.map, Except.map,
    getD_some]

theorem walRecord_back (now : SystemTime) {walRecord : WalRecord}
    (h : IsI64 walRecord.record.timestamp) :
    (walRecordToProto walRecord >>= walRecordFromProto now) = .ok (backWalRecord walRecord) := by
  obtain ⟨record, hto, hfrom⟩ := bind_eq_ok.mp (record_back now h)
  simp only [walRecordToProto, walRecordFromProto, required, hto, hfrom, bind, Except.bind, pure,
    Except.pure]
  rfl

variable {req : ReplicateDataRequest}

/-- **A request always arrives**, as the request with every empty key dropped. -/
theorem request_back (now : SystemTime) (h : ∀ r ∈ req.records, IsI64 r.record.timestamp) :
    (replicateDataRequestToProto req >>= replicateDataRequestFromProto now) =
      .ok (backRequest req) := by
  obtain ⟨records, hto, hfrom⟩ := mapM_mapM_eq_ok fun r hr => walRecord_back now (h r hr)
  simp only [replicateDataRequestToProto, replicateDataRequestFromProto, required, hto, hfrom,
    bind, Except.bind, pure, Except.pure]
  rfl

theorem timestampMillis_isI64 (d : DateTime) : IsI64 d.timestampMillis := by
  have hcal := d.inCalendar
  have hnanos := d.subsecNanos_lt
  unfold InCalendar at hcal
  unfold IsI64 DateTime.timestampMillis
  omega

theorem state_back (now : SystemTime) (state : StampedState) :
    (followerStateToProto state >>= followerStateFromProto now) = .ok (backState now state) := by
  obtain ⟨ts, hto, hfrom⟩ :=
    bind_eq_ok.mp (timestamp_back (timestampMillis_isI64 state.lastHeartbeat))
  simp only [followerStateToProto, followerStateFromProto, hto, hfrom, mapM_some, bind,
    Except.bind, pure, Except.pure, Functor.map, Except.map]
  rfl

/-- **A response always arrives**, with an empty message dropped and the heartbeat cut. -/
theorem response_back (now : SystemTime) (resp : StampedResponse) :
    (replicateDataResponseToProto resp >>= replicateDataResponseFromProto now) =
      .ok (backResponse now resp) := by
  obtain ⟨success, code, message, state⟩ := resp
  cases state with
  | none =>
    cases message <;> rfl
  | some state =>
    obtain ⟨proto, hto, hfrom⟩ := bind_eq_ok.mp (state_back now state)
    simp only [replicateDataResponseToProto, replicateDataResponseFromProto, hto, hfrom,
      mapM_some, bind, Except.bind, pure, Except.pure, Functor.map, Except.map]
    cases message <;> rfl

/-! ## What comes back as it was -/

theorem nonEmpty_eq_iff {key : Option (List UInt8)} :
    nonEmpty (key.getD []) = key ↔ key ≠ some [] := by
  cases key with
  | none => simp [nonEmpty]
  | some key => cases key <;> simp [nonEmpty]

theorem backRecord_eq_iff : backRecord record = record ↔ record.key ≠ some [] := by
  rw [← nonEmpty_eq_iff]
  cases record
  simp [backRecord]

theorem backWalRecord_eq_iff {r : WalRecord} : backWalRecord r = r ↔ r.record.key ≠ some [] := by
  rw [← backRecord_eq_iff]
  cases r
  simp [backWalRecord]

theorem map_backWalRecord_eq_iff {records : List WalRecord} :
    records.map backWalRecord = records ↔ ∀ r ∈ records, r.record.key ≠ some [] := by
  have hid : records.map backWalRecord = records ↔ records.map backWalRecord = records.map id := by
    rw [List.map_id]
  rw [hid, List.map_inj_left]
  simp only [id_eq, backWalRecord_eq_iff]

theorem backRequest_eq_iff : backRequest req = req ↔ ∀ r ∈ req.records, r.record.key ≠ some [] := by
  rw [← map_backWalRecord_eq_iff]
  cases req
  simp [backRequest]

theorem heartbeat_back_iff (now : SystemTime) (d : DateTime) :
    (DateTime.fromTimestampMillis d.timestampMillis).getD now.utc = d ↔ d.WholeMillis := by
  have hcal := d.inCalendar
  have hnow := now.subsecNanos_lt
  have hdiv : d.timestampMillis / 1000 = d.timestamp + (d.subsecNanos / 1000000000 : Nat) := by
    unfold DateTime.timestampMillis
    omega
  have hmod : (d.timestampMillis % 1000).toNat * 1000000 =
      d.subsecNanos / 1000000 % 1000 * 1000000 := by
    unfold DateTime.timestampMillis
    omega
  unfold DateTime.fromTimestampMillis DateTime.WholeMillis
  by_cases h : InCalendar (d.timestampMillis / 1000)
  · rw [dif_pos h, getD_some, DateTime.ext_iff]
    dsimp only
    omega
  · rw [dif_neg h, getD_none, DateTime.ext_iff]
    -- only a leap second at the end of the calendar leads out of it
    unfold InCalendar at h hcal
    simp only [SystemTime.utc]
    omega

theorem backState_eq_iff {state : StampedState} :
    backState now state = state ↔ state.lastHeartbeat.WholeMillis := by
  rw [← heartbeat_back_iff now]
  cases state
  simp [backState]

theorem message_eq_iff {message : Option String} :
    (if (message.getD "").isEmpty then none else message) = message ↔ message ≠ some "" := by
  cases message with
  | none | some => simp

theorem backResponse_eq_iff {resp : StampedResponse} :
    backResponse now resp = resp ↔ resp.errorMessage ≠ some "" ∧
        ∀ state, resp.followerState = some state → state.lastHeartbeat.WholeMillis := by
  rw [← message_eq_iff]
  obtain ⟨success, code, message, state⟩ := resp
  cases state with
  | none => simp [backResponse]
  | some state => simp [backResponse, backState_eq_iff]

/-! ## What the follower stores -/

theorem replicateOverWire_eq (cfg : StoreConfig) (served read : SystemTime)
    (h : FollowerReplicationHandler) (outcome : Nat → AppendOutcome)
    (hreq : ∀ r ∈ req.records, IsI64 r.record.timestamp) :
    replicateOverWire cfg served read h req outcome =
      let handled := h.handleReplicateData cfg (backRequest req) outcome
      .ok (backResponse read (handled.1.stamp served), handled.2) := by
  obtain ⟨message, hto, hfrom⟩ := bind_eq_ok.mp (request_back served hreq)
  obtain ⟨message', hto', hfrom'⟩ := bind_eq_ok.mp (response_back read
    ((h.handleReplicateData cfg (backRequest req) outcome).1.stamp served))
  simp only [replicateOverWire, hto, hfrom, hto', hfrom', bind, Except.bind, pure, Except.pure]

theorem walRecords_of_success {cfg : StoreConfig} {h : FollowerReplicationHandler}
    {outcome : Nat → AppendOutcome}
    (hsuccess : (h.handleReplicateData cfg req outcome).1.success = true) :
    PartitionStore.walRecords (h.handleReplicateData cfg req outcome).2.recordLog.wal =
      PartitionStore.walRecords h.recordLog.wal ++ req.records := by
  unfold FollowerReplicationHandler.handleReplicateData at *
  split at hsuccess
  · cases hsuccess
  · next hepoch =>
    rw [if_neg hepoch]
    dsimp only at *
    split at hsuccess
    · cases hsuccess
    · next hpartition =>
      rw [if_neg hpartition]
      rw [appendAll_eq] at *
      cases hfailure : firstFailure outcome 0 req.records with
      | none =>
        simp only [recordLog_adopt]
        exact walRecords_storeAll cfg _ _
      | some failure =>
        rw [hfailure] at hsuccess
        cases hsuccess

/-- **Which messages survive the wire**: requests without an empty key, and responses without an
empty message whose heartbeat falls on a millisecond. -/
theorem messages_survive_wire_iff (now : SystemTime) (req : ReplicateDataRequest)
    (resp : StampedResponse) (h : ∀ r ∈ req.records, IsI64 r.record.timestamp) :
    ((replicateDataRequestToProto req >>= replicateDataRequestFromProto now) = .ok req ↔
      ∀ r ∈ req.records, r.record.key ≠ some []) ∧
    ((replicateDataResponseToProto resp >>= replicateDataResponseFromProto now) = .ok resp ↔
      resp.errorMessage ≠ some "" ∧
        ∀ state, resp.followerState = some state → state.lastHeartbeat.WholeMillis) ∧
    ∀ cfg read follower outcome answer follower',
      replicateOverWire cfg now read follower req outcome = .ok (answer, follower') →
      answer.success = true →
      (PartitionStore.walRecords follower'.recordLog.wal =
          PartitionStore.walRecords follower.recordLog.wal ++ req.records ↔
        ∀ r ∈ req.records, r.record.key ≠ some []) := by
  refine ⟨?_, ?_, ?_⟩
  · rw [request_back now h, Except.ok.injEq]
    exact backRequest_eq_iff
  · rw [response_back now resp, Except.ok.injEq]
    exact backResponse_eq_iff
  · intro cfg read follower outcome answer follower' hwire hsuccess
    rw [replicateOverWire_eq cfg now read follower outcome h] at hwire
    cases hwire
    rw [walRecords_of_success hsuccess, List.append_cancel_left_eq]
    exact map_backWalRecord_eq_iff

def keyedRecord (key : List UInt8) : WalRecord :=
  ⟨⟨"orders", 0⟩, 0, ⟨some key, [1], [⟨"trace", [2]⟩], -1⟩, 7⟩

def clock : SystemTime :=
  ⟨1700000000, 123456789, by decide, by decide⟩

def reported (subsecNanos : Nat) (h : subsecNanos < 2 * 10 ^ 9) : StampedResponse :=
  ⟨true, 0, none, some ⟨⟨"broker-2", 1, 0⟩, ⟨1700000000, subsecNanos, by decide, h⟩⟩⟩

theorem messages_survive_wire_iff_keyedRecord :
    (replicateDataRequestToProto ⟨1, ⟨"orders", 0⟩, [keyedRecord [9]], "broker-1"⟩ >>=
        replicateDataRequestFromProto clock) =
      .ok ⟨1, ⟨"orders", 0⟩, [keyedRecord [9]], "broker-1"⟩ ∧
    (replicateDataResponseToProto (reported 5000000 (by decide)) >>=
        replicateDataResponseFromProto clock) = .ok (reported 5000000 (by decide)) := by
  have h := messages_survive_wire_iff clock ⟨1, ⟨"orders", 0⟩, [keyedRecord [9]], "broker-1"⟩
    (reported 5000000 (by decide)) (by decide)
  exact ⟨h.1.mpr (by decide), h.2.1.mpr (by decide)⟩

/-- An empty key arrives as no key and is stored so, with success, and a heartbeat between two
milliseconds comes back as the one before. -/
theorem empty_key_dropped : ∃ answer follower,
      replicateOverWire plainConfig clock clock (followerAt 1)
          ⟨1, ⟨"orders", 0⟩, [keyedRecord []], "broker-1"⟩ (fun _ => .ok) =
        .ok (answer, follower) ∧
      answer.success = true ∧
      PartitionStore.walRecords follower.recordLog.wal =
        [⟨⟨"orders", 0⟩, 0, ⟨none, [1], [⟨"trace", [2]⟩], -1⟩, 7⟩] ∧
      (replicateDataResponseToProto (reported 5000001 (by decide)) >>=
          replicateDataResponseFromProto clock) = .ok (reported 5000000 (by decide)) :=
  ⟨_, _, rfl, rfl, rfl, rfl⟩

/-! ## What a peer may send

A timestamp of a peer is any `i64` of seconds and any `i32` of nanoseconds. -/

namespace Proto

def Timestamp.floorMillis (ts : Timestamp) : Int := (ts.seconds * 10 ^ 9 + ts.nanos) / 10 ^ 6

/-- The arithmetic of `timestamp_from_proto` stays in an `i64`. -/
def Timestamp.InRange (ts : Timestamp) : Prop :=
  IsI64 (ts.seconds * 1000) ∧ IsI64 (ts.seconds * 1000 + ts.nanos.tdiv 1000000)

def Timestamp.Plain (ts : Timestamp) : Prop := ts.InRange ∧ (0 ≤ ts.nanos ∨ 1000000 ∣ ts.nanos)

/-- The fields that a conversion requires are there. -/
def WalRecord.WellFormed (r : WalRecord) : Bool := r.topicPartition.isSome && r.record.isSome

def ReplicateDataRequest.WellFormed (req : ReplicateDataRequest) : Prop :=
  req.topicPartition.isSome = true ∧ ∀ r ∈ req.records, r.WellFormed = true

/-- The timestamps that are decoded: those of the records before the first that is refused. -/
def ReplicateDataRequest.timestamps (req : ReplicateDataRequest) : List Timestamp :=
  if req.topicPartition.isSome then
    (req.records.takeWhile (·.WellFormed)).filterMap fun r => r.record.bind (·.timestamp)
  else []

/-- Without the fields that are not read. -/
structure HeartbeatRequest where
  leaderEpoch : Nat
  leaderId : String
  topicPartition : Option TopicPartition
  highWatermark : Nat

end Proto

def heartbeatRequestFromProto (req : Proto.HeartbeatRequest) :
    ConversionResult HeartbeatRequest := do
  let topicPartition ← required "topic_partition" req.topicPartition
  return ⟨req.leaderEpoch, req.leaderId, topicPartitionFromProto topicPartition, req.highWatermark⟩

theorem timestampFromProto_exact_iff {ts : Proto.Timestamp} (h : ts.InRange) :
    timestampFromProto ts = .ok ts.floorMillis ↔ 0 ≤ ts.nanos ∨ 1000000 ∣ ts.nanos := by
  rw [timestampFromProto, asI64_of_isI64 h.1, asI64_of_isI64 h.2, Except.ok.injEq,
    Proto.Timestamp.floorMillis]
  have hfloor : (ts.seconds * 10 ^ 9 + ts.nanos) / 10 ^ 6 =
      ts.seconds * 1000 + ts.nanos / 1000000 := by omega
  rw [hfloor, Int.add_right_inj, Int.tdiv_eq_ediv, show Int.sign 1000000 = 1 from rfl]
  split_ifs with hplain
  · simp [hplain]
  · simp [hplain]

/-- The record that arrives has the timestamp that was sent, as it is decoded. -/
def Timed (sent : Proto.WalRecord) (got : WalRecord) : Prop :=
  ∀ ts, sent.record.bind (·.timestamp) = some ts →
    timestampFromProto ts = .ok got.record.timestamp

theorem walRecordFromProto_timed {sent : Proto.WalRecord} {got : WalRecord}
    (h : walRecordFromProto now sent = .ok got) : Timed sent got := by
  intro ts hts
  obtain ⟨record, hrecord, hts⟩ := bind_eq_some_iff.mp hts
  obtain ⟨tp, -, h⟩ := bind_eq_ok.mp h
  rw [hrecord] at h
  obtain ⟨_, ⟨⟩, h⟩ := bind_eq_ok.mp h
  obtain ⟨decoded, hdecoded, h⟩ := bind_eq_ok.mp h
  rw [recordFromProto, hts] at hdecoded
  cases h
  cases hdecoded
  rfl

theorem forall₂_of_mapM_eq_ok {ε α β : Type} {f : α → Except ε β} {l : List α} {l' : List β}
    (h : l.mapM f = .ok l') : List.Forall₂ (fun a b => f a = .ok b) l l' := by
  induction l generalizing l' with
  | nil =>
    cases h
    exact .nil
  | cons a l ih =>
    rw [List.mapM_cons] at h
    obtain ⟨b, hb, h⟩ := bind_eq_ok.mp h
    obtain ⟨bs, hbs, h⟩ := bind_eq_ok.mp h
    cases h
    exact .cons hb (ih hbs)

theorem exact_iff_plain {sent : List Proto.WalRecord} {got : List WalRecord}
    (h : List.Forall₂ Timed sent got) :
    (∀ ts ∈ sent.filterMap fun r => r.record.bind (·.timestamp), ts.InRange) ∧
        List.Forall₂ (fun sent got => ∀ ts, sent.record.bind (·.timestamp) = some ts →
          got.record.timestamp = ts.floorMillis) sent got ↔
      ∀ ts ∈ sent.filterMap fun r => r.record.bind (·.timestamp), ts.Plain := by
  induction h with
  | nil => simp
  | @cons first _ sent got hfirst _ ih =>
    cases hts : first.record.bind (·.timestamp) with
    | none => simpa [List.filterMap_cons, hts] using ih
    | some ts =>
      have hhead : ts.Plain ↔ ts.InRange ∧ timestampFromProto ts = .ok ts.floorMillis :=
        and_congr_right fun h => (timestampFromProto_exact_iff h).symm
      rw [hfirst ts hts, Except.ok.injEq] at hhead
      simp only [List.filterMap_cons, hts, List.forall_mem_cons, List.forall₂_cons, ← ih, hhead,
        some.injEq, forall_eq']
      tauto

variable (now) in
theorem walRecordFromProto_isOk_iff {sent : Proto.WalRecord} :
    (∃ got, walRecordFromProto now sent = .ok got) ↔ sent.WellFormed = true := by
  obtain ⟨tp, offset, record, crc, version⟩ := sent
  cases tp with
  | none => exact iff_of_false (fun ⟨_, h⟩ => nomatch h) (by simp [Proto.WalRecord.WellFormed])
  | some tp =>
    cases record with
    | none => exact iff_of_false (fun ⟨_, h⟩ => nomatch h) (by simp [Proto.WalRecord.WellFormed])
    | some record =>
      obtain ⟨key, value, headers, timestamp⟩ := record
      refine iff_of_true ?_ rfl
      cases timestamp with
      | none => exact ⟨_, rfl⟩
      | some ts => exact ⟨_, rfl⟩

theorem mapM_isOk_iff {ε α β : Type} {f : α → Except ε β} {l : List α} :
    (∃ l', l.mapM f = .ok l') ↔ ∀ a ∈ l, ∃ b, f a = .ok b := by
  constructor
  · rintro ⟨l', h⟩ a ha
    obtain ⟨i, hi, rfl⟩ := List.getElem_of_mem ha
    have hall := forall₂_of_mapM_eq_ok h
    exact ⟨_, hall.get hi (hall.length_eq ▸ hi)⟩
  · intro h
    induction l with
    | nil => exact ⟨[], rfl⟩
    | cons a l ih =>
      obtain ⟨⟨b, hb⟩, hrest⟩ := List.forall_mem_cons.mp h
      obtain ⟨l', hl'⟩ := ih hrest
      exact ⟨b :: l', by rw [List.mapM_cons, hb, hl']; rfl⟩

variable (now) in
/-- A request is accepted exactly if no field that is required is missing. -/
theorem replicateDataRequestFromProto_isOk_iff {req : Proto.ReplicateDataRequest} :
    (∃ req', replicateDataRequestFromProto now req = .ok req') ↔ req.WellFormed := by
  rw [Proto.ReplicateDataRequest.WellFormed, replicateDataRequestFromProto]
  cases req.topicPartition with
  | none => exact iff_of_false (fun ⟨_, h⟩ => nomatch h) fun h => nomatch h.1
  | some tp =>
    simp only [Option.isSome_some, true_and, ← walRecordFromProto_isOk_iff now,
      ← mapM_isOk_iff]
    cases req.records.mapM (walRecordFromProto now) with
    | error e => exact iff_of_false (fun ⟨_, h⟩ => nomatch h) fun ⟨_, h⟩ => nomatch h
    | ok records => exact iff_of_true ⟨_, rfl⟩ ⟨_, rfl⟩

theorem timestamps_of_wellFormed {req : Proto.ReplicateDataRequest} (h : req.WellFormed) :
    req.timestamps = req.records.filterMap fun r => r.record.bind (·.timestamp) := by
  rw [Proto.ReplicateDataRequest.timestamps, if_pos h.1, List.takeWhile_eq_self_iff.mpr h.2]

theorem plain_iff {ts : Proto.Timestamp} {millis : Int} (h : timestampFromProto ts = .ok millis) :
    ts.InRange ∧ millis = ts.floorMillis ↔ ts.Plain := by
  rw [Proto.Timestamp.Plain]
  refine and_congr_right fun hrange => ?_
  rw [← timestampFromProto_exact_iff hrange, h, Except.ok.injEq]

def sentAt (ts : Proto.Timestamp) : Proto.ReplicateDataRequest :=
  ⟨1, some ⟨"orders", 0⟩, [⟨some ⟨"orders", 0⟩, 0, some ⟨[], [1], [], some ts⟩, 7, 1⟩], "broker-1",
    0, 0, none, 0, 0, 0, 0⟩

end RustMq.Replication
