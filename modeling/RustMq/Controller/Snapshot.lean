import RustMq.Lib.MapCodec
import RustMq.Controller.StateMachine

/-!
# Snapshots of the state machine

`src/controller/openraft_storage.rs` writes the cluster state in two formats. `save_snapshot`
and `get_current_snapshot` serialize `RustMqSnapshotData`; `get_snapshot_builder` serializes a
`SnapshotPayload`, which is the same data followed by the last applied log id. `install_snapshot`
reads a `SnapshotPayload`.
-/

namespace RustMq.Controller

open Lib

/-! ## Formats -/

def logIdCodec : Codec LogId :=
  (((Codec.uint 8).pair (.uint 8)).pair (.uint 8)).iso (fun p => ⟨⟨p.1.1, p.1.2⟩, p.2⟩)
    (fun i => ((i.leaderId.term, i.leaderId.nodeId), i.index)) fun _ => rfl

theorem logIdCodec_fits {id : LogId}
    (h : id.leaderId.term < 256 ^ 8 ∧ id.leaderId.nodeId < 256 ^ 8 ∧ id.index < 256 ^ 8) :
    logIdCodec.Fits id :=
  ⟨⟨h.1, h.2.1⟩, h.2.2⟩

def topicConfigCodec : Codec TopicConfig :=
  ((Codec.option (.uint 8)).pair ((Codec.option (.uint 8)).pair (Codec.option .string))).iso
    (fun p => ⟨p.1, p.2.1, p.2.2⟩)
    (fun c => (c.retentionMs, c.segmentBytes, c.compressionType)) fun _ => rfl

def topicInfoCodec : Codec TopicInfo :=
  (Codec.string.pair ((Codec.uint 4).pair ((Codec.uint 4).pair
    (topicConfigCodec.pair .string)))).iso
    (fun p => ⟨p.1, p.2.1, p.2.2.1, p.2.2.2.1, p.2.2.2.2⟩)
    (fun t => (t.name, t.partitions, t.replicationFactor, t.config, t.createdAt)) fun _ => rfl

def brokerInfoCodec : Codec BrokerInfo :=
  (Codec.string.pair (Codec.string.pair ((Codec.uint 2).pair ((Codec.uint 2).pair .string)))).iso
    (fun p => ⟨p.1, p.2.1, p.2.2.1, p.2.2.2.1, p.2.2.2.2⟩)
    (fun b => (b.id, b.host, b.portQuic, b.portRpc, b.rackId)) fun _ => rfl

def partitionAssignmentCodec : Codec PartitionAssignment :=
  (Codec.string.pair ((Codec.list .string).pair ((Codec.list .string).pair (.uint 8)))).iso
    (fun p => ⟨p.1, p.2.1, p.2.2.1, p.2.2.2⟩)
    (fun a => (a.leader, a.replicas, a.inSyncReplicas, a.leaderEpoch)) fun _ => rfl

def snapshotDataCodec : Codec RustMqSnapshotData :=
  ((Codec.map .string topicInfoCodec).pair ((Codec.map .string brokerInfoCodec).pair
    ((Codec.map topicPartitionCodec partitionAssignmentCodec).pair
      ((Codec.option logIdCodec).pair (.uint 8))))).iso
    (fun p => ⟨p.1, p.2.1, p.2.2.1, p.2.2.2.1, p.2.2.2.2⟩)
    (fun s => (s.topics, s.brokers, s.partitionAssignments, s.lastAppliedLog, s.snapshotVersion))
    fun _ => rfl

structure SnapshotPayload where
  data : RustMqSnapshotData
  lastLogId : Option LogId

def snapshotPayloadCodec : Codec SnapshotPayload :=
  (snapshotDataCodec.pair (.option logIdCodec)).iso (fun p => ⟨p.1, p.2⟩)
    (fun p => (p.data, p.lastLogId)) fun _ => rfl

variable {data : RustMqSnapshotData}

/-- **The bytes of the data alone are not a payload**: the tag of the last log id is missing. -/
theorem decode_payload_enc_data (h : snapshotDataCodec.Fits data) :
    snapshotPayloadCodec.decode (snapshotDataCodec.enc data) = none := by
  have hdata : snapshotDataCodec.dec (snapshotDataCodec.enc data) = some (data, []) := by
    have := snapshotDataCodec.dec_enc data [] h
    rwa [List.append_nil] at this
  have htag : (Codec.option logIdCodec).dec [] = none := rfl
  have hpair : (snapshotDataCodec.pair (.option logIdCodec)).dec (snapshotDataCodec.enc data)
      = none := by
    simp only [Codec.pair, hdata, htag, Option.bind_eq_bind, Option.bind_some, Option.bind_none]
  simp only [Codec.decode, snapshotPayloadCodec, Codec.iso, hpair, Option.map_none]

/-! ## The snapshot on disk -/

namespace RustMqStateMachine

def saveSnapshot (data : RustMqSnapshotData) : List UInt8 := snapshotDataCodec.enc data

/-- `RustMqStateMachine::new` over the `snapshot.bin` of the directory, if there is one. Loading
replaces the cluster state only: `last_applied` stays `None`. -/
def new (snapshotFile : Option (List UInt8)) : RustMqStateMachine :=
  match snapshotFile.bind snapshotDataCodec.decode with
  | some data => { fresh with state := data }
  | none => fresh

theorem new_saveSnapshot (h : snapshotDataCodec.Fits data) :
    new (some (saveSnapshot data)) = { fresh with state := data } := by
  have hdecode : snapshotDataCodec.decode (saveSnapshot data) = some data := by
    have := snapshotDataCodec.decode_enc h []
    rwa [List.append_nil] at this
  rw [new, Option.bind_some, hdecode]

/-! ## Snapshots for other nodes -/

end RustMqStateMachine

/-- The verb of the `StorageIOError` the snapshot functions return. -/
inductive StorageError where
  | read
  | write
  deriving DecidableEq

structure SnapshotMeta where
  lastLogId : Option LogId
  lastMembership : Option LogId × Membership
  snapshotId : String

structure Snapshot where
  info : SnapshotMeta
  snapshot : List UInt8

namespace RustMqStateMachine

def payload (m : RustMqStateMachine) : SnapshotPayload := ⟨m.state, m.lastApplied⟩

/-- `get_snapshot_builder`: the builder is a cursor over the bytes of the payload. -/
def getSnapshotBuilder (m : RustMqStateMachine) : List UInt8 := snapshotPayloadCodec.enc m.payload

def buildSnapshot (now : Nat) (builder : List UInt8) : Except StorageError Snapshot :=
  match snapshotPayloadCodec.decode builder with
  | none => .error .read
  | some payload =>
    .ok ⟨⟨payload.lastLogId, (none, ⟨[], []⟩), "snapshot_" ++ toString now⟩, builder⟩

def getCurrentSnapshot (now : Nat) (m : RustMqStateMachine) :
    Except StorageError (Option Snapshot) :=
  match m.lastApplied with
  | some lastApplied =>
    .ok (some ⟨⟨some lastApplied, (none, ⟨[], []⟩), "snapshot_" ++ toString now⟩,
      snapshotDataCodec.enc m.state⟩)
  | none => .ok none

def installSnapshot (m : RustMqStateMachine) (snapshot : Snapshot) :
    Except StorageError RustMqStateMachine :=
  match snapshotPayloadCodec.decode snapshot.snapshot with
  | none => .error .read
  | some payload => .ok { m with state := payload.data, lastApplied := payload.lastLogId }

structure Restores (m source : RustMqStateMachine) : Prop where
  topics : m.state.topics = source.state.topics
  brokers : m.state.brokers = source.state.brokers
  partitionAssignments : m.state.partitionAssignments = source.state.partitionAssignments
  appliedState : m.appliedState = source.appliedState

def Accepts (target source : RustMqStateMachine) (snapshot : Snapshot) : Prop :=
  ∃ m, target.installSnapshot snapshot = .ok m ∧ m.Restores source

variable {m : RustMqStateMachine}

theorem accepts_built (h : snapshotPayloadCodec.Fits m.payload) (target : RustMqStateMachine)
    (now : Nat) :
    ∃ snapshot, buildSnapshot now m.getSnapshotBuilder = .ok snapshot ∧
      target.Accepts m snapshot := by
  have hdecode : snapshotPayloadCodec.decode m.getSnapshotBuilder = some m.payload := by
    have := snapshotPayloadCodec.decode_enc h []
    rwa [List.append_nil] at this
  refine ⟨⟨⟨m.lastApplied, (none, ⟨[], []⟩), "snapshot_" ++ toString now⟩,
    m.getSnapshotBuilder⟩, ?_, ?_⟩
  · rw [buildSnapshot, hdecode]
    rfl
  · refine ⟨{ target with state := m.state, lastApplied := m.lastApplied }, ?_, rfl, rfl, rfl, rfl⟩
    simp only [installSnapshot, hdecode]
    rfl

theorem not_accepts_current (h : snapshotDataCodec.Fits m.state) {now : Nat} {snapshot : Snapshot}
    (hsnapshot : m.getCurrentSnapshot now = .ok (some snapshot)) (target : RustMqStateMachine) :
    target.installSnapshot snapshot = .error .read := by
  rw [getCurrentSnapshot] at hsnapshot
  split at hsnapshot
  · cases hsnapshot
    simp only [installSnapshot, decode_payload_enc_data h]
  · cases hsnapshot

/-- **Snapshots for other nodes.** That of the builder is accepted by every machine; that of
`get_current_snapshot` only if there were no entries. -/
theorem snapshots_install (es : List Stamped) (target : RustMqStateMachine) (now : Nat)
    (hfits : snapshotPayloadCodec.Fits (fresh.applyEntries es).payload) :
    (∃ snapshot, buildSnapshot now (fresh.applyEntries es).getSnapshotBuilder = .ok snapshot ∧
        target.Accepts (fresh.applyEntries es) snapshot) ∧
      ((∀ snapshot, (fresh.applyEntries es).getCurrentSnapshot now = .ok (some snapshot) →
        target.Accepts (fresh.applyEntries es) snapshot) ↔ es = []) := by
  refine ⟨accepts_built hfits target now, fun hall => ?_, ?_⟩
  · by_contra hne
    -- the last entry is recorded, so there is a current snapshot
    obtain ⟨pre, last, rfl⟩ : ∃ pre last, es = pre ++ [last] :=
      ⟨es.dropLast, es.getLast hne, (List.dropLast_append_getLast hne).symm⟩
    have happlied : (fresh.applyEntries (pre ++ [last])).lastApplied = some last.entry.logId := by
      rw [lastApplied_applyEntries, List.getLast?_concat]
      rfl
    obtain ⟨m, hm, -⟩ := hall _ (by rw [getCurrentSnapshot, happlied])
    rw [not_accepts_current hfits.1 (by rw [getCurrentSnapshot, happlied])] at hm
    cases hm
  · rintro rfl snapshot hsnapshot
    cases hsnapshot

def oneBroker : Stamped := ⟨⟨⟨⟨1, 1⟩, 1⟩, .normal (.addBroker ⟨"b", "h", 1, 2, "r"⟩)⟩, ""⟩

theorem fits_string {s : String} (h : s.toUTF8.data.toList.length < 256 ^ 8) :
    Codec.string.Fits s := h

theorem oneBroker_fits : snapshotPayloadCodec.Fits (fresh.applyEntries [oneBroker]).payload := by
  have hid : (Codec.option logIdCodec).Fits (some ⟨⟨1, 1⟩, 1⟩) := by
    rintro _ ⟨⟩
    exact logIdCodec_fits (by decide)
  have hbroker : brokerInfoCodec.Fits ⟨"b", "h", 1, 2, "r"⟩ :=
    ⟨fits_string (by decide), fits_string (by decide), by show 1 < 256 ^ 2; decide,
      by show 2 < 256 ^ 2; decide, fits_string (by decide)⟩
  have hbrokers : (Codec.list (Codec.string.pair brokerInfoCodec)).Fits
      [("b", ⟨"b", "h", 1, 2, "r"⟩)] := by
    refine ⟨by decide, fun e he => ?_⟩
    rw [List.mem_singleton.mp he]
    exact ⟨fits_string (by decide), hbroker⟩
  exact ⟨⟨Codec.list_fits_nil _, hbrokers, Codec.list_fits_nil _, hid,
    by show 0 < 256 ^ 8; decide⟩, hid⟩

theorem snapshots_install_oneBroker :
    (∃ snapshot, buildSnapshot 0 (fresh.applyEntries [oneBroker]).getSnapshotBuilder =
        .ok snapshot ∧ fresh.Accepts (fresh.applyEntries [oneBroker]) snapshot) ∧
      ((∀ snapshot, (fresh.applyEntries [oneBroker]).getCurrentSnapshot 0 = .ok (some snapshot) →
        fresh.Accepts (fresh.applyEntries [oneBroker]) snapshot) ↔ [oneBroker] = []) :=
  snapshots_install [oneBroker] fresh 0 oneBroker_fits

/-- The current snapshot of that cluster, offered to a fresh node: an error. -/
theorem current_snapshot_rejected :
    ∃ snapshot, (fresh.applyEntries [oneBroker]).getCurrentSnapshot 0 = .ok (some snapshot) ∧
      fresh.installSnapshot snapshot = .error .read :=
  ⟨_, rfl, not_accepts_current oneBroker_fits.1 rfl fresh⟩

end RustMqStateMachine
end RustMq.Controller
