import RustMq.Lib.Runs
import RustMq.Lib.SortedMap
import RustMq.Types

/-!
# The raft state machine of the controller

`RustMqStateMachine::apply` and `apply_app_data` (`src/controller/openraft_storage.rs`): five
commands on three ordered maps. The maps are `BTreeMap`s, so they are `SMap`s here and enumerate
in the same order; a string is ordered by its code points, which is the order of its UTF-8 bytes.

The only thing a command reads besides the state is the clock, for the creation time of a
topic. An entry is therefore applied together with the reading of the clock
(`chrono::Utc::now`), given as the RFC 3339 text `chrono` serializes it to.
-/

namespace RustMq.Controller

open Lib SMap

/-- The derived order of `TopicPartition`: topic first, then partition. -/
scoped instance topicPartitionOrder : LinearOrder TopicPartition :=
  LinearOrder.lift' (fun tp => toLex (tp.topic, tp.partition)) fun a b h => by
    obtain ⟨ta, pa⟩ := a
    obtain ⟨tb, pb⟩ := b
    have h := congrArg ofLex h
    simp only [ofLex_toLex, Prod.mk.injEq] at h
    rw [h.1, h.2]

abbrev BrokerId := String

structure LeaderId where
  term : Nat
  nodeId : Nat
  deriving DecidableEq

structure LogId where
  leaderId : LeaderId
  index : Nat
  deriving DecidableEq

structure TopicConfig where
  retentionMs : Option Nat
  segmentBytes : Option Nat
  compressionType : Option String
  deriving DecidableEq

structure TopicInfo where
  name : String
  partitions : Nat
  replicationFactor : Nat
  config : TopicConfig
  createdAt : String
  deriving DecidableEq

structure BrokerInfo where
  id : BrokerId
  host : String
  portQuic : Nat
  portRpc : Nat
  rackId : String
  deriving DecidableEq

structure PartitionAssignment where
  leader : BrokerId
  replicas : List BrokerId
  inSyncReplicas : List BrokerId
  leaderEpoch : Nat
  deriving DecidableEq

inductive RustMqAppData where
  | createTopic (name : String) (partitions replicationFactor : Nat) (config : TopicConfig)
  | deleteTopic (name : String)
  | addBroker (broker : BrokerInfo)
  | removeBroker (brokerId : BrokerId)
  | updatePartitionAssignment (topicPartition : TopicPartition) (assignment : PartitionAssignment)
  deriving DecidableEq

structure RustMqAppDataResponse where
  success : Bool
  errorMessage : Option String
  data : Option String
  deriving DecidableEq

structure RustMqNode where
  addr : String
  rpcPort : Nat
  data : String
  deriving DecidableEq

structure Membership where
  configs : List (List Nat)
  nodes : List (Nat × RustMqNode)
  deriving DecidableEq

inductive EntryPayload where
  | blank
  | normal (data : RustMqAppData)
  | membership (membership : Membership)
  deriving DecidableEq

structure Entry where
  logId : LogId
  payload : EntryPayload
  deriving DecidableEq

/-- The cluster state, which is also what a snapshot saves. -/
structure RustMqSnapshotData where
  topics : SMap String TopicInfo
  brokers : SMap BrokerId BrokerInfo
  partitionAssignments : SMap TopicPartition PartitionAssignment
  lastAppliedLog : Option LogId
  snapshotVersion : Nat

def RustMqSnapshotData.default : RustMqSnapshotData :=
  ⟨.empty, .empty, .empty, none, 0⟩

/-! ## Commands -/

def accepted (data : String) : RustMqAppDataResponse := ⟨true, none, some data⟩

def refused (message : String) : RustMqAppDataResponse := ⟨false, some message, none⟩

def applyAppData (now : String) (state : RustMqSnapshotData) :
    RustMqAppData → RustMqSnapshotData × RustMqAppDataResponse
  | .createTopic name partitions replicationFactor config =>
    if (state.topics.get? name).isSome then
      (state, refused ("Topic " ++ name ++ " already exists"))
    else
      ({ state with
          topics := state.topics.insert name ⟨name, partitions, replicationFactor, config, now⟩ },
        accepted ("Topic " ++ name ++ " created"))
  | .deleteTopic name =>
    if (state.topics.get? name).isSome then
      ({ state with
          topics := state.topics.erase name
          partitionAssignments :=
            state.partitionAssignments.filterKeys fun tp => tp.topic ≠ name },
        accepted ("Topic " ++ name ++ " deleted"))
    else
      (state, refused ("Topic " ++ name ++ " not found"))
  | .addBroker broker =>
    ({ state with brokers := state.brokers.insert broker.id broker },
      accepted ("Broker " ++ broker.id ++ " added"))
  | .removeBroker brokerId =>
    if (state.brokers.get? brokerId).isSome then
      ({ state with brokers := state.brokers.erase brokerId },
        accepted ("Broker " ++ brokerId ++ " removed"))
    else
      (state, refused ("Broker " ++ brokerId ++ " not found"))
  | .updatePartitionAssignment topicPartition assignment =>
    ({ state with
        partitionAssignments := state.partitionAssignments.insert topicPartition assignment },
      accepted ("Partition assignment updated for " ++ toString topicPartition))

section

variable (now : String) (state : RustMqSnapshotData) (data : RustMqAppData)

theorem get?_topics_applyAppData (topic : String) :
    (applyAppData now state data).1.topics.get? topic =
      match data with
      | .createTopic name partitions replicationFactor config =>
        if topic = name ∧ state.topics.get? name = none then
          some ⟨name, partitions, replicationFactor, config, now⟩
        else state.topics.get? topic
      | .deleteTopic name => if topic = name then none else state.topics.get? topic
      | _ => state.topics.get? topic := by
  cases data with
  | createTopic name partitions replicationFactor config =>
    simp only [applyAppData]
    cases hname : state.topics.get? name with
    | some info => simp
    | none =>
      by_cases htopic : topic = name
      · simp [htopic]
      · simp [get?_insert, htopic]
  | deleteTopic name =>
    simp only [applyAppData]
    cases hname : state.topics.get? name with
    | some info => simp [get?_erase]
    | none =>
      by_cases htopic : topic = name
      · simp [htopic, hname]
      · simp [htopic]
  | addBroker | updatePartitionAssignment => rfl
  | removeBroker brokerId => simp only [applyAppData]; split <;> rfl

theorem get?_brokers_applyAppData (broker : BrokerId) :
    (applyAppData now state data).1.brokers.get? broker =
      match data with
      | .addBroker info => if broker = info.id then some info else state.brokers.get? broker
      | .removeBroker brokerId => if broker = brokerId then none else state.brokers.get? broker
      | _ => state.brokers.get? broker := by
  cases data with
  | createTopic name partitions replicationFactor config =>
    simp only [applyAppData]; split <;> rfl
  | deleteTopic name => simp only [applyAppData]; split <;> rfl
  | addBroker info => simp only [applyAppData, get?_insert]
  | removeBroker brokerId =>
    simp only [applyAppData]
    cases hid : state.brokers.get? brokerId with
    | some info => simp [get?_erase]
    | none =>
      by_cases hbroker : broker = brokerId
      · simp [hbroker, hid]
      · simp [hbroker]
  | updatePartitionAssignment tp assignment => rfl

theorem get?_assignments_applyAppData (tp : TopicPartition) :
    (applyAppData now state data).1.partitionAssignments.get? tp =
      match data with
      | .deleteTopic name =>
        if tp.topic = name ∧ (state.topics.get? name).isSome then none
        else state.partitionAssignments.get? tp
      | .updatePartitionAssignment topicPartition assignment =>
        if tp = topicPartition then some assignment else state.partitionAssignments.get? tp
      | _ => state.partitionAssignments.get? tp := by
  cases data with
  | createTopic name partitions replicationFactor config =>
    simp only [applyAppData]; split <;> rfl
  | deleteTopic name =>
    simp only [applyAppData]
    by_cases hname : (state.topics.get? name).isSome
    · by_cases htopic : tp.topic = name
      · simp [hname, htopic, get?_filterKeys]
      · simp [hname, htopic, get?_filterKeys]
    · simp [hname]
  | addBroker broker => rfl
  | removeBroker brokerId => simp only [applyAppData]; split <;> rfl
  | updatePartitionAssignment topicPartition assignment =>
    by_cases htp : tp = topicPartition
    · simp [applyAppData, htp]
    · simp [applyAppData, get?_insert, htp]

end

/-! ## Entries -/

structure Stamped where
  entry : Entry
  now : String
  deriving DecidableEq

structure RustMqStateMachine where
  state : RustMqSnapshotData
  lastApplied : Option LogId
  appliedSinceLastSnapshot : Nat

namespace RustMqStateMachine

def fresh : RustMqStateMachine := ⟨.default, none, 0⟩

def applyPayload (now : String) (state : RustMqSnapshotData) :
    EntryPayload → RustMqSnapshotData × RustMqAppDataResponse
  | .blank => (state, ⟨true, none, none⟩)
  | .normal data => applyAppData now state data
  -- membership changes are openraft's; the state machine keeps nothing of them
  | .membership _ => (state, accepted "Membership change applied")

def applyEntry (m : RustMqStateMachine) (e : Stamped) :
    RustMqStateMachine × RustMqAppDataResponse :=
  let result := applyPayload e.now m.state e.entry.payload
  ({ m with
      state := { result.1 with lastAppliedLog := some e.entry.logId }
      lastApplied := some e.entry.logId }, result.2)

def applyEntries (m : RustMqStateMachine) (es : List Stamped) : RustMqStateMachine :=
  es.foldl (fun m e => (m.applyEntry e).1) m

def responses (m : RustMqStateMachine) : List Stamped → List RustMqAppDataResponse
  | [] => []
  | e :: es => (m.applyEntry e).2 :: (m.applyEntry e).1.responses es

/-- `apply` on a batch: the state machine after it, the responses, and whether a task that saves
a snapshot is spawned. -/
def apply (snapshotThreshold : Nat) (m : RustMqStateMachine) (es : List Stamped) :
    RustMqStateMachine × List RustMqAppDataResponse × Bool :=
  let m' := m.applyEntries es
  let applied := m.appliedSinceLastSnapshot + (m.responses es).length
  if snapshotThreshold ≤ applied then
    ({ m' with appliedSinceLastSnapshot := 0 }, m.responses es, true)
  else ({ m' with appliedSinceLastSnapshot := applied }, m.responses es, false)

/-- `applied_state`: the last applied id. The membership it reports is always the default one. -/
def appliedState (m : RustMqStateMachine) : Option LogId × Option LogId × Membership :=
  (m.lastApplied, none, ⟨[], []⟩)

theorem applyEntries_append (m : RustMqStateMachine) (es fs : List Stamped) :
    m.applyEntries (es ++ fs) = (m.applyEntries es).applyEntries fs :=
  List.foldl_append

theorem lastApplied_applyEntries (m : RustMqStateMachine) (es : List Stamped) :
    (m.applyEntries es).lastApplied =
      (es.getLast?.map fun e => e.entry.logId).or m.lastApplied := by
  induction es using List.reverseRecOn with
  | nil => rfl
  | append_singleton es e _ =>
    rw [applyEntries_append, List.getLast?_concat]
    rfl

def step (m : RustMqStateMachine) (e : Stamped) : Option RustMqStateMachine :=
  some (m.applyEntry e).1

theorem exec_step (m : RustMqStateMachine) (es : List Stamped) :
    exec step m es = some (m.applyEntries es) := by
  induction es generalizing m with
  | nil => rfl
  | cons e es ih => exact ih (m.applyEntry e).1

@[simp] theorem state_apply (threshold : Nat) (m : RustMqStateMachine) (es : List Stamped) :
    (m.apply threshold es).1.state = (m.applyEntries es).state := by
  rw [apply]
  split <;> rfl

@[simp] theorem lastApplied_apply (threshold : Nat) (m : RustMqStateMachine) (es : List Stamped) :
    (m.apply threshold es).1.lastApplied = (m.applyEntries es).lastApplied := by
  rw [apply]
  split <;> rfl

end RustMqStateMachine
end RustMq.Controller
