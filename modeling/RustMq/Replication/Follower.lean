import RustMq.Lib.Runs
import RustMq.Store.PartitionStore

/-!
# The follower's replication handler

`FollowerReplicationHandler` (`src/replication/follower.rs`) and the leadership transfer of the
gRPC service that acts on it (`src/network/grpc_server.rs`). A handler knows a leader epoch, a
leader and the partition it is responsible for, and appends what it is sent to its record log,
which is the broker's partition store.

Two facts about the order of its steps matter. `handle_replicate_data` adopts a higher epoch
before it looks at the partition of the request, and it appends the records of a batch one by
one and leaves at the first that fails. The label of a request therefore carries, besides the
request, how the append of each of its records ends.
-/

namespace RustMq.Replication

open Lib Store

abbrev BrokerId := String

structure FollowerState where
  brokerId : BrokerId
  lastKnownOffset : Nat
  lag : Nat
  deriving DecidableEq

structure ReplicateDataRequest where
  leaderEpoch : Nat
  topicPartition : TopicPartition
  records : List WalRecord
  leaderId : BrokerId
  deriving DecidableEq

structure ReplicateDataResponse where
  success : Bool
  errorCode : Nat
  errorMessage : Option String
  followerState : Option FollowerState
  deriving DecidableEq

structure HeartbeatRequest where
  leaderEpoch : Nat
  leaderId : BrokerId
  topicPartition : TopicPartition
  highWatermark : Nat
  deriving DecidableEq

structure TransferLeadershipRequest where
  topicPartition : TopicPartition
  currentLeaderId : BrokerId
  currentLeaderEpoch : Nat
  newLeaderId : BrokerId
  deriving DecidableEq

structure TransferLeadershipResponse where
  success : Bool
  errorCode : Nat
  errorMessage : Option String
  newLeaderEpoch : Option Nat
  deriving DecidableEq

structure FollowerReplicationHandler where
  leaderEpoch : Nat
  currentLeader : Option BrokerId
  topicPartition : TopicPartition
  recordLog : PartitionStore
  brokerId : BrokerId

def debugPartition (tp : TopicPartition) : String :=
  "TopicPartition \x7b topic: \"" ++ tp.topic ++ "\", partition: " ++ toString tp.partition ++ " \x7d"

def wrongPartition (expected got : TopicPartition) : String :=
  "Wrong partition: expected " ++ debugPartition expected ++ ", got " ++ debugPartition got

def staleEpoch (requestEpoch currentEpoch : Nat) : String :=
  "Stale leader epoch: request epoch " ++ toString requestEpoch ++ " < current epoch " ++
    toString currentEpoch

def appendAll (cfg : StoreConfig) (outcome : Nat → AppendOutcome) :
    (i : Nat) → List WalRecord → PartitionStore → PartitionStore × Bool
  | _, [], log => (log, true)
  | i, r :: records, log =>
    match outcome i with
    | .ok => appendAll cfg outcome (i + 1) records (log.append cfg r .ok)
    | .fail left => (log.append cfg r (.fail left), false)

namespace FollowerReplicationHandler

variable (h : FollowerReplicationHandler)

/-- A higher epoch is taken over together with the leader that sent it. -/
def adopt (epoch : Nat) (leader : BrokerId) : FollowerReplicationHandler :=
  if h.leaderEpoch < epoch then { h with leaderEpoch := epoch, currentLeader := some leader }
  else h

def handleReplicateData (cfg : StoreConfig) (request : ReplicateDataRequest)
    (outcome : Nat → AppendOutcome) : ReplicateDataResponse × FollowerReplicationHandler :=
  if request.leaderEpoch < h.leaderEpoch then
    (⟨false, 1001, some (staleEpoch request.leaderEpoch h.leaderEpoch), none⟩, h)
  else
    let h := h.adopt request.leaderEpoch request.leaderId
    if request.topicPartition ≠ h.topicPartition then
      (⟨false, 1002, some (wrongPartition h.topicPartition request.topicPartition), none⟩, h)
    else
      match appendAll cfg outcome 0 request.records h.recordLog with
      | (log, false) =>
        (⟨false, 1003, some "WAL append failed", none⟩, { h with recordLog := log })
      | (log, true) =>
        (⟨true, 0, none, some ⟨h.brokerId, log.index.nextOffset h.topicPartition, 0⟩⟩,
          { h with recordLog := log })

def handleHeartbeat (request : HeartbeatRequest) :
    Except RustMqError FollowerState × FollowerReplicationHandler :=
  if request.leaderEpoch < h.leaderEpoch then
    (.error (.staleLeaderEpoch request.leaderEpoch h.leaderEpoch), h)
  else
    let h := h.adopt request.leaderEpoch request.leaderId
    if request.topicPartition ≠ h.topicPartition then
      (.error (.invalidOperation (wrongPartition h.topicPartition request.topicPartition)), h)
    else
      let currentOffset := h.recordLog.index.nextOffset h.topicPartition
      (.ok ⟨h.brokerId, currentOffset, request.highWatermark - currentOffset⟩, h)

def updateLeadership (newEpoch : Nat) (newLeader : BrokerId) : FollowerReplicationHandler :=
  { h with leaderEpoch := newEpoch, currentLeader := some newLeader }

end FollowerReplicationHandler

inductive FenceResult where
  | proceed
  | fenced (currentEpoch : Nat)
  deriving DecidableEq

/-- `transfer_leadership` on the handler of the request's partition. `fence` is what
`reserve_leadership` answers. -/
def transferLeadership (h : FollowerReplicationHandler) (request : TransferLeadershipRequest)
    (fence : Except RustMqError FenceResult) :
    Except RustMqError TransferLeadershipResponse × FollowerReplicationHandler :=
  if request.currentLeaderEpoch < h.leaderEpoch then
    (.ok ⟨false, 1001, some ("Cannot transfer leadership from stale leader: epoch " ++
      toString request.currentLeaderEpoch ++ " < current epoch " ++ toString h.leaderEpoch),
      none⟩, h)
  else
    let newEpoch := (h.leaderEpoch + 1) % 2 ^ 64
    match fence with
    | .error e => (.error e, h)
    | .ok (.fenced currentEpoch) =>
      (.ok ⟨false, 1001, some ("Transfer fenced: epoch " ++ toString newEpoch ++
        " is stale (reservation holds " ++ toString currentEpoch ++ ")"), none⟩, h)
    | .ok .proceed =>
      (.ok ⟨true, 0, none, some newEpoch⟩, h.updateLeadership newEpoch request.newLeaderId)

/-! ## Sequences of requests -/

inductive Request where
  | replicateData (request : ReplicateDataRequest) (outcome : Nat → AppendOutcome)
  | heartbeat (request : HeartbeatRequest)
  | transferLeadership (request : TransferLeadershipRequest)
      (fence : Except RustMqError FenceResult)

def handle (cfg : StoreConfig) (h : FollowerReplicationHandler) :
    Request → FollowerReplicationHandler
  | .replicateData request outcome => (h.handleReplicateData cfg request outcome).2
  | .heartbeat request => (h.handleHeartbeat request).2
  | .transferLeadership request fence => (transferLeadership h request fence).2

/-- A transfer does not find the handler at the last epoch of a `u64`. -/
def EpochLeft (h : FollowerReplicationHandler) : Request → Prop
  | .transferLeadership _ _ => h.leaderEpoch + 1 < 2 ^ 64
  | .replicateData _ _ | .heartbeat _ => True

instance (h : FollowerReplicationHandler) (r) : Decidable (EpochLeft h r) := by
  unfold EpochLeft
  split <;> infer_instance

/-- How a request may change the epoch and the leader: not at all, or to a higher epoch. -/
def Advances (h h' : FollowerReplicationHandler) : Prop :=
  (h'.leaderEpoch = h.leaderEpoch ∧ h'.currentLeader = h.currentLeader) ∨
    h.leaderEpoch < h'.leaderEpoch

variable {cfg : StoreConfig}

namespace Advances

variable {h h' h'' : FollowerReplicationHandler}

theorem refl (h : FollowerReplicationHandler) : Advances h h := Or.inl ⟨rfl, rfl⟩

theorem le (had : Advances h h') : h.leaderEpoch ≤ h'.leaderEpoch := by
  rcases had with ⟨heq, -⟩ | hlt
  · exact heq.ge
  · exact hlt.le

theorem trans (h₁ : Advances h h') (h₂ : Advances h' h'') : Advances h h'' := by
  rcases h₁ with ⟨hepoch, hleader⟩ | hlt
  · rcases h₂ with ⟨hepoch', hleader'⟩ | hlt'
    · exact .inl ⟨hepoch'.trans hepoch, hleader'.trans hleader⟩
    · exact .inr (hepoch ▸ hlt')
  · exact .inr (lt_of_lt_of_le hlt h₂.le)

theorem adopt (h : FollowerReplicationHandler) (epoch : Nat) (leader : BrokerId) :
    Advances h (h.adopt epoch leader) := by
  unfold FollowerReplicationHandler.adopt
  split
  · exact .inr ‹_›
  · exact refl h

theorem replicateData (cfg : StoreConfig) (h : FollowerReplicationHandler)
    (request : ReplicateDataRequest) (outcome : Nat → AppendOutcome) :
    Advances h (h.handleReplicateData cfg request outcome).2 := by
  unfold FollowerReplicationHandler.handleReplicateData
  split
  · exact refl h
  · have had := adopt h request.leaderEpoch request.leaderId
    simp only
    split
    · exact had
    · split
      · exact had
      · exact had

theorem heartbeat (h : FollowerReplicationHandler) (request : HeartbeatRequest) :
    Advances h (h.handleHeartbeat request).2 := by
  unfold FollowerReplicationHandler.handleHeartbeat
  split
  · exact refl h
  · have had := adopt h request.leaderEpoch request.leaderId
    simp only
    split
    · exact had
    · exact had

theorem transfer (h : FollowerReplicationHandler) (request : TransferLeadershipRequest)
    (fence : Except RustMqError FenceResult) (hleft : h.leaderEpoch + 1 < 2 ^ 64) :
    Advances h (transferLeadership h request fence).2 := by
  unfold transferLeadership
  split
  · exact refl h
  · simp only
    split
    · exact refl h
    · exact refl h
    · refine .inr ?_
      show h.leaderEpoch < (h.leaderEpoch + 1) % 2 ^ 64
      rw [Nat.mod_eq_of_lt hleft]
      exact Nat.lt_succ_self _

theorem request {r : Request} (hleft : EpochLeft h r) : Advances h (handle cfg h r) := by
  cases r with
  | replicateData request outcome => exact replicateData cfg h request outcome
  | heartbeat request => exact heartbeat h request
  | transferLeadership request fence => exact transfer h request fence hleft

end Advances

theorem recordLog_of_stale {h : FollowerReplicationHandler} {request : ReplicateDataRequest}
    (hstale : request.leaderEpoch < h.leaderEpoch) (outcome : Nat → AppendOutcome) :
    (h.handleReplicateData cfg request outcome).2.recordLog = h.recordLog := by
  unfold FollowerReplicationHandler.handleReplicateData
  rw [if_pos hstale]

/-- **Epoch fencing**, for requests that do not transfer leadership away from the last epoch. -/
theorem epoch_fencing (cfg : StoreConfig) {h h' : FollowerReplicationHandler}
    {requests : List Request}
    (hleft : Along (fun h r => some (handle cfg h r)) EpochLeft h requests)
    (hexec : exec (fun h r => some (handle cfg h r)) h requests = some h') :
    h.leaderEpoch ≤ h'.leaderEpoch ∧
      (h'.leaderEpoch = h.leaderEpoch → h'.currentLeader = h.currentLeader) ∧
      ∀ request outcome, request.leaderEpoch < h.leaderEpoch →
        (h'.handleReplicateData cfg request outcome).2.recordLog = h'.recordLog := by
  have had : Advances h h' := by
    refine exec_invariant (I := fun s => Advances h s) ?_ (Advances.refl h) hleft hexec
    intro s r s' hs hP hstep
    cases hstep
    exact hs.trans (Advances.request hP)
  refine ⟨had.le, ?_, ?_⟩
  · intro hsame
    rcases had with ⟨-, hleader⟩ | hlt
    · exact hleader
    · exact absurd hsame hlt.ne'
  · intro request outcome hlow
    exact recordLog_of_stale (lt_of_lt_of_le hlow had.le) outcome

def followerAt (epoch : Nat) : FollowerReplicationHandler :=
  ⟨epoch, none, ⟨"orders", 0⟩, .empty, "broker-2"⟩

def handover : List Request :=
  [.replicateData ⟨3, ⟨"orders", 0⟩, [⟨⟨"orders", 0⟩, 0, ⟨none, [1], [], 0⟩, 0⟩], "broker-1"⟩
      (fun _ => .ok),
    .transferLeadership ⟨⟨"orders", 0⟩, "broker-1", 3, "broker-3"⟩ (.ok .proceed)]

theorem epoch_fencing_handover :
    ∃ h', exec (fun h r => some (handle plainConfig h r)) (followerAt 1) handover = some h' ∧
      h'.leaderEpoch = 4 ∧ (followerAt 1).leaderEpoch ≤ h'.leaderEpoch ∧
      (h'.leaderEpoch = (followerAt 1).leaderEpoch →
        h'.currentLeader = (followerAt 1).currentLeader) ∧
      ∀ request outcome, request.leaderEpoch < (followerAt 1).leaderEpoch →
        (h'.handleReplicateData plainConfig request outcome).2.recordLog = h'.recordLog :=
  ⟨_, rfl, rfl, epoch_fencing plainConfig
    (by decide +kernel : Along _ EpochLeft (followerAt 1) handover) rfl⟩

/-- A request carries the last epoch, and the transfer that follows it wraps to 0. -/
theorem transfer_wraps_epoch :
    ∃ h₁ h₂, exec (fun h r => some (handle plainConfig h r)) (followerAt 0)
        [.replicateData ⟨2 ^ 64 - 1, ⟨"orders", 0⟩, [], "broker-1"⟩ (fun _ => .ok)] = some h₁ ∧
      exec (fun h r => some (handle plainConfig h r)) h₁
        [.transferLeadership ⟨⟨"orders", 0⟩, "broker-1", 2 ^ 64 - 1, "broker-3"⟩ (.ok .proceed)] =
          some h₂ ∧
      h₂.leaderEpoch < h₁.leaderEpoch :=
  ⟨_, _, rfl, rfl, by decide⟩

end RustMq.Replication
