import RustMq.Broker.Core
import RustMq.Security.Authorization
import RustMq.Security.AclManager

/-!
# Requests and the resources they ask for

A request is one byte for its type and a `bincode` body. Before `SecureQuicServer`
(`src/network/quic_server.rs`) routes a request, `extract_resource_from_request` makes a resource
string of the body: `topic:` or `consumer_group:` and a name, or one of two strings for the cluster.
`get_required_permission` gives the permission. The authorization manager hands both to the ACL
manager, which evaluates its rules on them.
-/

namespace RustMq.Server

open Lib Security Broker

/-! ## Types -/

inductive RequestType where
  | produce | fetch | metadata | findCoordinator | joinGroup | consumerHeartbeat | commitOffset
  | fetchOffset | leaveGroup
  deriving DecidableEq

def RequestType.toByte : RequestType → UInt8
  | .produce => 1
  | .fetch => 2
  | .metadata => 3
  | .findCoordinator => 4
  | .joinGroup => 5
  | .consumerHeartbeat => 6
  | .commitOffset => 7
  | .fetchOffset => 8
  | .leaveGroup => 9

def RequestType.tryFrom : UInt8 → Option RequestType
  | 1 => some .produce
  | 2 => some .fetch
  | 3 => some .metadata
  | 4 => some .findCoordinator
  | 5 => some .joinGroup
  | 6 => some .consumerHeartbeat
  | 7 => some .commitOffset
  | 8 => some .fetchOffset
  | 9 => some .leaveGroup
  | _ => none

@[simp] theorem RequestType.tryFrom_toByte (type : RequestType) :
    RequestType.tryFrom type.toByte = some type := by
  cases type <;> rfl

structure ProduceRequest where
  topic : String
  partitionId : Nat
  records : List Record
  acks : AcknowledgmentLevel
  timeoutMs : Nat
  deriving DecidableEq

structure FetchRequest where
  topic : String
  partitionId : Nat
  fetchOffset : Nat
  maxBytes : Nat
  timeoutMs : Nat
  deriving DecidableEq

structure FindCoordinatorRequest where
  groupId : String
  deriving DecidableEq

structure JoinGroupRequest where
  groupId : String
  memberId : String
  sessionTimeoutMs : Nat
  topics : List String
  deriving DecidableEq

structure ConsumerHeartbeatRequest where
  groupId : String
  memberId : String
  generationId : Nat
  deriving DecidableEq

structure CommitOffsetRequest where
  groupId : String
  memberId : String
  generationId : Nat
  offsets : List (TopicPartition × Nat)
  deriving DecidableEq

structure FetchOffsetRequest where
  groupId : String
  topicPartitions : List TopicPartition
  deriving DecidableEq

structure LeaveGroupRequest where
  groupId : String
  memberId : String
  deriving DecidableEq

/-! ## bincode -/

def acknowledgmentLevelCodec : Codec AcknowledgmentLevel where
  enc
    | .none => leBytes 4 0
    | .leader => leBytes 4 1
    | .majority => leBytes 4 2
    | .all => leBytes 4 3
    | .custom n => leBytes 4 4 ++ (Codec.uint 8).enc n
  dec bs := do
    let (tag, rest) ← (Codec.uint 4).dec bs
    match tag with
    | 0 => some (.none, rest)
    | 1 => some (.leader, rest)
    | 2 => some (.majority, rest)
    | 3 => some (.all, rest)
    | 4 => ((Codec.uint 8).dec rest).map fun p => (.custom p.1, p.2)
    | _ => none
  Fits
    | .custom n => (Codec.uint 8).Fits n
    | _ => True
  dec_enc a rest h := by
    have htag : ∀ (tag : Nat) (bs : List UInt8), tag < 5 →
        (Codec.uint 4).dec (leBytes 4 tag ++ bs) = some (tag, bs) := by
      intro tag bs hlt
      exact (Codec.uint 4).dec_enc tag bs (Nat.lt_trans hlt (by decide))
    cases a with
    | none => rw [htag 0 rest (by decide)]; rfl
    | leader => rw [htag 1 rest (by decide)]; rfl
    | majority => rw [htag 2 rest (by decide)]; rfl
    | all => rw [htag 3 rest (by decide)]; rfl
    | custom n =>
      rw [List.append_assoc, htag 4 _ (by decide)]
      simp only [Option.bind_eq_bind, Option.bind_some]
      rw [(Codec.uint 8).dec_enc n rest h]
      rfl

def produceRequestCodec : Codec ProduceRequest :=
  (Codec.string.pair ((Codec.uint 4).pair ((Codec.list recordCodec).pair
    (acknowledgmentLevelCodec.pair (.uint 4))))).iso
    (fun p => ⟨p.1, p.2.1, p.2.2.1, p.2.2.2.1, p.2.2.2.2⟩)
    (fun r => (r.topic, r.partitionId, r.records, r.acks, r.timeoutMs)) fun _ => rfl

def fetchRequestCodec : Codec FetchRequest :=
  (Codec.string.pair ((Codec.uint 4).pair ((Codec.uint 8).pair
    ((Codec.uint 4).pair (.uint 4))))).iso
    (fun p => ⟨p.1, p.2.1, p.2.2.1, p.2.2.2.1, p.2.2.2.2⟩)
    (fun r => (r.topic, r.partitionId, r.fetchOffset, r.maxBytes, r.timeoutMs)) fun _ => rfl

def findCoordinatorRequestCodec : Codec FindCoordinatorRequest :=
  Codec.string.iso (fun p => ⟨p⟩) (fun r => r.groupId) fun _ => rfl

def joinGroupRequestCodec : Codec JoinGroupRequest :=
  (Codec.string.pair (Codec.string.pair ((Codec.uint 4).pair (.list .string)))).iso
    (fun p => ⟨p.1, p.2.1, p.2.2.1, p.2.2.2⟩)
    (fun r => (r.groupId, r.memberId, r.sessionTimeoutMs, r.topics)) fun _ => rfl

def consumerHeartbeatRequestCodec : Codec ConsumerHeartbeatRequest :=
  (Codec.string.pair (Codec.string.pair (.uint 8))).iso (fun p => ⟨p.1, p.2.1, p.2.2⟩)
    (fun r => (r.groupId, r.memberId, r.generationId)) fun _ => rfl

def commitOffsetRequestCodec : Codec CommitOffsetRequest :=
  (Codec.string.pair (Codec.string.pair ((Codec.uint 8).pair
    (.list (topicPartitionCodec.pair (.uint 8)))))).iso
    (fun p => ⟨p.1, p.2.1, p.2.2.1, p.2.2.2⟩)
    (fun r => (r.groupId, r.memberId, r.generationId, r.offsets)) fun _ => rfl

def fetchOffsetRequestCodec : Codec FetchOffsetRequest :=
  (Codec.string.pair (.list topicPartitionCodec)).iso (fun p => ⟨p.1, p.2⟩)
    (fun r => (r.groupId, r.topicPartitions)) fun _ => rfl

def leaveGroupRequestCodec : Codec LeaveGroupRequest :=
  (Codec.string.pair .string).iso (fun p => ⟨p.1, p.2⟩) (fun r => (r.groupId, r.memberId))
    fun _ => rfl

/-! ## Resources -/

def topicResource : Option String → String
  | some topic => "topic:" ++ topic
  | none => "topic:unknown"

def groupResource : Option String → String
  | some groupId => "consumer_group:" ++ groupId
  | none => "cluster:consumer_group"

def extractResource (type : RequestType) (data : List UInt8) : String :=
  match type with
  | .produce => topicResource ((produceRequestCodec.decode data).map ProduceRequest.topic)
  | .fetch => topicResource ((fetchRequestCodec.decode data).map FetchRequest.topic)
  | .metadata => "cluster:metadata"
  | .findCoordinator =>
    groupResource ((findCoordinatorRequestCodec.decode data).map FindCoordinatorRequest.groupId)
  | .joinGroup => groupResource ((joinGroupRequestCodec.decode data).map JoinGroupRequest.groupId)
  | .consumerHeartbeat =>
    groupResource
      ((consumerHeartbeatRequestCodec.decode data).map ConsumerHeartbeatRequest.groupId)
  | .commitOffset =>
    groupResource ((commitOffsetRequestCodec.decode data).map CommitOffsetRequest.groupId)
  | .fetchOffset =>
    groupResource ((fetchOffsetRequestCodec.decode data).map FetchOffsetRequest.groupId)
  | .leaveGroup =>
    groupResource ((leaveGroupRequestCodec.decode data).map LeaveGroupRequest.groupId)

def requiredPermission : RequestType → AuthPermission
  | .produce => .write
  | .fetch => .read
  | .metadata => .read
  | .findCoordinator | .consumerHeartbeat | .fetchOffset => .read
  | .commitOffset | .joinGroup | .leaveGroup => .write

/-- The operation `fetch_from_acl_manager` asks for. -/
def aclOperation : AuthPermission → AclOperation
  | .read => .read
  | .write => .write
  | .admin => .admin

def permissionOf : AclOperation → Permission
  | .read => .read
  | .write => .write
  | .admin => .admin
  | .connect => .connect
  | .list => .list
  | .describe => .read
  | .cluster | .all | .delete | .alter | .create => .admin

/-- What the ACL manager is asked for a request; its `check_permission` gives no context. -/
def accessRequest (principal : String) (type : RequestType) (data : List UInt8) :
    Security.Request where
  principal := principal
  resource := extractResource type data
  operation := permissionOf (aclOperation (requiredPermission type))
  context := none

def RequestType.aboutTopic : RequestType → Bool
  | .produce | .fetch => true
  | _ => false

theorem extractResource_produce {data : List UInt8} {request : ProduceRequest}
    (h : produceRequestCodec.decode data = some request) :
    extractResource .produce data = "topic:" ++ request.topic := by
  rw [extractResource, h]
  rfl

theorem extractResource_findCoordinator {groupId : String} (h : Codec.string.Fits groupId) :
    extractResource .findCoordinator (findCoordinatorRequestCodec.enc ⟨groupId⟩) =
      "consumer_group:" ++ groupId := by
  have hdecode := findCoordinatorRequestCodec.decode_enc (a := ⟨groupId⟩) h []
  rw [List.append_nil] at hdecode
  rw [extractResource, hdecode]
  rfl

theorem groupResource_cases (groupId : Option String) :
    groupResource groupId = "cluster:consumer_group" ∨
      ∃ g, groupResource groupId = "consumer_group:" ++ g := by
  cases groupId with
  | none => exact .inl rfl
  | some g => exact .inr ⟨g, rfl⟩

theorem extractResource_cases {type : RequestType} (h : type.aboutTopic = false)
    (data : List UInt8) :
    extractResource type data = "cluster:metadata" ∨
      extractResource type data = "cluster:consumer_group" ∨
      ∃ g, extractResource type data = "consumer_group:" ++ g := by
  cases type with
  | produce | fetch => cases h
  | metadata => exact .inl rfl
  | _ => exact .inr (groupResource_cases _)

theorem colon_mem_extractResource (type : RequestType) (data : List UInt8) :
    ':' ∈ (extractResource type data).toList := by
  cases htopic : type.aboutTopic with
  | true =>
    have hcolon : ∀ topic, ':' ∈ (topicResource topic).toList := by
      intro topic
      cases topic with
      | none => decide
      | some name =>
        rw [topicResource, String.toList_append]
        exact List.mem_append_left _ (by decide)
    cases type with
    | produce | fetch => exact hcolon _
    | _ => cases htopic
  | false =>
    rcases extractResource_cases htopic data with h | h | ⟨g, h⟩
    · rw [h]
      decide
    · rw [h]
      decide
    · rw [h, String.toList_append]
      exact List.mem_append_left _ (by decide)

end RustMq.Server
