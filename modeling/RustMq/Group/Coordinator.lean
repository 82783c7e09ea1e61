import RustMq.Lib.SortedMap
import RustMq.Store.Objects

/-!
# The consumer group coordinator

`GroupCoordinatorManager` of `src/consumer_group/coordinator.rs`. Each handler takes the write
lock on the groups for its whole duration, so a handler is one step. What comes from outside is an
argument: the clock, the uuid of a new member, the order in which a hash map or a hash set is
walked, and what the record log answers.
-/

namespace RustMq.Group

open Lib List

inductive GroupState where
  | empty
  | stable
  | preparingRebalance
  | completingRebalance
  | dead
  deriving DecidableEq

/-- Times are nanoseconds of the monotonic clock. -/
structure MemberState where
  memberId : String
  subscribedTopics : List String
  lastHeartbeat : Option Nat
  sessionTimeoutMs : Nat

abbrev Offsets := AList fun _ : TopicPartition => Nat

structure ConsumerGroupState where
  groupId : String
  generationId : Nat
  members : SMap String MemberState
  state : GroupState
  assignment : SMap String (List TopicPartition)
  committedOffsets : Offsets

abbrev Groups := SMap String ConsumerGroupState

structure GroupCoordinatorManager where
  groups : Groups
  topicPartitions : SMap String Nat
  commitCount : Nat

/-- What does not change: the hash of the group ids, the number of partitions of the offsets
topic, and the record log. An append is `none` as long as it does not return, and otherwise says
whether it succeeded. -/
structure CoordinatorConfig (L : Type) where
  hash : String → Nat
  offsetsPartitionCount : Nat
  positive : 0 < offsetsPartitionCount
  append : L → WalRecord → Option (Bool × L)

structure JoinGroupRequest where
  groupId : String
  memberId : String
  sessionTimeoutMs : Nat
  topics : List String

structure JoinGroupResponse where
  generationId : Nat
  memberId : String
  leaderId : String
  assignedPartitions : SMap String (List TopicPartition)
  errorCode : Nat

structure ConsumerHeartbeatRequest where
  groupId : String
  memberId : String
  generationId : Nat

structure LeaveGroupRequest where
  groupId : String
  memberId : String

/-- The entries of `offsets` stand in the order in which the map is walked. -/
structure CommitOffsetRequest where
  groupId : String
  memberId : String
  generationId : Nat
  offsets : Offsets

structure FetchOffsetRequest where
  groupId : String
  topicPartitions : List TopicPartition

structure FetchOffsetResponse where
  offsets : Offsets
  errorCode : Nat

namespace ConsumerGroupState

def new (groupId : String) : ConsumerGroupState := ⟨groupId, 0, .empty, .empty, .empty, ∅⟩

def rebalance (st : ConsumerGroupState) : ConsumerGroupState :=
  { st with
    state := .preparingRebalance
    generationId := (st.generationId + 1) % 2 ^ 64
    assignment := .empty }

def prepared (st : ConsumerGroupState) : ConsumerGroupState :=
  if st.state = .empty ∨ st.state = .stable then st.rebalance else st

@[simp] theorem committedOffsets_prepared (st : ConsumerGroupState) :
    st.prepared.committedOffsets = st.committedOffsets := by
  rw [prepared]
  split
  · rfl
  · rfl

end ConsumerGroupState

/-! ## Membership -/

def subscribed (members : SMap String MemberState) : List String :=
  (members.entries.flatMap fun e => e.2.subscribedTopics).dedup

def allPartitions (topicPartitions : SMap String Nat) (topics : List String) :
    List TopicPartition :=
  topics.flatMap fun topic =>
    (List.range ((topicPartitions.get? topic).getD 1)).map fun p => ⟨topic, p⟩

def assignAll (memberIds : List String) (partitions : List TopicPartition) :
    SMap String (List TopicPartition) :=
  partitions.zipIdx.foldl (fun assignments e =>
    let member := (memberIds[e.2 % memberIds.length]?).getD ""
    assignments.insert member ((assignments.get? member).getD [] ++ [e.1])) .empty

namespace GroupCoordinatorManager

def new : GroupCoordinatorManager := ⟨.empty, .empty, 0⟩

def updateTopicPartitions (m : GroupCoordinatorManager) (topic : String) (partitionCount : Nat) :
    GroupCoordinatorManager :=
  { m with topicPartitions := m.topicPartitions.insert topic partitionCount }

def handleJoinGroup (m : GroupCoordinatorManager) (request : JoinGroupRequest) (uuid : String)
    (now : Nat) (allTopics memberIds : List String) :
    Option (JoinGroupResponse × GroupCoordinatorManager) :=
  let st := ((m.groups.get? request.groupId).getD (.new request.groupId)).prepared
  let memberId := if request.memberId = "" then uuid else request.memberId
  let members :=
    st.members.insert memberId ⟨memberId, request.topics, some now, request.sessionTimeoutMs⟩
  let assignments := assignAll memberIds (allPartitions m.topicPartitions allTopics)
  let st' := { st with members := members, assignment := assignments, state := .stable }
  if allTopics.Perm (subscribed members) ∧ memberIds.Perm members.keys then
    some (⟨st.generationId, memberId, memberIds.head?.getD "", assignments, 0⟩,
      { m with groups := m.groups.insert request.groupId st' })
  else none

def handleHeartbeat (m : GroupCoordinatorManager) (request : ConsumerHeartbeatRequest)
    (now : Nat) : Nat × GroupCoordinatorManager :=
  match m.groups.get? request.groupId with
  | none => (16, m)
  | some st =>
    if st.state = .preparingRebalance then (27, m)
    else if st.generationId ≠ request.generationId then (22, m)
    else
      match st.members.get? request.memberId with
      | none => (25, m)
      | some member =>
        let members := st.members.insert request.memberId { member with lastHeartbeat := some now }
        (0, { m with groups := m.groups.insert request.groupId { st with members := members } })

def handleLeaveGroup (m : GroupCoordinatorManager) (request : LeaveGroupRequest) :
    Nat × GroupCoordinatorManager :=
  match m.groups.get? request.groupId with
  | none => (16, m)
  | some st =>
    let members := st.members.erase request.memberId
    let st' := if members.entries = [] then { st with members := members, state := .empty }
      else { st.rebalance with members := members }
    (0, { m with groups := m.groups.insert request.groupId st' })

end GroupCoordinatorManager

def MemberState.expired (now : Nat) (member : MemberState) : Bool :=
  (member.lastHeartbeat.map fun hb => decide (member.sessionTimeoutMs * 1000000 < now - hb)).getD
    true

def ConsumerGroupState.reap (now : Nat) (st : ConsumerGroupState) : ConsumerGroupState :=
  let expired := (st.members.entries.filter fun e => e.2.expired now).map Prod.fst
  let members := st.members.filterKeys fun id => id ∉ expired
  if st.state = .dead ∨ st.state = .empty ∨ expired = [] then st
  else if members.entries = [] then { st with members := members, state := .empty }
  else { st.rebalance with members := members }

def GroupCoordinatorManager.reap (m : GroupCoordinatorManager) (now : Nat) :
    GroupCoordinatorManager :=
  { m with groups := m.groups.mapVals (ConsumerGroupState.reap now) }

/-! ## Offsets -/

section offsets

variable {L : Type} (cfg : CoordinatorConfig L)

def CoordinatorConfig.partitionFor (groupId : String) : Nat :=
  cfg.hash groupId % cfg.offsetsPartitionCount

theorem CoordinatorConfig.partitionFor_lt (groupId : String) :
    cfg.partitionFor groupId < cfg.offsetsPartitionCount :=
  Nat.mod_lt _ cfg.positive

/-- The record of one committed offset. It carries the offset 0. -/
def CoordinatorConfig.offsetRecord (groupId : String) (timestamps : TopicPartition → Int)
    (tp : TopicPartition) (offset : Nat) : WalRecord :=
  let key := "offset:" ++ groupId ++ ":" ++ tp.topic ++ ":" ++ toString tp.partition
  let value := (Codec.uint 8).enc offset
  { topicPartition := ⟨"__consumer_offsets", cfg.partitionFor groupId⟩
    offset := 0
    record := ⟨some key.toUTF8.data.toList, value, [], timestamps tp⟩
    crc32 := (Store.crc32 (Codec.bytes.enc value)).toNat }

/-- The loop of `handle_commit_offset`. It stops at the first append that fails and keeps what it
has inserted. -/
def CoordinatorConfig.commitEntries (groupId : String) (timestamps : TopicPartition → Int) :
    L → Offsets → List (Sigma fun _ : TopicPartition => Nat) → Option (Bool × L × Offsets)
  | log, offsets, [] => some (true, log, offsets)
  | log, offsets, ⟨tp, offset⟩ :: entries =>
    match cfg.append log (cfg.offsetRecord groupId timestamps tp offset) with
    | none => none
    | some (false, log') => some (false, log', offsets)
    | some (true, log') =>
      CoordinatorConfig.commitEntries groupId timestamps log' (offsets.insert tp offset) entries

def handleCommitOffset (m : GroupCoordinatorManager) (log : L) (request : CommitOffsetRequest)
    (timestamps : TopicPartition → Int) : Option (Nat × L × GroupCoordinatorManager) :=
  match m.groups.get? request.groupId with
  | none => some (16, log, m)
  | some st =>
    if st.generationId ≠ request.generationId then some (22, log, m)
    else
      match cfg.commitEntries request.groupId timestamps log st.committedOffsets
          request.offsets.entries with
      | none => none
      | some (appended, log', offsets) =>
        let groups := m.groups.insert request.groupId { st with committedOffsets := offsets }
        if appended then
          some (0, log', { m with
            groups := groups
            commitCount := (m.commitCount + request.offsets.entries.length) % 2 ^ 64 })
        else some (1, log', { m with groups := groups })

end offsets

def fetchStep (committed result : Offsets) (tp : TopicPartition) : Offsets :=
  match committed.lookup tp with
  | some offset => result.insert tp offset
  | none => result

def GroupCoordinatorManager.handleFetchOffset (m : GroupCoordinatorManager)
    (request : FetchOffsetRequest) : FetchOffsetResponse :=
  match m.groups.get? request.groupId with
  | none => ⟨∅, 16⟩
  | some st => ⟨request.topicPartitions.foldl (fetchStep st.committedOffsets) ∅, 0⟩

/-! ## Committed offsets -/

def committedIn (groups : Groups) (groupId : String) (tp : TopicPartition) : Option Nat :=
  (groups.get? groupId).bind fun st => st.committedOffsets.lookup tp

theorem committedIn_insert (groups : Groups) (id groupId : String) (st : ConsumerGroupState)
    (tp : TopicPartition) : committedIn (groups.insert id st) groupId tp =
      if groupId = id then st.committedOffsets.lookup tp else committedIn groups groupId tp := by
  rw [committedIn, SMap.get?_insert]
  split
  · rfl
  · rfl

theorem committedIn_mapVals {groups : Groups} {f : ConsumerGroupState → ConsumerGroupState}
    (hf : ∀ st, (f st).committedOffsets = st.committedOffsets) (groupId : String)
    (tp : TopicPartition) :
    committedIn (groups.mapVals f) groupId tp = committedIn groups groupId tp := by
  rw [committedIn, SMap.get?_mapVals, committedIn]
  cases groups.get? groupId with
  | none => rfl
  | some st => exact congrArg (fun offsets => AList.lookup tp offsets) (hf st)

structure KeepsCommits (m m' : GroupCoordinatorManager) : Prop where
  count : m'.commitCount = m.commitCount
  committed : ∀ groupId tp, committedIn m'.groups groupId tp = committedIn m.groups groupId tp

namespace KeepsCommits

variable {m m' : GroupCoordinatorManager} {id : String} {st : ConsumerGroupState}

theorem refl (m : GroupCoordinatorManager) : KeepsCommits m m := ⟨rfl, fun _ _ => rfl⟩

theorem insert (h : ∀ tp, st.committedOffsets.lookup tp = committedIn m.groups id tp) :
    KeepsCommits m { m with groups := m.groups.insert id st } := by
  refine ⟨rfl, fun groupId tp => ?_⟩
  rw [committedIn_insert]
  split
  · rename_i heq
    rw [heq]
    exact h tp
  · rfl

theorem insert_of_get? {st' : ConsumerGroupState} (hget : m.groups.get? id = some st)
    (h : st'.committedOffsets = st.committedOffsets) :
    KeepsCommits m { m with groups := m.groups.insert id st' } := by
  refine .insert fun tp => ?_
  rw [committedIn, hget, h]
  rfl

theorem updateTopicPartitions (m : GroupCoordinatorManager) (topic : String) (count : Nat) :
    KeepsCommits m (m.updateTopicPartitions topic count) :=
  ⟨rfl, fun _ _ => rfl⟩

theorem handleJoinGroup {request : JoinGroupRequest} {uuid : String} {now : Nat}
    {allTopics memberIds : List String} {response : JoinGroupResponse}
    (h : m.handleJoinGroup request uuid now allTopics memberIds = some (response, m')) :
    KeepsCommits m m' := by
  rw [GroupCoordinatorManager.handleJoinGroup] at h
  obtain ⟨-, heq⟩ := Option.ite_none_right_eq_some.mp h
  cases heq
  refine .insert fun tp => ?_
  rw [committedIn]
  simp only [ConsumerGroupState.committedOffsets_prepared]
  -- a group that is created has no offsets
  cases m.groups.get? request.groupId with
  | none | some => rfl

theorem handleHeartbeat (m : GroupCoordinatorManager) (request : ConsumerHeartbeatRequest)
    (now : Nat) : KeepsCommits m (m.handleHeartbeat request now).2 := by
  rw [GroupCoordinatorManager.handleHeartbeat]
  split
  · exact refl m
  · rename_i st hget
    split
    · exact refl m
    · split
      · exact refl m
      · split
        · exact refl m
        · exact insert_of_get? hget rfl

theorem handleLeaveGroup (m : GroupCoordinatorManager) (request : LeaveGroupRequest) :
    KeepsCommits m (m.handleLeaveGroup request).2 := by
  rw [GroupCoordinatorManager.handleLeaveGroup]
  split
  · exact refl m
  · rename_i st hget
    refine insert_of_get? hget ?_
    split
    · rfl
    · rfl

theorem reap (m : GroupCoordinatorManager) (now : Nat) : KeepsCommits m (m.reap now) := by
  refine ⟨rfl, fun groupId tp => committedIn_mapVals (fun st => ?_) groupId tp⟩
  rw [ConsumerGroupState.reap]
  split
  · rfl
  · split
    · rfl
    · rfl

end KeepsCommits

/-! ## Commits and fetches -/

section commits

variable {L : Type} (cfg : CoordinatorConfig L)

def CoordinatorConfig.taken (groupId : String) (timestamps : TopicPartition → Int) :
    L → List (Sigma fun _ : TopicPartition => Nat) → List (Sigma fun _ : TopicPartition => Nat)
  | _, [] => []
  | log, ⟨tp, offset⟩ :: entries =>
    match cfg.append log (cfg.offsetRecord groupId timestamps tp offset) with
    | some (true, log') =>
      ⟨tp, offset⟩ :: CoordinatorConfig.taken groupId timestamps log' entries
    | _ => []

variable {cfg} {m : GroupCoordinatorManager} {tp : TopicPartition} {offset : Nat}

theorem taken_sublist (groupId : String) (timestamps : TopicPartition → Int)
    (entries : List (Sigma fun _ : TopicPartition => Nat)) (log : L) :
    (cfg.taken groupId timestamps log entries).Sublist entries := by
  induction entries generalizing log with
  | nil => exact .refl _
  | cons entry entries ih =>
    rw [CoordinatorConfig.taken]
    split
    · exact (ih _).cons_cons _
    · exact nil_sublist _

section

variable {groupId : String} {timestamps : TopicPartition → Int}
  {entries : List (Sigma fun _ : TopicPartition => Nat)}

theorem taken_of_appended {log log' : L} {offsets offsets' : Offsets}
    (h : cfg.commitEntries groupId timestamps log offsets entries = some (true, log', offsets')) :
    cfg.taken groupId timestamps log entries = entries := by
  induction entries generalizing log offsets with
  | nil => rfl
  | cons entry entries ih =>
    rw [CoordinatorConfig.commitEntries] at h
    rw [CoordinatorConfig.taken]
    split at h
    · cases h
    · cases h
    · rename_i log'' happend
      simp only [happend, ih h]

/-- **The loop has inserted what the record log took**, whether it was stopped or not. -/
theorem lookup_commitEntries (hkeys : entries.NodupKeys) :
    ∀ {log log' : L} {offsets offsets' : Offsets} {appended : Bool},
      cfg.commitEntries groupId timestamps log offsets entries = some (appended, log', offsets') →
      ∀ tp, offsets'.lookup tp =
        ((cfg.taken groupId timestamps log entries).dlookup tp).or (offsets.lookup tp) := by
  induction entries with
  | nil =>
    intro log log' offsets offsets' appended h tp
    cases h
    rfl
  | cons entry entries ih =>
    obtain ⟨tp₀, offset⟩ := entry
    intro log log' offsets offsets' appended h tp
    obtain ⟨hnot, hkeys⟩ := nodupKeys_cons.mp hkeys
    rw [CoordinatorConfig.commitEntries] at h
    rw [CoordinatorConfig.taken]
    split at h
    · cases h
    · rename_i happend
      cases h
      rw [happend]
      rfl
    · rename_i log'' happend
      rw [happend, ih hkeys h tp]
      by_cases htp : tp = tp₀
      · subst htp
        have hrest : tp ∉ (cfg.taken groupId timestamps log'' entries).keys := fun hmem =>
          hnot (((taken_sublist groupId timestamps entries log'').map Sigma.fst).subset hmem)
        rw [dlookup_eq_none.mpr hrest, AList.lookup_insert, dlookup_cons_eq]
        rfl
      · rw [AList.lookup_insert_ne htp, dlookup_cons_ne _ _ htp]

end

inductive CommitStep (cfg : CoordinatorConfig L) (m : GroupCoordinatorManager) (log : L)
    (request : CommitOffsetRequest) (timestamps : TopicPartition → Int) :
    Nat → L → GroupCoordinatorManager → Prop
  /-- No such group, or another generation. -/
  | refused {code : Nat} (hcode : code ≠ 0) :
    CommitStep cfg m log request timestamps code log m
  | failed {st : ConsumerGroupState} {log' : L} {offsets : Offsets}
    (hget : m.groups.get? request.groupId = some st)
    (hgeneration : st.generationId = request.generationId)
    (hentries : cfg.commitEntries request.groupId timestamps log st.committedOffsets
      request.offsets.entries = some (false, log', offsets)) :
    CommitStep cfg m log request timestamps 1 log' { m with
      groups := m.groups.insert request.groupId { st with committedOffsets := offsets } }
  | acknowledged {st : ConsumerGroupState} {log' : L} {offsets : Offsets}
    (hget : m.groups.get? request.groupId = some st)
    (hgeneration : st.generationId = request.generationId)
    (hentries : cfg.commitEntries request.groupId timestamps log st.committedOffsets
      request.offsets.entries = some (true, log', offsets)) :
    CommitStep cfg m log request timestamps 0 log' { m with
      groups := m.groups.insert request.groupId { st with committedOffsets := offsets }
      commitCount := (m.commitCount + request.offsets.entries.length) % 2 ^ 64 }

theorem handleCommitOffset_cases {m' : GroupCoordinatorManager} {log log' : L}
    {request : CommitOffsetRequest} {timestamps : TopicPartition → Int} {code : Nat}
    (h : handleCommitOffset cfg m log request timestamps = some (code, log', m')) :
    CommitStep cfg m log request timestamps code log' m' := by
  rw [handleCommitOffset] at h
  split at h
  · cases h
    exact .refused (by decide)
  · rename_i st hget
    split at h
    · cases h
      exact .refused (by decide)
    · rename_i hgeneration
      split at h
      · cases h
      · rename_i appended log'' offsets hentries
        cases appended with
        | true =>
          cases h
          exact .acknowledged hget (not_not.mp hgeneration) hentries
        | false =>
          cases h
          exact .failed hget (not_not.mp hgeneration) hentries

theorem lookup_foldl_fetch {committed : Offsets} (hcommitted : committed.lookup tp = some offset)
    (tps : List TopicPartition) :
    ∀ result : Offsets, (tp ∈ tps ∨ result.lookup tp = some offset) →
      (tps.foldl (fetchStep committed) result).lookup tp = some offset := by
  induction tps with
  | nil =>
    intro result h
    exact h.resolve_left not_mem_nil
  | cons a tps ih =>
    intro result h
    refine ih _ ?_
    by_cases ha : tp = a
    · subst ha
      refine Or.inr ?_
      rw [fetchStep, hcommitted]
      exact AList.lookup_insert _
    · refine h.imp (fun hmem => (mem_cons.mp hmem).resolve_left ha) fun hresult => ?_
      rw [fetchStep]
      split
      · rw [AList.lookup_insert_ne ha]
        exact hresult
      · exact hresult

theorem lookup_handleFetchOffset {request : FetchOffsetRequest} (htp : tp ∈ request.topicPartitions)
    (h : committedIn m.groups request.groupId tp = some offset) :
    (m.handleFetchOffset request).offsets.lookup tp = some offset := by
  obtain ⟨st, hget, hlookup⟩ := Option.bind_eq_some_iff.mp h
  rw [GroupCoordinatorManager.handleFetchOffset, hget]
  exact lookup_foldl_fetch hlookup _ _ (Or.inl htp)

end commits

end RustMq.Group
