import RustMq.Controller.StateMachine

/-!
# Creating a topic

`create_topic` of `ControllerService` (`src/controller/service.rs`). The topic is stored first; then
the number of brokers is checked and the replicas of each partition are chosen, by load score if
there are any scores and in turn otherwise.

So a request for more replicas than there are brokers is refused with the topic stored, and one for
no replicas at all panics at the leader of the first partition (`refused_topic_stored`). These are
the only two ways in which a topic is left half created.

The arithmetic on load scores is a parameter. A panic is the answer `none`; the state is the one it
leaves.
-/

namespace RustMq.Controller.TopicCreation

open List Function

structure CreateTopicRequest where
  name : String
  partitions : Nat
  replicationFactor : Nat
  config : Option TopicConfig
  deriving DecidableEq

structure CreateTopicResponse where
  success : Bool
  errorMessage : Option String
  leaderHint : Option String
  deriving DecidableEq

/-- The brokers in the order in which the hash map is walked. -/
structure MetadataManager where
  topics : String → Option TopicInfo
  brokers : List BrokerInfo
  partitionAssignments : TopicPartition → Option PartitionAssignment
  distinct : (brokers.map BrokerInfo.id).Nodup

/-- The numbers of the load scores. -/
structure Arithmetic (S : Type) where
  /-- `base_score + 0.1 * topic_part_count`, where a broker without a score has 0. -/
  effectiveScore : (baseScore : Option S) → (topicPartCount : Nat) → S
  le : S → S → Bool

structure ControllerService (S : Type) where
  isLeader : Bool
  currentLeader : Option String
  metadata : MetadataManager
  brokerLoadScores : List (BrokerId × S)

variable {S : Type} (arith : Arithmetic S) (service : ControllerService S)
  (request : CreateTopicRequest)

namespace MetadataManager

/-- `none` where the topic is there already. -/
def createTopic (m : MetadataManager) (info : TopicInfo) : Option MetadataManager :=
  if (m.topics info.name).isSome then none
  else some { m with topics := Function.update m.topics info.name (some info) }

def assignPartition (m : MetadataManager) (tp : TopicPartition) (a : PartitionAssignment) :
    MetadataManager :=
  { m with partitionAssignments := Function.update m.partitionAssignments tp (some a) }

end MetadataManager

/-- The brokers by effective score. -/
def candidates (counts : BrokerId → Nat) : List BrokerId :=
  ((service.metadata.brokers.map fun b =>
    (b.id, arith.effectiveScore (service.brokerLoadScores.lookup b.id) (counts b.id))).insertionSort
      fun a b => arith.le a.2 b.2).map Prod.fst

/-- The replicas of a partition. In turn they are those at `(start_broker + i) % brokers.len()`,
and the remainder panics without brokers. -/
def replicasFor (partitionId : Nat) (counts : BrokerId → Nat) : Option (List BrokerId) :=
  let brokers := service.metadata.brokers.map BrokerInfo.id
  if service.brokerLoadScores.isEmpty then
    if brokers.isEmpty then none
    else some ((brokers.rotate (partitionId % brokers.length)).take request.replicationFactor)
  else some ((candidates arith service counts).take request.replicationFactor)

/-- `replicas[0]` panics on no replicas. -/
def placePartition (partitionId : Nat) (counts : BrokerId → Nat) :
    Option (PartitionAssignment × (BrokerId → Nat)) :=
  match replicasFor arith service request partitionId counts with
  | some (leader :: rest) => some (⟨leader, leader :: rest, leader :: rest, 1⟩,
      if service.brokerLoadScores.isEmpty then counts
      else fun id => counts id + (leader :: rest).count id)
  | some [] | none => none

/-- The loop over the partitions; `false` after a panic. -/
def assignPartitions : List Nat → (BrokerId → Nat) → MetadataManager → Bool × MetadataManager
  | [], _, m => (true, m)
  | partitionId :: partitions, counts, m =>
    match placePartition arith service request partitionId counts with
    | none => (false, m)
    | some (a, counts) =>
      assignPartitions partitions counts (m.assignPartition ⟨request.name, partitionId⟩ a)

def defaultConfig : TopicConfig := ⟨some 86400000, some 1073741824, some "lz4"⟩

def createTopic (now : String) : Option CreateTopicResponse × MetadataManager :=
  let refused (message : String) : Option CreateTopicResponse :=
    some ⟨false, some message, service.currentLeader⟩
  if "__".isPrefixOf request.name then
    (refused "Cannot manually create internal topics starting with '__'", service.metadata)
  else if service.isLeader = false then (refused "Not the leader", service.metadata)
  else
    match service.metadata.createTopic ⟨request.name, request.partitions,
        request.replicationFactor, request.config.getD defaultConfig, now⟩ with
    | none => (refused ("Failed to create topic: Topic already exists: " ++ request.name),
        service.metadata)
    | some m =>
      if m.brokers.length < request.replicationFactor then
        (refused "Not enough brokers for replication factor", m)
      else
        match assignPartitions arith service request (List.range request.partitions) (fun _ => 0)
            m with
        | (true, m) => (some ⟨true, none, service.currentLeader⟩, m)
        | (false, m) => (none, m)

/-! ## Placement -/

/-- The replicas are as many different registered brokers as asked for, the first of them leads and
all are in sync. -/
structure Placed (a : PartitionAssignment) : Prop where
  length : a.replicas.length = request.replicationFactor
  nodup : a.replicas.Nodup
  registered : ∀ id ∈ a.replicas, id ∈ service.metadata.brokers.map BrokerInfo.id
  leader : a.replicas.head? = some a.leader
  inSync : a.inSyncReplicas = a.replicas

variable {arith service request}

/-- Some of the brokers, as many as asked for. -/
theorem take_of_perm {l : List BrokerId} {n : Nat}
    (hperm : l.Perm (service.metadata.brokers.map BrokerInfo.id))
    (hn : n ≤ service.metadata.brokers.length) :
    (l.take n).length = n ∧ (l.take n).Nodup ∧
      ∀ id ∈ l.take n, id ∈ service.metadata.brokers.map BrokerInfo.id := by
  refine ⟨?_, ?_, fun id hid => hperm.mem_iff.mp (mem_of_mem_take hid)⟩
  · rw [length_take, hperm.length_eq, length_map]
    exact min_eq_left hn
  · exact (hperm.nodup_iff.mpr service.metadata.distinct).sublist (take_sublist _ _)

theorem candidates_perm (counts : BrokerId → Nat) :
    (candidates arith service counts).Perm (service.metadata.brokers.map BrokerInfo.id) := by
  refine ((perm_insertionSort _ _).map Prod.fst).trans (Perm.of_eq ?_)
  rw [map_map]
  rfl

theorem placed_of_placePartition
    (henough : request.replicationFactor ≤ service.metadata.brokers.length)
    (hfactor : 0 < request.replicationFactor) (partitionId : Nat) (counts : BrokerId → Nat) :
    ∃ a counts', placePartition arith service request partitionId counts = some (a, counts') ∧
      Placed service request a := by
  have hreplicas : ∃ l : List BrokerId, l.Perm (service.metadata.brokers.map BrokerInfo.id) ∧
      replicasFor arith service request partitionId counts =
        some (l.take request.replicationFactor) := by
    rw [replicasFor]
    split
    · rw [if_neg]
      · exact ⟨_, rotate_perm _ _, rfl⟩
      · rw [isEmpty_iff_length_eq_zero, length_map]
        omega
    · exact ⟨_, candidates_perm counts, rfl⟩
  obtain ⟨l, hperm, hl⟩ := hreplicas
  obtain ⟨hlength, hnodup, hregistered⟩ := take_of_perm hperm henough
  rw [placePartition, hl]
  cases hcase : l.take request.replicationFactor with
  | nil =>
    rw [hcase, length_nil] at hlength
    omega
  | cons leader rest =>
    rw [hcase] at hlength hnodup hregistered
    exact ⟨_, _, rfl, hlength, hnodup, hregistered, rfl, rfl⟩

/-- The loop places every partition and touches nothing else. -/
theorem assignPartitions_spec
    (henough : request.replicationFactor ≤ service.metadata.brokers.length)
    {partitions : List Nat} (hfactor : partitions = [] ∨ 0 < request.replicationFactor)
    (counts : BrokerId → Nat) (m : MetadataManager) :
    ∃ m', assignPartitions arith service request partitions counts m = (true, m') ∧
      ∀ tp, m'.partitionAssignments tp = m.partitionAssignments tp ∧
          (tp.topic = request.name → tp.partition ∉ partitions) ∨
        tp.topic = request.name ∧
          ∃ a, m'.partitionAssignments tp = some a ∧ Placed service request a := by
  induction partitions generalizing counts m with
  | nil => exact ⟨m, rfl, fun tp => .inl ⟨rfl, fun _ => not_mem_nil⟩⟩
  | cons p partitions ih =>
    have hpos := hfactor.resolve_left (cons_ne_nil p partitions)
    obtain ⟨a, counts', hplace, hplaced⟩ :=
      placed_of_placePartition henough hpos p counts
    obtain ⟨m', hassign, hall⟩ := ih (.inr hpos) counts' (m.assignPartition ⟨request.name, p⟩ a)
    rw [assignPartitions, hplace]
    refine ⟨m', hassign, fun tp => ?_⟩
    rcases hall tp with ⟨hkept, hnot⟩ | hplaced'
    · by_cases htp : tp = ⟨request.name, p⟩
      · refine .inr ⟨by rw [htp], a, ?_, hplaced⟩
        rw [hkept, htp]
        exact update_self ..
      · refine .inl ⟨hkept.trans (update_of_ne htp ..), fun htopic hmem => ?_⟩
        rcases mem_cons.mp hmem with heq | hmem
        · exact htp (by rw [← htopic, ← heq])
        · exact hnot htopic hmem
    · exact .inr hplaced'

/-! ## All or nothing -/

/-- No check refuses the request before the topic is stored. -/
structure Stores (service : ControllerService S) (request : CreateTopicRequest) : Prop where
  ordinary : "__".isPrefixOf request.name = false
  leads : service.isLeader = true
  absent : service.metadata.topics request.name = none

/-- What is asked of `create_topic`: it returns, it changes nothing where it answers `false`, and
every partition is placed where it answers `true`. -/
def Whole (service : ControllerService S) (request : CreateTopicRequest)
    (result : Option CreateTopicResponse × MetadataManager) : Prop :=
  ∃ response, result.1 = some response ∧
    (response.success = false → result.2 = service.metadata) ∧
    (response.success = true →
      (∀ p < request.partitions, ∃ a, result.2.partitionAssignments ⟨request.name, p⟩ = some a ∧
        Placed service request a) ∧
      ∀ tp, tp.topic ≠ request.name →
        result.2.partitionAssignments tp = service.metadata.partitionAssignments tp)

variable (arith) in
theorem createTopic_refused (now : String) (h : ¬ Stores service request) :
    ∃ message, createTopic arith service request now =
      (some ⟨false, some message, service.currentLeader⟩, service.metadata) := by
  unfold createTopic
  simp only
  split
  · exact ⟨_, rfl⟩
  · split
    · exact ⟨_, rfl⟩
    · split
      · exact ⟨_, rfl⟩
      · rename_i hordinary hleads _ m hm
        refine absurd ⟨Bool.eq_false_of_not_eq_true hordinary, Bool.eq_true_of_not_eq_false hleads,
          ?_⟩ h
        rw [MetadataManager.createTopic] at hm
        split at hm
        · cases hm
        · exact Option.not_isSome_iff_eq_none.mp ‹_›

variable (arith) in
theorem createTopic_stores (now : String) (h : Stores service request) :
    ∃ m : MetadataManager, m.topics request.name ≠ none ∧
      m.partitionAssignments = service.metadata.partitionAssignments ∧
      createTopic arith service request now =
        if service.metadata.brokers.length < request.replicationFactor then
          (some ⟨false, some "Not enough brokers for replication factor", service.currentLeader⟩, m)
        else
          match assignPartitions arith service request (range request.partitions) (fun _ => 0) m with
          | (true, m) => (some ⟨true, none, service.currentLeader⟩, m)
          | (false, m) => (none, m) := by
  let info : TopicInfo := ⟨request.name, request.partitions, request.replicationFactor,
    request.config.getD defaultConfig, now⟩
  refine ⟨{ service.metadata with
    topics := update service.metadata.topics request.name (some info) }, ?_, rfl, ?_⟩
  · exact fun hnone => nomatch (update_self ..).symm.trans hnone
  · unfold createTopic MetadataManager.createTopic
    simp only [h.ordinary, h.leads, h.absent]
    rfl

/-- Without replicas the first partition panics. -/
theorem assignPartitions_panics (hpartitions : 0 < request.partitions)
    (hfactor : request.replicationFactor = 0) (m : MetadataManager) :
    assignPartitions arith service request (range request.partitions) (fun _ => 0) m =
      (false, m) := by
  obtain ⟨n, hn⟩ := Nat.exists_eq_succ_of_ne_zero hpartitions.ne'
  have hplace : placePartition arith service request 0 (fun _ => 0) = none := by
    simp only [placePartition, replicasFor, hfactor, take_zero]
    split_ifs <;> rfl
  rw [hn, range_succ_eq_map, assignPartitions, hplace]

/-- **A topic is created as a whole or not at all** exactly if the request is refused before the
topic is stored, or there are enough brokers and each partition has a replica. -/
theorem createTopic_whole_iff (arith : Arithmetic S) (service : ControllerService S)
    (request : CreateTopicRequest) (now : String) :
    Whole service request (createTopic arith service request now) ↔
      ¬ Stores service request ∨
      (request.replicationFactor ≤ service.metadata.brokers.length ∧
        (request.partitions = 0 ∨ 0 < request.replicationFactor)) := by
  by_cases hstores : Stores service request
  swap
  · obtain ⟨message, hcreate⟩ := createTopic_refused arith now hstores
    rw [hcreate]
    exact iff_of_true ⟨_, rfl, fun _ => rfl, fun h => nomatch h⟩ (.inl hstores)
  obtain ⟨m, htopic, hassignments, hcreate⟩ := createTopic_stores arith now hstores
  rw [hcreate]
  constructor
  · rintro ⟨response, hresponse, hkept, -⟩
    refine .inr ⟨?_, ?_⟩
    · by_contra hfew
      rw [if_pos (not_le.mp hfew)] at hresponse hkept
      cases hresponse
      exact htopic ((congrArg (MetadataManager.topics · request.name) (hkept rfl)).trans
        hstores.absent)
    · by_contra hnone
      obtain ⟨hpartitions, hfactor⟩ := not_or.mp hnone
      rw [if_neg (by omega), assignPartitions_panics (Nat.pos_of_ne_zero hpartitions) (by omega)]
        at hresponse
      cases hresponse
  · intro h
    obtain ⟨henough, hfactor⟩ := h.resolve_left (not_not.mpr hstores)
    obtain ⟨m', hassign, hall⟩ := assignPartitions_spec henough
      (hfactor.imp_left range_eq_nil.mpr) (fun _ => 0) m
    rw [if_neg (not_lt.mpr henough), hassign]
    refine ⟨_, rfl, fun h => (nomatch h), fun _ => ⟨fun p hp => ?_, fun tp htp => ?_⟩⟩
    · rcases hall ⟨request.name, p⟩ with ⟨-, hnot⟩ | ⟨-, hplaced⟩
      · exact absurd (mem_range.mpr hp) (hnot rfl)
      · exact hplaced
    · rcases hall tp with ⟨hkept, -⟩ | ⟨htopic, -⟩
      · exact hkept.trans (congrFun hassignments tp)
      · exact absurd htopic htp

/-- Scores in tenths. -/
def tenths : Arithmetic Nat := ⟨fun base count => base.getD 0 + count, fun a b => a ≤ b⟩

def broker (id : BrokerId) : BrokerInfo := ⟨id, "h", 9092, 9093, "r"⟩

/-- A leader with two brokers, of which one is loaded. -/
def twoBrokers : ControllerService Nat :=
  ⟨true, none, ⟨fun _ => none, [broker "b1", broker "b2"], fun _ => none, by decide⟩, [("b1", 5)]⟩

/-- Three replicas on two brokers are refused, and no replicas panic; the topic is there after
both. -/
theorem refused_topic_stored : (createTopic tenths twoBrokers ⟨"t", 1, 3, none⟩ "now").1 =
        some ⟨false, some "Not enough brokers for replication factor", none⟩ ∧
      ((createTopic tenths twoBrokers ⟨"t", 1, 3, none⟩ "now").2.topics "t").isSome ∧
      (createTopic tenths twoBrokers ⟨"t", 1, 0, none⟩ "now").1 = none ∧
      ((createTopic tenths twoBrokers ⟨"t", 1, 0, none⟩ "now").2.topics "t").isSome := by
  decide +kernel

end RustMq.Controller.TopicCreation
