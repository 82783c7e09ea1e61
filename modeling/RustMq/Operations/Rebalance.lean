import RustMq.Types

/-!
# Rebalance plans

`calculate_rebalance_plan` (`src/scaling/operations.rs`): every overloaded broker gives some of the
partitions it holds to the least loaded healthy broker. Neither the replicas of a partition nor
earlier moves are looked at, so a partition with several replicas may be moved to a broker that
already holds it, and once from each of its overloaded holders (`replica_moved_twice`).

The assignments come in the order in which a hash map is iterated, and each overloaded broker gives
away at least one partition. So any partition may be the one that is moved, and a map has an
executable plan whatever the order exactly if all partitions of overloaded brokers could be moved
(`plan_executable_iff`).

The arithmetic on load scores is a parameter; `rational` is the one of the source in exact numbers.
-/

namespace RustMq.Operations.Rebalance

open List

inductive BrokerStatus where
  | healthy | draining | unhealthy | removed
  deriving DecidableEq

variable {S : Type}

structure BrokerInfo (S : Type) where
  id : String
  status : BrokerStatus
  /-- `composite_load_score` of the broker's metrics. -/
  loadScore : S
  partitionCount : Nat

structure PartitionAssignment where
  leader : String
  replicas : List String
  deriving DecidableEq

structure PartitionMove where
  topicPartition : TopicPartition
  fromBroker : String
  toBroker : String
  estimatedBytes : Nat
  deriving DecidableEq

/-- The numbers of the load scores. -/
structure Arithmetic (S : Type) where
  averageLoad : List S → S
  /-- `load > average_load * 1.1` -/
  exceeds : (load averageLoad : S) → Bool
  /-- `((load - average_load) / load * partition_count) as usize` -/
  partitionsToMove : (load averageLoad : S) → (partitionCount : Nat) → Nat
  /-- `partial_cmp` gives `Less`. -/
  less : S → S → Bool

abbrev Assignments := List (TopicPartition × PartitionAssignment)

def PartitionAssignment.heldBy (assignment : PartitionAssignment) (broker : String) : Bool :=
  assignment.leader = broker || assignment.replicas.contains broker

/-- The loop stops when it has found enough, and at least one. -/
def selectPartitionsToMove (fromBroker : BrokerInfo S) (partitionsToMove : Nat)
    (assignments : Assignments) : List TopicPartition :=
  ((assignments.filter fun e => e.2.heldBy fromBroker.id).take (max partitionsToMove 1)).map
    Prod.fst

/-- `min_by` returns the first of several least. -/
def findBestTargetBroker (arith : Arithmetic S) (brokers : List (BrokerInfo S))
    (excludeBroker : String) : Option (BrokerInfo S) :=
  (brokers.filter fun b => b.id ≠ excludeBroker ∧ b.status = .healthy).foldl
    (fun best b => match best with
      | some least => if arith.less b.loadScore least.loadScore then some b else some least
      | none => some b) none

def overloadedBrokers (arith : Arithmetic S) (brokers : List (BrokerInfo S)) :
    List (BrokerInfo S) :=
  let averageLoad := arith.averageLoad (brokers.map BrokerInfo.loadScore)
  brokers.filter fun b => arith.exceeds b.loadScore averageLoad ∧
    (b.status = .healthy ∨ b.status = .draining)

def movesFrom (arith : Arithmetic S) (brokers : List (BrokerInfo S)) (assignments : Assignments)
    (broker : BrokerInfo S) : List PartitionMove :=
  let averageLoad := arith.averageLoad (brokers.map BrokerInfo.loadScore)
  let toMove := arith.partitionsToMove broker.loadScore averageLoad broker.partitionCount
  match findBestTargetBroker arith brokers broker.id with
  | none => []
  | some target => (selectPartitionsToMove broker toMove assignments).map fun tp =>
      ⟨tp, broker.id, target.id, 100 * 1024 * 1024⟩

def calculateRebalancePlan (arith : Arithmetic S) (brokers : List (BrokerInfo S))
    (assignments : Assignments) : List PartitionMove :=
  (overloadedBrokers arith brokers).flatMap (movesFrom arith brokers assignments)

/-! ## Moves -/

variable {arith : Arithmetic S} {brokers : List (BrokerInfo S)} {assignments : Assignments}
  {broker : BrokerInfo S}

theorem mem_of_findBestTargetBroker {target : BrokerInfo S} {excludeBroker : String}
    (h : findBestTargetBroker arith brokers excludeBroker = some target) :
    target ∈ brokers ∧ target.id ≠ excludeBroker ∧ target.status = .healthy := by
  suffices hmem : target ∈ brokers.filter fun b => b.id ≠ excludeBroker ∧ b.status = .healthy by
    simpa using hmem
  rw [findBestTargetBroker] at h
  generalize (brokers.filter fun b => b.id ≠ excludeBroker ∧ b.status = .healthy) = l at h ⊢
  induction l using reverseRecOn with
  | nil => cases h
  | append_singleton l b ih =>
    rw [foldl_append, foldl_cons, foldl_nil] at h
    split at h
    · rename_i least hleast
      split at h
      · cases h
        exact mem_append_right _ (mem_singleton_self _)
      · exact mem_append_left _ (ih (hleast.trans h))
    · cases h
      exact mem_append_right _ (mem_singleton_self _)

theorem mem_movesFrom {move : PartitionMove}
    (h : move ∈ movesFrom arith brokers assignments broker) :
    move.fromBroker = broker.id ∧
      (∃ a, (move.topicPartition, a) ∈ assignments ∧ a.heldBy broker.id = true) ∧
      ∃ target ∈ findBestTargetBroker arith brokers broker.id, target ∈ brokers ∧
        target.id = move.toBroker ∧ target.id ≠ broker.id ∧ target.status = .healthy := by
  rw [movesFrom] at h
  split at h
  · cases h
  · rename_i target htarget
    obtain ⟨tp, htp, rfl⟩ := mem_map.mp h
    obtain ⟨⟨_, a⟩, hmem, rfl⟩ := mem_map.mp htp
    obtain ⟨hmem, hheld⟩ := mem_filter.mp (mem_of_mem_take hmem)
    obtain ⟨hin, hne, hhealthy⟩ := mem_of_findBestTargetBroker htarget
    exact ⟨rfl, ⟨a, hmem, hheld⟩, target, htarget, hin, rfl, hne, hhealthy⟩

theorem nodup_movesFrom (hkeys : (assignments.map Prod.fst).Nodup) :
    ((movesFrom arith brokers assignments broker).map PartitionMove.topicPartition).Nodup := by
  rw [movesFrom]
  split
  · exact nodup_nil
  · rw [map_map]
    refine (map_id _).symm ▸ hkeys.sublist (Sublist.map _ ?_)
    exact (take_sublist _ _).trans filter_sublist

variable (assignments) in
/-- What comes first in the iteration is moved, however few partitions are to be moved. -/
theorem mem_movesFrom_cons {target : BrokerInfo S} {e : TopicPartition × PartitionAssignment}
    (htarget : findBestTargetBroker arith brokers broker.id = some target)
    (hheld : e.2.heldBy broker.id = true) :
    ⟨e.1, broker.id, target.id, 104857600⟩ ∈ movesFrom arith brokers (e :: assignments) broker := by
  rw [movesFrom, htarget]
  refine mem_map.mpr ⟨e.1, ?_, rfl⟩
  rw [selectPartitionsToMove, filter_cons_of_pos (by exact hheld)]
  obtain ⟨n, hn⟩ := Nat.exists_eq_add_of_le' (le_max_right (arith.partitionsToMove broker.loadScore
    (arith.averageLoad (brokers.map BrokerInfo.loadScore)) broker.partitionCount) 1)
  rw [hn, take_succ_cons, map_cons]
  exact mem_cons_self

/-! ## Executable plans -/

/-- The source of a move holds the partition, its target is healthy and does not, and no partition is
moved twice. -/
def Executable (brokers : List (BrokerInfo S)) (assignments : Assignments)
    (plan : List PartitionMove) : Prop :=
  (∀ move ∈ plan, ∃ a, (move.topicPartition, a) ∈ assignments ∧ move.fromBroker ∈ a.replicas ∧
    move.toBroker ∉ a.replicas ∧
    ∃ target ∈ brokers, target.id = move.toBroker ∧ target.status = .healthy) ∧
  (plan.map PartitionMove.topicPartition).Nodup

/-- A partition that an overloaded broker holds has a replica on it and none on the least loaded of
the other healthy brokers, and no other overloaded broker that could give it away holds it. -/
def Movable (arith : Arithmetic S) (brokers : List (BrokerInfo S)) (assignments : Assignments) :
    Prop :=
  ∀ b ∈ overloadedBrokers arith brokers,
    ∀ target ∈ findBestTargetBroker arith brokers b.id, ∀ e ∈ assignments,
      e.2.heldBy b.id = true → b.id ∈ e.2.replicas ∧ target.id ∉ e.2.replicas ∧
        ∀ b' ∈ overloadedBrokers arith brokers,
          (findBestTargetBroker arith brokers b'.id).isSome = true →
            e.2.heldBy b'.id = true → b'.id = b.id

theorem Movable.executable (h : Movable arith brokers assignments)
    (hids : (brokers.map BrokerInfo.id).Nodup) (hkeys : (assignments.map Prod.fst).Nodup) :
    Executable brokers assignments (calculateRebalancePlan arith brokers assignments) := by
  constructor
  · intro move hmove
    obtain ⟨b, hb, hmove⟩ := mem_flatMap.mp hmove
    obtain ⟨hfrom, ⟨a, ha, hheld⟩, target, hbest, htarget, hto, -, hhealthy⟩ := mem_movesFrom hmove
    obtain ⟨hsource, hnot, -⟩ := h b hb target hbest _ ha hheld
    exact ⟨a, ha, hfrom ▸ hsource, hto ▸ hnot, target, htarget, hto, hhealthy⟩
  · rw [calculateRebalancePlan, map_flatMap, nodup_flatMap]
    refine ⟨fun b _ => nodup_movesFrom hkeys, ?_⟩
    have hpairs : (overloadedBrokers arith brokers).Pairwise fun b b' => b.id ≠ b'.id :=
      (pairwise_map.mp hids).sublist filter_sublist
    refine hpairs.imp_of_mem fun {b b'} hb hb' hne tp htp htp' => hne ?_
    obtain ⟨move, hmove, rfl⟩ := mem_map.mp htp
    obtain ⟨move', hmove', heq⟩ := mem_map.mp htp'
    obtain ⟨-, ⟨a, ha, hheld⟩, target, hbest, -⟩ := mem_movesFrom hmove
    obtain ⟨-, ⟨a', ha', hheld'⟩, target', hbest', -⟩ := mem_movesFrom hmove'
    rw [heq] at ha'
    have hsame : a' = a := congrArg Prod.snd (inj_on_of_nodup_map hkeys ha' ha rfl)
    subst hsame
    exact ((h b hb target hbest _ ha hheld).2.2 b' hb' (Option.isSome_of_mem hbest') hheld').symm

/-- **When plans can be executed.** A map is iterated in any order; its plan can be executed in every
order exactly if its partitions are movable. -/
theorem plan_executable_iff (arith : Arithmetic S) (brokers : List (BrokerInfo S))
    (assignments : Assignments) (hids : (brokers.map BrokerInfo.id).Nodup)
    (hkeys : (assignments.map Prod.fst).Nodup) :
    (∀ order, order.Perm assignments →
      Executable brokers assignments (calculateRebalancePlan arith brokers order)) ↔
    Movable arith brokers assignments := by
  constructor
  · intro h b hb target htarget e he hheld
    -- the partition may come first
    obtain ⟨hmoves, hnodup⟩ := h _ (perm_cons_erase he).symm
    have hmove := mem_movesFrom_cons (assignments.erase e) htarget hheld
    obtain ⟨a, ha, hsource, hnot, -⟩ := hmoves _ (mem_flatMap.mpr ⟨b, hb, hmove⟩)
    have hsame : a = e.2 := congrArg Prod.snd (inj_on_of_nodup_map hkeys ha he rfl)
    subst hsame
    refine ⟨hsource, hnot, fun b' hb' htarget' hheld' => ?_⟩
    obtain ⟨target', htarget'⟩ := Option.isSome_iff_exists.mp htarget'
    have hmove' := mem_movesFrom_cons (assignments.erase e) htarget' hheld'
    by_contra hne
    rw [calculateRebalancePlan, map_flatMap, nodup_flatMap] at hnodup
    have hsymm : Std.Symm (List.Disjoint (α := TopicPartition)) := ⟨fun _ _ h => h.symm⟩
    have hdisjoint := hnodup.2.forall hb' hb fun heq => hne (heq ▸ rfl)
    exact hdisjoint (mem_map.mpr ⟨_, hmove', rfl⟩) (mem_map.mpr ⟨_, hmove, rfl⟩)
  · intro h order horder
    have hmovable : Movable arith brokers order := fun b hb target htarget e he =>
      h b hb target htarget e (horder.mem_iff.mp he)
    obtain ⟨hmoves, hnodup⟩ := hmovable.executable hids
      ((horder.map Prod.fst).nodup_iff.mpr hkeys)
    refine ⟨fun move hmove => ?_, hnodup⟩
    obtain ⟨a, ha, hrest⟩ := hmoves move hmove
    exact ⟨a, horder.mem_iff.mp ha, hrest⟩

/-! ## In exact numbers -/

/-- A load of 0 makes the quotient infinite, and the cast saturates. -/
def rational : Arithmetic ℚ where
  averageLoad loads := loads.sum / loads.length
  exceeds load averageLoad := averageLoad * (11 / 10) < load
  partitionsToMove load averageLoad partitionCount :=
    if load = 0 then if partitionCount = 0 then 0 else 2 ^ 64 - 1
    else ⌊(load - averageLoad) / load * partitionCount⌋.toNat
  less a b := a < b

def tp (partition : Nat) : TopicPartition := ⟨"t", partition⟩

def fourBrokers : List (BrokerInfo ℚ) :=
  [⟨"b1", .healthy, 9, 1⟩, ⟨"b2", .healthy, 9, 1⟩, ⟨"b3", .healthy, 1, 1⟩, ⟨"b4", .healthy, 1, 0⟩]

/-- A partition with two replicas, one of them on an idle broker that is not the least loaded. -/
def twoReplicas : Assignments := [(tp 0, ⟨"b1", ["b1", "b4"]⟩), (tp 1, ⟨"b2", ["b2", "b4"]⟩)]

theorem plan_executable_iff_twoReplicas :
    calculateRebalancePlan rational fourBrokers twoReplicas =
        [⟨tp 0, "b1", "b3", 104857600⟩, ⟨tp 1, "b2", "b3", 104857600⟩] ∧
      Executable fourBrokers twoReplicas (calculateRebalancePlan rational fourBrokers twoReplicas) := by
  refine ⟨by decide +kernel, (plan_executable_iff rational fourBrokers twoReplicas (by decide)
    (by decide)).mpr ?_ _ (.refl _)⟩
  unfold Movable
  decide +kernel

/-- A partition with three replicas is moved from both loaded holders to the third. -/
theorem replica_moved_twice :
    calculateRebalancePlan rational fourBrokers [(tp 0, ⟨"b1", ["b1", "b2", "b3"]⟩)] =
      [⟨tp 0, "b1", "b3", 104857600⟩, ⟨tp 0, "b2", "b3", 104857600⟩] := by
  decide +kernel

end RustMq.Operations.Rebalance
