import RustMq.Lib.Runs
import RustMq.Store.PartitionStore

/-!
# Producing: concurrent calls of `append_records`

`MessageBrokerCore::append_records` (`src/broker/core.rs`) as a step machine. A call takes a
snapshot of the partition's metadata, whose high watermark is its first offset, appends every record
through the store, replicates every record if its acknowledgment level asks for it, and sets the
high watermark to one past its last offset. Nothing is held across these steps, so any number of
calls may be at any of them.

`ReplicationManager::replicate_record` (`src/replication/manager.rs`) first appends the record to
the local log, which is the same store, and then waits for acknowledgments;
`wait_for_acknowledgments` returns `Ok` whatever the followers answer. So the replication pass
is a second pass of store appends.
-/

namespace RustMq.Broker

open Lib Store Function

inductive AcknowledgmentLevel where
  | none
  | leader
  | majority
  | all
  | custom (n : Nat)
  deriving DecidableEq

def AcknowledgmentLevel.replicates : AcknowledgmentLevel → Bool
  | .none | .leader => false
  | .majority | .all | .custom _ => true

structure PartitionMetadata where
  highWatermark : Nat
  isLeader : Bool
  deriving DecidableEq

inductive Pass where
  | own
  | replica
  deriving DecidableEq

/-- Where a call stands. `append pass base i indexed` is at record `i` of a loop, before
(`indexed = false`) or after the record is in the hot tier. -/
inductive Phase where
  | snapshot
  | append (pass : Pass) (base i : Nat) (indexed : Bool)
  | advance (base : Nat)
  | done (result : Except RustMqError (List Nat))

def Phase.inProgress : Phase → Bool
  | .append _ _ _ _ | .advance _ => true
  | .snapshot | .done _ => false

structure Call where
  topicPartition : TopicPartition
  records : List Record
  acks : AcknowledgmentLevel
  phase : Phase

def Call.walRecord (c : Call) (base i : Nat) (r : Record) : WalRecord :=
  ⟨c.topicPartition, base + i, r, 0⟩

def Call.afterPass (c : Call) (base : Nat) : Pass → Phase
  | .own => if c.acks.replicates then .append .replica base 0 false else .advance base
  | .replica => .advance base

structure State where
  store : PartitionStore
  partitions : TopicPartition → Option PartitionMetadata
  calls : Nat → Option Call

inductive Label where
  | spawn (id : Nat) (topicPartition : TopicPartition) (records : List Record)
      (acks : AcknowledgmentLevel)
  | call (id : Nat) (outcome : AppendOutcome)
  | sealActive

def Call.step (cfg : StoreConfig) (s : State) (c : Call) (outcome : AppendOutcome) :
    Option (PartitionStore × (TopicPartition → Option PartitionMetadata) × Phase) :=
  match c.phase with
  | .snapshot =>
    match s.partitions c.topicPartition with
    | none => some (s.store, s.partitions,
        .done (.error (.partitionNotFound (toString c.topicPartition))))
    | some metadata =>
      if metadata.isLeader then
        some (s.store, s.partitions, .append .own metadata.highWatermark 0 false)
      else some (s.store, s.partitions, .done (.error (.notLeader (toString c.topicPartition))))
  | .append pass base i false =>
    match c.records[i]? with
    | some r =>
      if s.store.hasCapacity cfg (PartitionStore.memSize cfg (c.walRecord base i r)) then
        some (s.store.appendHot cfg (c.walRecord base i r), s.partitions, .append pass base i true)
      else none
    | none => some (s.store, s.partitions, c.afterPass base pass)
  | .append pass base i true =>
    match c.records[i]? with
    | some r =>
      let phase := match outcome with
        | .ok => .append pass base (i + 1) false
        | .fail _ => .done (.error .io)
      some (s.store.appendWal (c.walRecord base i r) outcome, s.partitions, phase)
    | none => none
  | .advance base =>
    let metadata := (s.partitions c.topicPartition).map fun m =>
      { m with highWatermark := base + c.records.length }
    some (s.store, Function.update s.partitions c.topicPartition metadata,
      .done (.ok (List.range' base c.records.length)))
  | .done _ => none

def step (cfg : StoreConfig) (s : State) : Label → Option State
  | .spawn id tp records acks =>
    match s.calls id with
    | some _ => none
    | none => some { s with calls := Function.update s.calls id
                              (some ⟨tp, records, acks, .snapshot⟩) }
  | .call id outcome =>
    match s.calls id with
    | none => none
    | some c => (c.step cfg s outcome).map fun next =>
        { store := next.1
          partitions := next.2.1
          calls := Function.update s.calls id (some { c with phase := next.2.2 }) }
  | .sealActive => some { s with store := { s.store with wal := s.store.wal.rotate } }

/-! ## What a step can do -/

theorem Call.afterPass_cases (c : Call) (base : Nat) (pass : Pass) :
    c.afterPass base pass = .advance base ∨
      c.acks.replicates = true ∧ c.afterPass base pass = .append .replica base 0 false := by
  cases pass with
  | own =>
    by_cases hrep : c.acks.replicates = true
    · exact .inr ⟨hrep, if_pos hrep⟩
    · exact .inl (if_neg hrep)
  | replica => exact .inl rfl

inductive CallStep (cfg : StoreConfig) (s : State) (c : Call) (outcome : AppendOutcome) :
    PartitionStore → (TopicPartition → Option PartitionMetadata) → Phase → Prop
  | refused (e : RustMqError) (hphase : c.phase = .snapshot) :
      CallStep cfg s c outcome s.store s.partitions (.done (.error e))
  | snapshot (m : PartitionMetadata) (hphase : c.phase = .snapshot)
      (hm : s.partitions c.topicPartition = some m) :
      CallStep cfg s c outcome s.store s.partitions (.append .own m.highWatermark 0 false)
  | index (pass : Pass) (base i : Nat) (r : Record) (hphase : c.phase = .append pass base i false)
      (hr : c.records[i]? = some r) :
      CallStep cfg s c outcome (s.store.appendHot cfg (c.walRecord base i r)) s.partitions
        (.append pass base i true)
  | loopEnd (pass : Pass) (base i : Nat) (hphase : c.phase = .append pass base i false)
      (hr : c.records[i]? = none) :
      CallStep cfg s c outcome s.store s.partitions (c.afterPass base pass)
  | written (pass : Pass) (base i : Nat) (r : Record) (hphase : c.phase = .append pass base i true)
      (hr : c.records[i]? = some r) (houtcome : outcome = .ok) :
      CallStep cfg s c outcome (s.store.appendWal (c.walRecord base i r) .ok) s.partitions
        (.append pass base (i + 1) false)
  | failed (pass : Pass) (base i : Nat) (r : Record) (left : Bool)
      (hphase : c.phase = .append pass base i true) (hr : c.records[i]? = some r)
      (houtcome : outcome = .fail left) :
      CallStep cfg s c outcome (s.store.appendWal (c.walRecord base i r) (.fail left)) s.partitions
        (.done (.error .io))
  | finish (base : Nat) (hphase : c.phase = .advance base) :
      CallStep cfg s c outcome s.store (Function.update s.partitions c.topicPartition
          ((s.partitions c.topicPartition).map fun m =>
            { m with highWatermark := base + c.records.length }))
        (.done (.ok (List.range' base c.records.length)))

theorem Call.step_cases {cfg : StoreConfig} {s : State} {c : Call} {outcome : AppendOutcome}
    {store : PartitionStore} {partitions : TopicPartition → Option PartitionMetadata}
    {phase : Phase} (h : c.step cfg s outcome = some (store, partitions, phase)) :
    CallStep cfg s c outcome store partitions phase := by
  unfold Call.step at h
  cases hphase : c.phase with
  | snapshot =>
    simp only [hphase] at h
    cases hm : s.partitions c.topicPartition with
    | none =>
      simp only [hm] at h
      cases h
      exact .refused _ hphase
    | some m =>
      simp only [hm] at h
      split at h
      · cases h
        exact .snapshot m hphase hm
      · cases h
        exact .refused _ hphase
  | append pass base i indexed =>
    cases indexed with
    | false =>
      simp only [hphase] at h
      cases hr : c.records[i]? with
      | none =>
        simp only [hr] at h
        cases h
        exact .loopEnd pass base i hphase hr
      | some r =>
        simp only [hr] at h
        split at h
        · cases h
          exact .index pass base i r hphase hr
        · cases h
    | true =>
      simp only [hphase] at h
      cases hr : c.records[i]? with
      | none =>
        simp only [hr] at h
        cases h
      | some r =>
        simp only [hr] at h
        cases outcome with
        | ok =>
          cases h
          exact .written pass base i r hphase hr rfl
        | fail left =>
          cases h
          exact .failed pass base i r left hphase hr rfl
  | advance base =>
    simp only [hphase] at h
    cases h
    exact .finish base hphase
  | done result =>
    simp only [hphase] at h
    cases h

theorem step_cases {cfg : StoreConfig} {s s' : State} {l : Label} (h : step cfg s l = some s') :
    (∃ id tp records acks, l = .spawn id tp records acks ∧ s.calls id = none ∧
      s' = { s with calls := Function.update s.calls id (some ⟨tp, records, acks, .snapshot⟩) }) ∨
    (∃ id outcome c store partitions phase, l = .call id outcome ∧ s.calls id = some c ∧
      c.step cfg s outcome = some (store, partitions, phase) ∧
      s' = ⟨store, partitions, Function.update s.calls id (some { c with phase := phase })⟩) ∨
    (l = .sealActive ∧ s' = { s with store := { s.store with wal := s.store.wal.rotate } }) := by
  cases l with
  | spawn id tp records acks =>
    unfold step at h
    cases hid : s.calls id with
    | some c =>
      simp only [hid] at h
      cases h
    | none =>
      simp only [hid] at h
      cases h
      exact .inl ⟨id, tp, records, acks, rfl, hid, rfl⟩
  | call id outcome =>
    unfold step at h
    cases hid : s.calls id with
    | none =>
      simp only [hid] at h
      cases h
    | some c =>
      simp only [hid] at h
      obtain ⟨⟨store, partitions, phase⟩, hnext, rfl⟩ := Option.map_eq_some_iff.mp h
      exact .inr (.inl ⟨id, outcome, c, store, partitions, phase, rfl, hid, hnext, rfl⟩)
  | sealActive =>
    cases h
    exact .inr (.inr ⟨rfl, rfl⟩)

end RustMq.Broker
