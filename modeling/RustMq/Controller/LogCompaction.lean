import RustMq.Controller.StateMachine

/-!
# Snapshots of the log compaction

`LogCompactionManager` (`src/controller/openraft_compaction.rs`): `compact_logs` saves the state as a
full snapshot or, after a recent full one, as the difference to it, and then removes the files of
all but the newest snapshots.

Two things get lost. A difference has no list of deleted partition assignments, so it does not
restore a state that has fewer of them than its base (`delta_keeps_deleted`). And
`cleanup_old_snapshots` removes files but not the entries of the metadata map, so once it removes
anything a snapshot is listed that is not there, and the next difference is taken to a base that is
not there (`snapshots_lost`).
-/

namespace RustMq.Controller.LogCompaction

open Lib List SMap

/-! ## Differences between states -/

structure RustMqSnapshotData where
  topics : SMap String TopicInfo
  brokers : SMap BrokerId BrokerInfo
  partitionAssignments : SMap TopicPartition PartitionAssignment
  lastAppliedLog : Option Nat
  snapshotVersion : Nat
  deriving DecidableEq

structure StateDelta where
  topicChanges : SMap String TopicInfo
  brokerChanges : SMap BrokerId BrokerInfo
  partitionChanges : SMap TopicPartition PartitionAssignment
  deletedTopics : List String
  deletedBrokers : List BrokerId
  deriving DecidableEq

section maps

variable {K V : Type} [LinearOrder K] [DecidableEq V] (base current : SMap K V)

def changes : SMap K V := current.filterKeys fun k => base.get? k ≠ current.get? k

def deletions : List K := base.keys.filter fun k => (current.get? k).isNone

theorem get?_insertAll_changes (k : K) :
    (base.insertAll (changes base current)).get? k = (current.get? k).or (base.get? k) := by
  rw [get?_insertAll, changes, get?_filterKeys]
  split
  · rfl
  · rename_i hsame
    rw [decide_eq_true_eq, not_not] at hsame
    rw [← hsame, Option.or_self]
    rfl

/-- Changes and deletions together give the other map. -/
theorem filterKeys_insertAll_changes :
    ((base.insertAll (changes base current)).filterKeys fun k => k ∉ deletions base current) =
      current := by
  refine ext_get? fun k => ?_
  have hmem : k ∈ deletions base current ↔ (∃ v, base.get? k = some v) ∧ current.get? k = none := by
    rw [deletions, List.mem_filter, SMap.mem_keys, Option.isNone_iff_eq_none]
  rw [get?_filterKeys, get?_insertAll_changes]
  cases hcur : current.get? k with
  | some v => simp [hmem, hcur]
  | none =>
    cases hbase : base.get? k with
    | some v | none => simp [hmem, hcur, hbase]

/-- Changes alone give it exactly if nothing was deleted. -/
theorem insertAll_changes_eq_iff :
    base.insertAll (changes base current) = current ↔ base.keys ⊆ current.keys := by
  constructor
  · intro heq k hk
    have hget := get?_insertAll_changes base current k
    rw [heq] at hget
    obtain ⟨v, hv⟩ := mem_keys.mp hk
    rw [SMap.mem_keys, hget, hv]
    cases current.get? k with
    | some w => exact ⟨w, rfl⟩
    | none => exact ⟨v, rfl⟩
  · intro hsub
    refine ext_get? fun k => ?_
    rw [get?_insertAll_changes]
    cases hbase : base.get? k with
    | none => exact Option.or_none
    | some v =>
      obtain ⟨w, hw⟩ := mem_keys.mp (hsub (mem_keys.mpr ⟨v, hbase⟩))
      rw [hw]
      rfl

end maps

def computeStateDelta (base current : RustMqSnapshotData) : StateDelta where
  topicChanges := changes base.topics current.topics
  brokerChanges := changes base.brokers current.brokers
  partitionChanges := changes base.partitionAssignments current.partitionAssignments
  deletedTopics := deletions base.topics current.topics
  deletedBrokers := deletions base.brokers current.brokers

/-- What a difference says about a state: the changed entries are inserted and the deleted ones
removed. -/
def StateDelta.apply (delta : StateDelta) (base : RustMqSnapshotData) : RustMqSnapshotData :=
  { base with
    topics := (base.topics.insertAll delta.topicChanges).filterKeys (· ∉ delta.deletedTopics)
    brokers := (base.brokers.insertAll delta.brokerChanges).filterKeys (· ∉ delta.deletedBrokers)
    partitionAssignments := base.partitionAssignments.insertAll delta.partitionChanges }

/-- **A difference restores topics and brokers**, and the partition assignments exactly if none of
the base was deleted. -/
theorem delta_restores (base current : RustMqSnapshotData) :
    let restored := (computeStateDelta base current).apply base
    restored.topics = current.topics ∧ restored.brokers = current.brokers ∧
      (restored.partitionAssignments = current.partitionAssignments ↔
        base.partitionAssignments.keys ⊆ current.partitionAssignments.keys) :=
  ⟨filterKeys_insertAll_changes _ _, filterKeys_insertAll_changes _ _, insertAll_changes_eq_iff _ _⟩

def noState : RustMqSnapshotData := ⟨.empty, .empty, .empty, none, 0⟩

def onePartition : RustMqSnapshotData :=
  { noState with partitionAssignments := SMap.empty.insert ⟨"t", 0⟩ ⟨"b1", ["b1"], ["b1"], 1⟩ }

/-- Deleting the assignment leaves no trace in the difference. -/
theorem delta_keeps_deleted :
    computeStateDelta onePartition noState = computeStateDelta onePartition onePartition ∧
      ((computeStateDelta onePartition noState).apply onePartition).partitionAssignments ≠
        noState.partitionAssignments := by
  decide +kernel

/-! ## The manager -/

structure CompactionConfig where
  keepSnapshotCount : Nat
  incrementalThreshold : Nat
  deriving DecidableEq

inductive SnapshotType where
  | full
  | incremental
  deriving DecidableEq

structure SnapshotMetadata where
  snapshotId : String
  snapshotType : SnapshotType
  lastLogId : Nat
  createdAt : Nat
  baseSnapshotId : Option String
  deriving DecidableEq

inductive SnapshotFile where
  | full (state : RustMqSnapshotData)
  | incremental (baseSnapshotId : String) (lastLogId : Nat) (delta : StateDelta)

structure Manager where
  snapshotMetadata : SMap String SnapshotMetadata
  files : String → Option SnapshotFile

/-- A call of `compact_logs` with its two readings of the clock, in seconds. -/
structure Call where
  currentState : RustMqSnapshotData
  lastLogId : Nat
  idTime : Nat
  createdTime : Nat

inductive CompactError where
  | fileNotFound (snapshotId : String)
  | deserialize
  deriving DecidableEq

namespace Manager

variable (cfg : CompactionConfig) (m : Manager)

def new : Manager := ⟨.empty, fun _ => none⟩

def fullSnapshots : List SnapshotMetadata :=
  (m.snapshotMetadata.entries.map Prod.snd).filter fun md => md.snapshotType = .full

/-- The subtraction and the product are those of `u64`. -/
def determineSnapshotType (lastLogId : Nat) : SnapshotType :=
  if m.fullSnapshots.any fun md =>
      (lastLogId + 2 ^ 64 - md.lastLogId) % 2 ^ 64 < cfg.incrementalThreshold * 5 % 2 ^ 64
  then .incremental else .full

def generateSnapshotId (time : Nat) : SnapshotType → String
  | .full => "full_" ++ toString time
  | .incremental => "incr_" ++ toString time

/-- `max_by_key` returns the last of several greatest. -/
def findLatestFullSnapshot : Option SnapshotMetadata :=
  m.fullSnapshots.foldl (fun best md => match best with
    | some b => if b.createdAt ≤ md.createdAt then some md else some b
    | none => some md) none

def loadSnapshotData (snapshotId : String) : Except CompactError RustMqSnapshotData :=
  match m.files snapshotId with
  | none => .error (.fileNotFound snapshotId)
  | some (.full state) => .ok state
  | some (.incremental _ _ _) => .error .deserialize

def fullFile (call : Call) : SnapshotFile :=
  .full { call.currentState with lastAppliedLog := some call.lastLogId }

def createSnapshot (call : Call) : SnapshotType → Except CompactError SnapshotFile
  | .full => .ok (fullFile call)
  | .incremental =>
    match m.findLatestFullSnapshot with
    | none => .ok (fullFile call)
    | some base => do
      let baseState ← m.loadSnapshotData base.snapshotId
      .ok (.incremental base.snapshotId call.lastLogId
        (computeStateDelta baseState call.currentState))

def listSnapshots : List SnapshotMetadata :=
  (m.snapshotMetadata.entries.map Prod.snd).insertionSort (·.createdAt ≤ ·.createdAt)

/-- Files are removed, entries of the map are not. -/
def cleanupOldSnapshots : Manager :=
  let toRemove := m.listSnapshots.take (m.listSnapshots.length - cfg.keepSnapshotCount)
  { m with files := fun id => if toRemove.any (·.snapshotId = id) then none else m.files id }

def metadata (call : Call) (snapshotType : SnapshotType) : SnapshotMetadata where
  snapshotId := generateSnapshotId call.idTime snapshotType
  snapshotType := snapshotType
  lastLogId := call.lastLogId
  createdAt := call.createdTime
  baseSnapshotId := match snapshotType with
    | .full => none
    | .incremental => m.findLatestFullSnapshot.map (·.snapshotId)

def save (md : SnapshotMetadata) (file : SnapshotFile) : Manager :=
  ⟨m.snapshotMetadata.insert md.snapshotId md, Function.update m.files md.snapshotId (some file)⟩

def compactLogs (call : Call) : Except CompactError Manager := do
  let snapshotType := m.determineSnapshotType cfg call.lastLogId
  let file ← m.createSnapshot call snapshotType
  .ok ((m.save (m.metadata call snapshotType) file).cleanupOldSnapshots cfg)

def step (call : Call) : Option Manager := (m.compactLogs cfg call).toOption

/-! ## While nothing is removed -/

def HasFull (id : String) : Prop :=
  (∃ time, id = generateSnapshotId time .full) ∧ ∃ state, m.files id = some (.full state)

/-- Every entry of the map stands under its own id, its file is there, and so is that of its base. -/
structure Usable : Prop where
  own : ∀ k md, m.snapshotMetadata.get? k = some md → md.snapshotId = k ∧ (m.files k).isSome
  full : ∀ k md, m.snapshotMetadata.get? k = some md → md.snapshotType = .full → m.HasFull k
  base : ∀ k md, m.snapshotMetadata.get? k = some md → md.snapshotType = .incremental →
    ∃ b, md.baseSnapshotId = some b ∧ m.HasFull b

variable {cfg m} {call : Call} {md : SnapshotMetadata} {file : SnapshotFile}

theorem generateSnapshotId_ne (time time' : Nat) :
    generateSnapshotId time .full ≠ generateSnapshotId time' .incremental := by
  intro h
  have hlist := congrArg String.toList h
  simp [generateSnapshotId] at hlist

theorem mem_fullSnapshots : md ∈ m.fullSnapshots ↔
    (∃ k, m.snapshotMetadata.get? k = some md) ∧ md.snapshotType = .full := by
  simp [fullSnapshots, get?_eq_some_iff]

theorem findLatestFullSnapshot_mem {base : SnapshotMetadata}
    (h : m.findLatestFullSnapshot = some base) : base ∈ m.fullSnapshots := by
  rw [findLatestFullSnapshot] at h
  generalize m.fullSnapshots = l at h
  induction l using reverseRecOn with
  | nil => cases h
  | append_singleton l md ih =>
    rw [foldl_append, foldl_cons, foldl_nil] at h
    split at h
    · split at h
      · cases h
        exact mem_append_right _ (mem_singleton_self _)
      · rename_i hb _
        exact mem_append_left _ (ih (hb.trans h))
    · cases h
      exact mem_append_right _ (mem_singleton_self _)

theorem findLatestFullSnapshot_isSome (h : m.fullSnapshots ≠ []) :
    m.findLatestFullSnapshot.isSome := by
  rw [findLatestFullSnapshot]
  rw [← dropLast_append_getLast h, foldl_append, foldl_cons, foldl_nil]
  split
  · split
    · rfl
    · rfl
  · rfl

/-- A snapshot of its type, under an id of its type. -/
structure Fits (md : SnapshotMetadata) (file : SnapshotFile) : Prop where
  id : ∃ time, md.snapshotId = generateSnapshotId time md.snapshotType
  full : md.snapshotType = .full → ∃ state, file = .full state

theorem files_save (m : Manager) (md : SnapshotMetadata) (file : SnapshotFile) (id : String) :
    (m.save md file).files id = if id = md.snapshotId then some file else m.files id :=
  Function.update_apply _ _ _ _

theorem HasFull.save {id : String} (h : m.HasFull id) (hfits : Fits md file) :
    (m.save md file).HasFull id := by
  obtain ⟨⟨time, rfl⟩, state, hstate⟩ := h
  refine ⟨⟨time, rfl⟩, ?_⟩
  by_cases hid : generateSnapshotId time .full = md.snapshotId
  · obtain ⟨time', htime⟩ := hfits.id
    cases htype : md.snapshotType with
    | full =>
      obtain ⟨state', rfl⟩ := hfits.full htype
      exact ⟨state', by rw [files_save, if_pos hid]⟩
    | incremental =>
      rw [htype] at htime
      exact absurd (hid.trans htime) (generateSnapshotId_ne time time')
  · exact ⟨state, by rw [files_save, if_neg hid, hstate]⟩

theorem Usable.save (h : m.Usable) (hfits : Fits md file) (hbase : md.snapshotType = .incremental →
      ∃ b, md.baseSnapshotId = some b ∧ m.HasFull b) : (m.save md file).Usable := by
  refine ⟨fun k md' hget => ?_, fun k md' hget htype => ?_, fun k md' hget htype => ?_⟩
  all_goals rcases of_get?_insert hget with ⟨rfl, rfl⟩ | ⟨hne, hget⟩
  · exact ⟨rfl, by rw [files_save, if_pos rfl]; rfl⟩
  · rw [files_save, if_neg hne]
    exact h.own k md' hget
  · obtain ⟨time, htime⟩ := hfits.id
    obtain ⟨state, rfl⟩ := hfits.full htype
    exact ⟨⟨time, by rw [htime, htype]⟩, state, by rw [files_save, if_pos rfl]⟩
  · exact (h.full k md' hget htype).save hfits
  · obtain ⟨b, hb, hhas⟩ := hbase htype
    exact ⟨b, hb, hhas.save hfits⟩
  · obtain ⟨b, hb, hhas⟩ := h.base k md' hget htype
    exact ⟨b, hb, hhas.save hfits⟩

/-- The base of a difference is there, so the snapshot is created and saved. -/
theorem Usable.createSnapshot (h : m.Usable) (cfg : CompactionConfig) (call : Call) :
    ∃ file, m.createSnapshot call (m.determineSnapshotType cfg call.lastLogId) = .ok file ∧
      (m.save (m.metadata call (m.determineSnapshotType cfg call.lastLogId)) file).Usable := by
  cases htype : m.determineSnapshotType cfg call.lastLogId with
  | full =>
    refine ⟨fullFile call, rfl, h.save ⟨⟨_, rfl⟩, fun _ => ⟨_, rfl⟩⟩ fun hincr => ?_⟩
    cases hincr
  | incremental =>
    have hsome : m.fullSnapshots ≠ [] := by
      intro hnil
      rw [determineSnapshotType, hnil] at htype
      cases htype
    obtain ⟨base, hbase⟩ := Option.isSome_iff_exists.mp (findLatestFullSnapshot_isSome hsome)
    obtain ⟨⟨k, hk⟩, hfull⟩ := mem_fullSnapshots.mp (findLatestFullSnapshot_mem hbase)
    have hhas := h.full k base hk hfull
    rw [← (h.own k base hk).1] at hhas
    obtain ⟨-, state, hstate⟩ := id hhas
    refine ⟨.incremental base.snapshotId call.lastLogId (computeStateDelta state call.currentState),
      ?_, h.save ⟨⟨_, rfl⟩, fun hno => nomatch hno⟩ fun _ => ⟨base.snapshotId, ?_, hhas⟩⟩
    · rw [Manager.createSnapshot, hbase]
      simp only [loadSnapshotData, hstate]
      rfl
    · rw [metadata, hbase]
      rfl

theorem length_insert_le {K V : Type} [LinearOrder K] (m : SMap K V) (k : K) (v : V) :
    (m.insert k v).entries.length ≤ m.entries.length + 1 := by
  have hsub : (m.insert k v).keys ⊆ k :: m.keys := by
    intro a ha
    obtain ⟨w, hw⟩ := mem_keys.mp ha
    rcases of_get?_insert hw with ⟨rfl, -⟩ | ⟨-, hget⟩
    · exact mem_cons_self
    · exact mem_cons_of_mem k (mem_keys.mpr ⟨w, hget⟩)
  have hlen := ((m.insert k v).nodup_keys.subperm hsub).length_le
  rwa [length_cons, SMap.keys, SMap.keys, length_map, length_map] at hlen

theorem cleanupOldSnapshots_eq (h : m.snapshotMetadata.entries.length ≤ cfg.keepSnapshotCount) :
    m.cleanupOldSnapshots cfg = m := by
  have hlen : m.listSnapshots.length - cfg.keepSnapshotCount = 0 := by
    rw [listSnapshots, length_insertionSort, length_map]
    omega
  rw [cleanupOldSnapshots, hlen]
  rfl

def RoomLeft (cfg : CompactionConfig) (m : Manager) (_ : Call) : Prop :=
  m.snapshotMetadata.entries.length < cfg.keepSnapshotCount

instance (cfg : CompactionConfig) (m : Manager) (call : Call) : Decidable (RoomLeft cfg m call) :=
  inferInstanceAs (Decidable (_ < _))

theorem Usable.step {m' : Manager} (h : m.Usable) (hroom : RoomLeft cfg m call)
    (hstep : m.step cfg call = some m') : m'.Usable := by
  obtain ⟨file, hfile, husable⟩ := h.createSnapshot cfg call
  have hlen := length_insert_le m.snapshotMetadata
    (m.metadata call (m.determineSnapshotType cfg call.lastLogId)).snapshotId
    (m.metadata call (m.determineSnapshotType cfg call.lastLogId))
  rw [Manager.step, compactLogs, hfile] at hstep
  cases hstep
  rwa [cleanupOldSnapshots_eq (hlen.trans hroom)]

/-- **Listed snapshots are usable** as long as `keep_snapshot_count` is not reached: the files of a
snapshot and of its base are there, and the next call returns `Ok`. -/
theorem snapshots_usable (cfg : CompactionConfig) (calls : List Call) (m : Manager)
    (hroom : Along (step cfg) (RoomLeft cfg) .new calls)
    (hexec : exec (step cfg) .new calls = some m) :
    (∀ md ∈ m.listSnapshots, (m.files md.snapshotId).isSome ∧ (md.snapshotType = .incremental →
        ∃ b state, md.baseSnapshotId = some b ∧ m.files b = some (.full state))) ∧
      ∀ call, (m.compactLogs cfg call).isOk := by
  have hnew : new.Usable := by
    constructor <;> intro k md hget <;> cases hget
  have husable := exec_invariant (I := Usable) (fun s call s' h hP hs => h.step hP hs) hnew hroom
    hexec
  refine ⟨fun md hmd => ?_, fun call => ?_⟩
  · rw [listSnapshots, mem_insertionSort] at hmd
    obtain ⟨⟨k, _⟩, hmem, rfl⟩ := mem_map.mp hmd
    have hget := get?_eq_some_iff.mpr hmem
    obtain ⟨hid, hfile⟩ := husable.own k _ hget
    refine ⟨hid ▸ hfile, fun htype => ?_⟩
    obtain ⟨b, hb, -, state, hstate⟩ := husable.base k _ hget htype
    exact ⟨b, state, hb, hstate⟩
  · obtain ⟨file, hfile, -⟩ := husable.createSnapshot cfg call
    rw [compactLogs, hfile]
    rfl

def twoCalls : List Call := [⟨noState, 1, 1, 1⟩, ⟨onePartition, 2, 2, 2⟩]

theorem snapshots_usable_twoCalls : ∃ m, exec (step ⟨2, 1000⟩) .new twoCalls = some m ∧
      m.listSnapshots.map (·.snapshotId) = ["full_1", "incr_2"] ∧
      ∀ call, (m.compactLogs ⟨2, 1000⟩ call).isOk :=
  ⟨_, rfl, by decide +kernel, (snapshots_usable ⟨2, 1000⟩ twoCalls _ (by decide +kernel) rfl).2⟩

/-- With one snapshot to keep the second call removes the file of the first, which stays listed and
is the base of the second. The next call fails. -/
theorem snapshots_lost : ∃ m, exec (step ⟨1, 1000⟩) .new twoCalls = some m ∧
      m.listSnapshots.map (fun md => (md.snapshotId, md.baseSnapshotId)) =
        [("full_1", none), ("incr_2", some "full_1")] ∧
      (m.files "full_1").isNone ∧ (m.files "incr_2").isSome ∧
      (m.compactLogs ⟨1, 1000⟩ ⟨noState, 3, 3, 3⟩).isOk = false :=
  ⟨_, rfl, by decide +kernel⟩

end Manager
end RustMq.Controller.LogCompaction
