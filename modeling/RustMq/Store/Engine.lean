import RustMq.Lib.Runs
import RustMq.Store.Compaction

/-!
# The storage engine as a step machine

A partition store with its two background tasks. `tier_once` and `tier_segment`
(`src/storage/partition_store.rs`) and `run_compaction_cycle` and `execute_plan`
(`src/storage/compaction.rs`) wait between their steps, and clients append and read meanwhile; a
crash may come anywhere. So each task is a position, and every interleaving of clients, tasks and
restarts is a list of labels.

What the environment decides is in the labels: the iteration order of the two hash maps, whether
a partition is fenced, how a write to the log ends, whether a deletion succeeds, and where a
call fails (`abort`). What the code decides is in the step functions. A failing call abandons
the tiering cycle and the compaction plan; a panic (`BTreeMap::range` on a reversed range) ends
its task.
-/

namespace RustMq.Store

open Lib Option

/-! ## Uploading records -/

/-- Serialize and upload the records of a range, as the tiering and the compaction both do. The
answer is the segment to be written to the manifest. -/
def uploadRecords (cfg : StoreConfig) (s : PartitionStore) (tp : TopicPartition)
    (startOffset endOffset : Nat) (records : List WalRecord) :
    Option (PartitionStore × ColdSegment) :=
  match serializeRecords records with
  | .error _ => none
  | .ok data =>
    let segment : WalSegment := ⟨startOffset, endOffset, data.length, data, tp⟩
    let stored := uploadSegment cfg.storage s.objects segment
    some ({ s with objects := stored.1 }, ⟨tp, startOffset, endOffset, stored.2, data.length⟩)

/-! ## The tiering task -/

structure Group where
  topicPartition : TopicPartition
  records : List WalRecord
  deriving DecidableEq

def groupsOf (order : List TopicPartition) (records : List WalRecord) : List Group :=
  order.map fun tp => ⟨tp, PartitionStore.recordsOf tp records⟩

/-- The sealed segment being tiered, the ones after it, and whether a group of it was fenced. -/
structure SegmentTask where
  seq : Nat
  seqs : List Nat
  fencedAny : Bool
  deriving DecidableEq

/-- Where the tiering task stands: between cycles, between segments of a cycle, before a group,
after its upload, after its registration. -/
inductive Tiering where
  | idle
  | cycle (seqs : List Nat)
  | group (task : SegmentTask) (groups : List Group)
  | uploaded (task : SegmentTask) (groups : List Group) (segment : ColdSegment)
  | registered (task : SegmentTask) (groups : List Group) (segment : ColdSegment)
  | panicked
  deriving DecidableEq

inductive TierLabel where
  /-- The log rotates. Only `tier_once` makes it. -/
  | sealActive
  /-- The rotation fails after it created the next file. -/
  | sealFailed
  | start
  /-- The next segment, with the iteration order of its groups. -/
  | segment (order : List TopicPartition)
  /-- `may_tier` answers `false`. -/
  | fence
  | advance
  | abort
  deriving DecidableEq

def tierStep (cfg : StoreConfig) (s : PartitionStore) :
    Tiering → TierLabel → Option (PartitionStore × Tiering)
  | .idle, .sealActive => some ({ s with wal := s.wal.rotate }, .idle)
  | .idle, .sealFailed => some ({ s with wal := s.wal.spill }, .idle)
  | .idle, .start => some (s, .cycle s.wal.sealedSegs.keys)
  | .cycle (seq :: seqs), .segment order =>
    match s.wal.sealedSegs.get? seq with
    | none => none
    | some [] => some ({ s with wal := s.wal.delete seq }, .cycle seqs)
    | some records =>
      if order.Perm (PartitionStore.partitionsOf records) then
        some (s, .group ⟨seq, seqs, false⟩ (groupsOf order records))
      else none
  | .cycle [], .advance => some (s, .idle)
  -- before the upload and after it
  | .group task (_ :: groups), .fence =>
    if cfg.fencing then some (s, .group { task with fencedAny := true } groups) else none
  | .uploaded task groups _, .fence =>
    if cfg.fencing then some (s, .group { task with fencedAny := true } groups) else none
  | .group task (g :: groups), .advance =>
    (uploadRecords cfg s g.topicPartition (PartitionStore.groupStart g.records)
      (PartitionStore.groupEnd g.records) g.records).map
        fun stored => (stored.1, .uploaded task groups stored.2)
  | .uploaded task groups segment, .advance =>
    some ({ s with manifest := s.manifest ++ [.register segment] },
      .registered task groups segment)
  | .registered task groups segment, .advance =>
    match s.index.flipToCold segment.topicPartition segment.startOffset segment.endOffset
        segment.objectKey segment.sizeBytes with
    | none => some (s, .panicked)
    | some index => some ({ s with index := index }, .group task groups)
  | .group task [], .advance =>
    if task.fencedAny then some (s, .cycle task.seqs)
    else some ({ s with wal := s.wal.delete task.seq }, .cycle task.seqs)
  | .cycle _, .abort | .group _ _, .abort | .uploaded _ _ _, .abort => some (s, .idle)
  | _, _ => none

/-! ## The compaction task -/

def CompactionPlan.startOffset (plan : CompactionPlan) : Nat :=
  (plan.sources.head?.map ColdSegment.startOffset).getD 0

def CompactionPlan.endOffset (plan : CompactionPlan) : Nat :=
  (plan.sources.getLast?.map ColdSegment.endOffset).getD 0

def CompactionPlan.sourceKeys (plan : CompactionPlan) : List String :=
  plan.sources.map ColdSegment.objectKey

/-- Download one source and put its records behind the ones so far. `none` when the download or
the decoding fails or the first offset is not the expected one. -/
def mergeSource (cfg : StoreConfig) (s : PartitionStore) (source : ColdSegment)
    (mergedRecords : List WalRecord) (expectedNextOffset : Nat) :
    Option (List WalRecord × Nat) :=
  match downloadSegment cfg.storage s.objects source.objectKey with
  | .error _ => none
  | .ok segment =>
    match deserializeRecords segment.data with
    | .error _ => none
    | .ok [] => some (mergedRecords, expectedNextOffset)
    | .ok (r :: recs) =>
      if r.offset ≠ expectedNextOffset then none
      else some (mergedRecords ++ r :: recs, PartitionStore.groupEnd (r :: recs))

/-- Where the compaction task stands: between cycles, planning, between plans, and in a plan
downloading, after the upload, after the manifest record, and deleting the sources. -/
inductive Compaction where
  | idle
  | planning (partitions : List TopicPartition) (plans : List CompactionPlan)
  | cycle (plans : List CompactionPlan)
  | downloading (plan : CompactionPlan) (plans : List CompactionPlan)
      (sources : List ColdSegment) (mergedRecords : List WalRecord) (expectedNextOffset : Nat)
  | uploaded (plan : CompactionPlan) (plans : List CompactionPlan) (segment : ColdSegment)
  | recorded (plan : CompactionPlan) (plans : List CompactionPlan) (segment : ColdSegment)
  | deleting (keys : List String) (plans : List CompactionPlan)
  | panicked
  deriving DecidableEq

inductive CompactLabel where
  | start (order : List TopicPartition)
  | advance
  | delete (deleted : Bool)
  | abort
  deriving DecidableEq

def compactStep (cfg : StoreConfig) (s : PartitionStore) :
    Compaction → CompactLabel → Option (PartitionStore × Compaction)
  | .idle, .start order =>
    if cfg.compaction.enabled ∧ order.Perm s.index.getPartitions then
      some (s, .planning order [])
    else none
  | .planning (tp :: partitions) plans, .advance =>
    some (s, .planning partitions
      (plans ++ planPartitionCompaction tp (s.index.getColdSegments tp) cfg.compaction))
  | .planning [] plans, .advance => some (s, .cycle plans)
  | .cycle [], .advance => some (s, .idle)
  | .cycle (plan :: plans), .advance =>
    if plan.sources.length < 2 then some (s, .cycle plans)
    else some (s, .downloading plan plans plan.sources [] plan.startOffset)
  | .downloading plan plans (source :: sources) mergedRecords expectedNextOffset, .advance =>
    match mergeSource cfg s source mergedRecords expectedNextOffset with
    | none => some (s, .cycle plans)
    | some (mergedRecords, expectedNextOffset) =>
      some (s, .downloading plan plans sources mergedRecords expectedNextOffset)
  | .downloading plan plans [] mergedRecords expectedNextOffset, .advance =>
    if expectedNextOffset ≠ plan.endOffset then some (s, .cycle plans)
    else
      (uploadRecords cfg s plan.topicPartition plan.startOffset plan.endOffset mergedRecords).map
        fun stored => (stored.1, .uploaded plan plans stored.2)
  | .uploaded plan plans segment, .advance =>
    some ({ s with manifest := s.manifest ++ [.compact segment plan.sourceKeys] },
      .recorded plan plans segment)
  | .recorded plan plans segment, .advance =>
    match s.index.replaceCold segment.topicPartition segment.startOffset segment.endOffset
        segment.objectKey segment.sizeBytes with
    | none => some (s, .panicked)
    | some index => some ({ s with index := index }, .deleting plan.sourceKeys plans)
  | .deleting (key :: keys) plans, .delete deleted =>
    some ({ s with objects := if deleted then s.objects.delete key else s.objects },
      .deleting keys plans)
  | .deleting [] plans, .advance => some (s, .cycle plans)
  | .downloading _ plans _ _ _, .abort | .uploaded _ plans _, .abort => some (s, .cycle plans)
  | _, _ => none

/-! ## Clients, restarts, and the whole engine -/

inductive ClientLabel where
  | appendHot (record : WalRecord)
  | appendWal (record : WalRecord) (outcome : AppendOutcome)
  | sync
  | read (tp : TopicPartition) (offset maxBytes : Nat)
  | evict (key : String)
  deriving DecidableEq

/-- `pending` holds the records whose append has not returned. -/
def clientStep (cfg : StoreConfig) (s : PartitionStore) (pending : List WalRecord) :
    ClientLabel → Option (PartitionStore × List WalRecord)
  | .appendHot r =>
    if s.hasCapacity cfg (PartitionStore.memSize cfg r) then
      some (s.appendHot cfg r, r :: pending)
    else none
  | .appendWal r outcome =>
    if r ∈ pending then some (s.appendWal r outcome, pending.erase r) else none
  | .sync => some ({ s with wal := s.wal.flushed }, pending)
  | .read tp offset maxBytes => some ({ s with cache := (s.read cfg tp offset maxBytes).2 }, pending)
  | .evict key => some ({ s with cache := s.cache.delete key }, pending)

structure Engine where
  store : PartitionStore
  pending : List WalRecord
  tiering : Tiering
  compaction : Compaction

inductive Label where
  | client (label : ClientLabel)
  | tier (label : TierLabel)
  | compact (label : CompactLabel)
  /-- A crash that leaves `kept` records of the active segment, and the restart, where `deleted`
  says which orphans recovery manages to delete. -/
  | restart (kept : Nat) (deleted : String → Bool)

/-- The log as a crash leaves it: a tail of the active segment that was never synced is lost. -/
def crashed (wal : Wal.Log WalRecord) (kept : Nat) : Wal.Log WalRecord :=
  ⟨wal.sealedSegs, wal.activeSeq, wal.active.take kept, 0, Nat.zero_le _, wal.bound⟩

namespace Engine

def boot (s : PartitionStore) : Engine := ⟨s, [], .idle, .idle⟩

def step (cfg : StoreConfig) (e : Engine) : Label → Option Engine
  | .client label => (clientStep cfg e.store e.pending label).map fun r =>
    { e with store := r.1, pending := r.2 }
  | .tier label => (tierStep cfg e.store e.tiering label).map fun r =>
    { e with store := r.1, tiering := r.2 }
  | .compact label => (compactStep cfg e.store e.compaction label).map fun r =>
    { e with store := r.1, compaction := r.2 }
  | .restart kept deleted =>
    if e.store.wal.synced ≤ kept then
      -- opening the log starts a fresh segment
      (PartitionStore.newWithFencing cfg (crashed e.store.wal kept).rotate e.store.manifest
        e.store.objects deleted).map boot
    else none

end Engine

/-! ## What the steps can do -/

variable {cfg : StoreConfig} {s s' : PartitionStore} {tiering tiering' : Tiering}
  {label : TierLabel} {compaction compaction' : Compaction} {pending pending' : List WalRecord}

theorem uploadRecords_cases {tp : TopicPartition} {a b : Nat} {records : List WalRecord}
    {segment : ColdSegment} (h : uploadRecords cfg s tp a b records = some (s', segment)) :
    ∃ data objects, serializeRecords records = .ok data ∧
      s' = { s with objects := objects } ∧ segment = ⟨tp, a, b, objectKey tp a b, data.length⟩ ∧
      ∀ tp' a' b', objects (objectKey tp' a' b') =
        if isMultipart cfg.storage data = false ∧ tp' = tp ∧ a' = a ∧ b' = b then
          some (dataWithCrc cfg.storage data)
        else s.objects (objectKey tp' a' b') := by
  unfold uploadRecords at h
  cases hdata : serializeRecords records with
  | error e => rw [hdata] at h; cases h
  | ok data =>
    rw [hdata] at h
    cases h
    refine ⟨data, _, rfl, rfl, ?_, fun tp' a' b' => uploadSegment_objects _ _ _ tp' a' b'⟩
    rw [uploadSegment_key]

inductive TierStep (cfg : StoreConfig) (s : PartitionStore) :
    Tiering → TierLabel → PartitionStore → Tiering → Prop
  | sealActive : TierStep cfg s .idle .sealActive { s with wal := s.wal.rotate } .idle
  | sealFailed : TierStep cfg s .idle .sealFailed { s with wal := s.wal.spill } .idle
  | start : TierStep cfg s .idle .start s (.cycle s.wal.sealedSegs.keys)
  | reclaim {seq : Nat} {seqs : List Nat} {order : List TopicPartition}
      (hget : s.wal.sealedSegs.get? seq = some []) :
      TierStep cfg s (.cycle (seq :: seqs)) (.segment order) { s with wal := s.wal.delete seq }
        (.cycle seqs)
  | segment {seq : Nat} {seqs : List Nat} {order : List TopicPartition} {records : List WalRecord}
      (hget : s.wal.sealedSegs.get? seq = some records) (hne : records ≠ [])
      (hperm : order.Perm (PartitionStore.partitionsOf records)) :
      TierStep cfg s (.cycle (seq :: seqs)) (.segment order) s
        (.group ⟨seq, seqs, false⟩ (groupsOf order records))
  | cycleDone : TierStep cfg s (.cycle []) .advance s .idle
  | fenceBefore {task : SegmentTask} {g : Group} {groups : List Group}
      (hfencing : cfg.fencing = true) :
      TierStep cfg s (.group task (g :: groups)) .fence s
        (.group { task with fencedAny := true } groups)
  | fenceAfter {task : SegmentTask} {groups : List Group} {segment : ColdSegment}
      (hfencing : cfg.fencing = true) :
      TierStep cfg s (.uploaded task groups segment) .fence s
        (.group { task with fencedAny := true } groups)
  | upload {task : SegmentTask} {g : Group} {groups : List Group} {s' : PartitionStore}
      {segment : ColdSegment}
      (hupload : uploadRecords cfg s g.topicPartition (PartitionStore.groupStart g.records)
        (PartitionStore.groupEnd g.records) g.records = some (s', segment)) :
      TierStep cfg s (.group task (g :: groups)) .advance s' (.uploaded task groups segment)
  | register {task : SegmentTask} {groups : List Group} {segment : ColdSegment} :
      TierStep cfg s (.uploaded task groups segment) .advance
        { s with manifest := s.manifest ++ [.register segment] } (.registered task groups segment)
  | flip {task : SegmentTask} {groups : List Group} {segment : ColdSegment}
      {index : PartitionIndex}
      (hflip : s.index.flipToCold segment.topicPartition segment.startOffset segment.endOffset
        segment.objectKey segment.sizeBytes = some index) :
      TierStep cfg s (.registered task groups segment) .advance { s with index := index }
        (.group task groups)
  | flipPanic {task : SegmentTask} {groups : List Group} {segment : ColdSegment}
      (hflip : s.index.flipToCold segment.topicPartition segment.startOffset segment.endOffset
        segment.objectKey segment.sizeBytes = none) :
      TierStep cfg s (.registered task groups segment) .advance s .panicked
  | retain {task : SegmentTask} (hfenced : task.fencedAny = true) :
      TierStep cfg s (.group task []) .advance s (.cycle task.seqs)
  | delete {task : SegmentTask} (hfenced : task.fencedAny = false) :
      TierStep cfg s (.group task []) .advance { s with wal := s.wal.delete task.seq }
        (.cycle task.seqs)
  | abortCycle {seqs : List Nat} : TierStep cfg s (.cycle seqs) .abort s .idle
  | abortGroup {task : SegmentTask} {groups : List Group} :
      TierStep cfg s (.group task groups) .abort s .idle
  | abortUploaded {task : SegmentTask} {groups : List Group} {segment : ColdSegment} :
      TierStep cfg s (.uploaded task groups segment) .abort s .idle

theorem tierStep_cases (h : tierStep cfg s tiering label = some (s', tiering')) :
    TierStep cfg s tiering label s' tiering' := by
  unfold tierStep at h
  split at h
  · cases h; exact .sealActive
  · cases h; exact .sealFailed
  · cases h; exact .start
  · split at h
    · cases h
    · cases h; exact .reclaim ‹_›
    · rename_i records hne hget
      split at h
      · cases h; exact .segment hget (fun hnil => hne hnil) ‹_›
      · cases h
  · cases h; exact .cycleDone
  · split at h
    · cases h; exact .fenceBefore ‹_›
    · cases h
  · split at h
    · cases h; exact .fenceAfter ‹_›
    · cases h
  · obtain ⟨⟨stored, segment⟩, hupload, heq⟩ := map_eq_some_iff.mp h
    cases heq
    exact .upload hupload
  · cases h; exact .register
  · split at h
    · cases h; exact .flipPanic ‹_›
    · cases h; exact .flip ‹_›
  · split at h
    · cases h; exact .retain ‹_›
    · rename_i hfenced
      cases h
      exact .delete (by simpa using hfenced)
  · cases h; exact .abortCycle
  · cases h; exact .abortGroup
  · cases h; exact .abortUploaded
  · cases h

theorem TierStep.index_cases (h : TierStep cfg s tiering label s' tiering') :
    s'.index = s.index ∨ ∃ segment : ColdSegment,
      s.index.flipToCold segment.topicPartition segment.startOffset segment.endOffset
        segment.objectKey segment.sizeBytes = some s'.index := by
  cases h with
  | upload hupload =>
    obtain ⟨data, objects, -, rfl, -⟩ := uploadRecords_cases hupload
    exact .inl rfl
  | flip hflip => exact .inr ⟨_, hflip⟩
  | _ => exact .inl rfl

inductive CompactStep (cfg : StoreConfig) (s : PartitionStore) :
    Compaction → CompactLabel → PartitionStore → Compaction → Prop
  | start {order : List TopicPartition} (henabled : cfg.compaction.enabled = true)
      (hperm : order.Perm s.index.getPartitions) :
      CompactStep cfg s .idle (.start order) s (.planning order [])
  | plan {tp : TopicPartition} {partitions : List TopicPartition} {plans : List CompactionPlan} :
      CompactStep cfg s (.planning (tp :: partitions) plans) .advance s
        (.planning partitions
          (plans ++ planPartitionCompaction tp (s.index.getColdSegments tp) cfg.compaction))
  | planned {plans : List CompactionPlan} :
      CompactStep cfg s (.planning [] plans) .advance s (.cycle plans)
  | cycleDone : CompactStep cfg s (.cycle []) .advance s .idle
  | skip {plan : CompactionPlan} {plans : List CompactionPlan}
      (hlen : plan.sources.length < 2) :
      CompactStep cfg s (.cycle (plan :: plans)) .advance s (.cycle plans)
  | execute {plan : CompactionPlan} {plans : List CompactionPlan}
      (hlen : 2 ≤ plan.sources.length) :
      CompactStep cfg s (.cycle (plan :: plans)) .advance s
        (.downloading plan plans plan.sources [] plan.startOffset)
  | download {plan : CompactionPlan} {plans : List CompactionPlan} {source : ColdSegment}
      {sources : List ColdSegment} {merged merged' : List WalRecord} {expected expected' : Nat}
      (hmerge : mergeSource cfg s source merged expected = some (merged', expected')) :
      CompactStep cfg s (.downloading plan plans (source :: sources) merged expected) .advance s
        (.downloading plan plans sources merged' expected')
  | downloadErr {plan : CompactionPlan} {plans : List CompactionPlan} {source : ColdSegment}
      {sources : List ColdSegment} {merged : List WalRecord} {expected : Nat}
      (hmerge : mergeSource cfg s source merged expected = none) :
      CompactStep cfg s (.downloading plan plans (source :: sources) merged expected) .advance s
        (.cycle plans)
  | mismatch {plan : CompactionPlan} {plans : List CompactionPlan} {merged : List WalRecord}
      {expected : Nat} (hend : expected ≠ plan.endOffset) :
      CompactStep cfg s (.downloading plan plans [] merged expected) .advance s (.cycle plans)
  | upload {plan : CompactionPlan} {plans : List CompactionPlan} {merged : List WalRecord}
      {expected : Nat} {s' : PartitionStore} {segment : ColdSegment}
      (hend : expected = plan.endOffset)
      (hupload : uploadRecords cfg s plan.topicPartition plan.startOffset plan.endOffset merged =
        some (s', segment)) :
      CompactStep cfg s (.downloading plan plans [] merged expected) .advance s'
        (.uploaded plan plans segment)
  | record {plan : CompactionPlan} {plans : List CompactionPlan} {segment : ColdSegment} :
      CompactStep cfg s (.uploaded plan plans segment) .advance
        { s with manifest := s.manifest ++ [.compact segment plan.sourceKeys] }
        (.recorded plan plans segment)
  | replace {plan : CompactionPlan} {plans : List CompactionPlan} {segment : ColdSegment}
      {index : PartitionIndex}
      (hreplace : s.index.replaceCold segment.topicPartition segment.startOffset
        segment.endOffset segment.objectKey segment.sizeBytes = some index) :
      CompactStep cfg s (.recorded plan plans segment) .advance { s with index := index }
        (.deleting plan.sourceKeys plans)
  | replacePanic {plan : CompactionPlan} {plans : List CompactionPlan} {segment : ColdSegment}
      (hreplace : s.index.replaceCold segment.topicPartition segment.startOffset
        segment.endOffset segment.objectKey segment.sizeBytes = none) :
      CompactStep cfg s (.recorded plan plans segment) .advance s .panicked
  | delete {key : String} {keys : List String} {plans : List CompactionPlan} {deleted : Bool} :
      CompactStep cfg s (.deleting (key :: keys) plans) (.delete deleted)
        { s with objects := if deleted then s.objects.delete key else s.objects }
        (.deleting keys plans)
  | planDone {plans : List CompactionPlan} :
      CompactStep cfg s (.deleting [] plans) .advance s (.cycle plans)
  | abortDownloading {plan : CompactionPlan} {plans : List CompactionPlan}
      {sources : List ColdSegment} {merged : List WalRecord} {expected : Nat} :
      CompactStep cfg s (.downloading plan plans sources merged expected) .abort s (.cycle plans)
  | abortUploaded {plan : CompactionPlan} {plans : List CompactionPlan} {segment : ColdSegment} :
      CompactStep cfg s (.uploaded plan plans segment) .abort s (.cycle plans)

theorem compactStep_cases {label : CompactLabel}
    (h : compactStep cfg s compaction label = some (s', compaction')) :
    CompactStep cfg s compaction label s' compaction' := by
  unfold compactStep at h
  split at h
  · split at h
    · rename_i hguard
      cases h
      exact .start hguard.1 hguard.2
    · cases h
  · cases h; exact .plan
  · cases h; exact .planned
  · cases h; exact .cycleDone
  · split at h
    · cases h; exact .skip ‹_›
    · rename_i hlen
      cases h
      exact .execute (not_lt.mp hlen)
  · split at h
    · cases h; exact .downloadErr ‹_›
    · cases h; exact .download ‹_›
  · split at h
    · cases h; exact .mismatch ‹_›
    · rename_i hend
      obtain ⟨⟨stored, segment⟩, hupload, heq⟩ := map_eq_some_iff.mp h
      cases heq
      exact .upload (not_not.mp hend) hupload
  · cases h; exact .record
  · split at h
    · cases h; exact .replacePanic ‹_›
    · cases h; exact .replace ‹_›
  · cases h; exact .delete
  · cases h; exact .planDone
  · cases h; exact .abortDownloading
  · cases h; exact .abortUploaded
  · cases h

theorem CompactStep.index_cases {label : CompactLabel}
    (h : CompactStep cfg s compaction label s' compaction') :
    s'.index = s.index ∨ ∃ segment : ColdSegment,
      s.index.replaceCold segment.topicPartition segment.startOffset segment.endOffset
        segment.objectKey segment.sizeBytes = some s'.index := by
  cases h with
  | upload _ hupload =>
    obtain ⟨data, objects, -, rfl, -⟩ := uploadRecords_cases hupload
    exact .inl rfl
  | replace hreplace => exact .inr ⟨_, hreplace⟩
  | _ => exact .inl rfl

inductive ClientStep (cfg : StoreConfig) (s : PartitionStore) (pending : List WalRecord) :
    ClientLabel → PartitionStore → List WalRecord → Prop
  | appendHot {r : WalRecord} (hcap : s.hasCapacity cfg (PartitionStore.memSize cfg r)) :
      ClientStep cfg s pending (.appendHot r) (s.appendHot cfg r) (r :: pending)
  | appendWal {r : WalRecord} {outcome : AppendOutcome} (hr : r ∈ pending) :
      ClientStep cfg s pending (.appendWal r outcome) (s.appendWal r outcome) (pending.erase r)
  | sync : ClientStep cfg s pending .sync { s with wal := s.wal.flushed } pending
  | read {tp : TopicPartition} {offset maxBytes : Nat} :
      ClientStep cfg s pending (.read tp offset maxBytes)
        { s with cache := (s.read cfg tp offset maxBytes).2 } pending
  | evict {key : String} :
      ClientStep cfg s pending (.evict key) { s with cache := s.cache.delete key } pending

theorem clientStep_cases {label : ClientLabel}
    (h : clientStep cfg s pending label = some (s', pending')) :
    ClientStep cfg s pending label s' pending' := by
  unfold clientStep at h
  split at h
  · split at h
    · cases h; exact .appendHot ‹_›
    · cases h
  · split at h
    · cases h; exact .appendWal ‹_›
    · cases h
  · cases h; exact .sync
  · cases h; exact .read
  · cases h; exact .evict

/-- A client writes neither cold catalog and no object. -/
theorem ClientStep.frame {label : ClientLabel} (h : ClientStep cfg s pending label s' pending') :
    s'.manifest = s.manifest ∧ s'.objects = s.objects ∧
      ∀ tp, s'.index.cold tp = s.index.cold tp := by
  cases h with
  | appendHot => exact ⟨rfl, rfl, fun tp => PartitionIndex.cold_insertHot _ _ _ _ _ _⟩
  | @appendWal r outcome hr =>
    cases outcome with
    | ok => exact ⟨rfl, rfl, fun _ => rfl⟩
    | fail left => exact ⟨rfl, rfl, fun tp => PartitionIndex.cold_removeHot _ _ _ _⟩
  | sync | read | evict => exact ⟨rfl, rfl, fun _ => rfl⟩

inductive Engine.Step (cfg : StoreConfig) (e : Engine) : Label → Engine → Prop
  | client {label : ClientLabel} {s : PartitionStore} {pending : List WalRecord}
      (h : ClientStep cfg e.store e.pending label s pending) :
      Step cfg e (.client label) { e with store := s, pending := pending }
  | tier {label : TierLabel} {s : PartitionStore} {tiering : Tiering}
      (h : TierStep cfg e.store e.tiering label s tiering) :
      Step cfg e (.tier label) { e with store := s, tiering := tiering }
  | compact {label : CompactLabel} {s : PartitionStore} {compaction : Compaction}
      (h : CompactStep cfg e.store e.compaction label s compaction) :
      Step cfg e (.compact label) { e with store := s, compaction := compaction }
  | restart {kept : Nat} {deleted : String → Bool} {load : LoadResult}
      (hkept : e.store.wal.synced ≤ kept) (hload : fold e.store.manifest = some load) :
      Step cfg e (.restart kept deleted) (Engine.boot
        { wal := (crashed e.store.wal kept).rotate
          index := PartitionStore.indexHot cfg
            (PartitionStore.walRecords (crashed e.store.wal kept).rotate)
            (PartitionStore.indexCold load.live .new)
          objects := PartitionStore.collectOrphans load.orphanObjectKeys deleted e.store.objects
          cache := fun _ => none
          manifest := e.store.manifest })

theorem Engine.step_cases {e e' : Engine} {label : Label} (h : e.step cfg label = some e') :
    Engine.Step cfg e label e' := by
  cases label with
  | client label =>
    obtain ⟨⟨s, pending⟩, hstep, rfl⟩ := map_eq_some_iff.mp h
    exact .client (clientStep_cases hstep)
  | tier label =>
    obtain ⟨⟨s, tiering⟩, hstep, rfl⟩ := map_eq_some_iff.mp h
    exact .tier (tierStep_cases hstep)
  | compact label =>
    obtain ⟨⟨s, compaction⟩, hstep, rfl⟩ := map_eq_some_iff.mp h
    exact .compact (compactStep_cases hstep)
  | restart kept deleted =>
    unfold Engine.step at h
    by_cases hkept : e.store.wal.synced ≤ kept
    · simp only [if_pos hkept] at h
      obtain ⟨s, hs, rfl⟩ := map_eq_some_iff.mp h
      obtain ⟨load, hload, rfl⟩ := map_eq_some_iff.mp hs
      exact .restart hkept hload
    · simp only [if_neg hkept] at h
      cases h

end RustMq.Store
