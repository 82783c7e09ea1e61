import RustMq.Group.Coordinator
import RustMq.Store.Scan

/-!
# The offsets topic

With `PartitionStore` as its record log, the coordinator writes a record into a partition of
`__consumer_offsets` for every entry of a commit. The record carries the offset 0, and the store
indexes a record by the offset it carries. The second record of a partition therefore takes the
place of the first (`second_commit_replaces`), and what tiering makes of the partition is one range
from 0 to 1.
-/

namespace RustMq.Group

open Lib Lib.Extent Store Store.PartitionStore List Option

/-! ## The system -/

/-- The store behind the coordinator; the number of partitions is a `u32`. -/
structure OffsetsConfig where
  store : StoreConfig
  hash : String → Nat
  partitionCount : Nat
  positive : 0 < partitionCount
  bounded : partitionCount < 2 ^ 32

/-- `PartitionStore` as the record log. An append waits for its capacity and does not fail. -/
def OffsetsConfig.coordinator (c : OffsetsConfig) : CoordinatorConfig Engine where
  hash := c.hash
  offsetsPartitionCount := c.partitionCount
  positive := c.positive
  append e r :=
    if e.store.hasCapacity c.store (memSize c.store r) then some (true, e.appended c.store r)
    else none

/-- The coordinator and its store. `committed` are the records of the entries committed so far, in
commit order; no code reads it. -/
structure OffsetsTopic where
  manager : GroupCoordinatorManager
  engine : Engine
  committed : List WalRecord

inductive OffsetsLabel where
  | join (request : JoinGroupRequest) (uuid : String) (now : Nat)
    (allTopics memberIds : List String)
  | heartbeat (request : ConsumerHeartbeatRequest) (now : Nat)
  | leave (request : LeaveGroupRequest)
  | reap (now : Nat)
  | commit (request : CommitOffsetRequest) (timestamps : TopicPartition → Int)
  | tier (label : TierLabel)

def OffsetsConfig.recordsFor (c : OffsetsConfig) (request : CommitOffsetRequest)
    (timestamps : TopicPartition → Int) : List WalRecord :=
  request.offsets.entries.map fun entry =>
    c.coordinator.offsetRecord request.groupId timestamps entry.1 entry.2

namespace OffsetsTopic

def start : OffsetsTopic := ⟨.new, .boot .empty, []⟩

def step (c : OffsetsConfig) (s : OffsetsTopic) : OffsetsLabel → Option OffsetsTopic
  | .join request uuid now allTopics memberIds =>
    (s.manager.handleJoinGroup request uuid now allTopics memberIds).map fun r =>
      { s with manager := r.2 }
  | .heartbeat request now => some { s with manager := (s.manager.handleHeartbeat request now).2 }
  | .leave request => some { s with manager := (s.manager.handleLeaveGroup request).2 }
  | .reap now => some { s with manager := s.manager.reap now }
  | .commit request timestamps =>
    (handleCommitOffset c.coordinator s.manager s.engine request timestamps).map fun r =>
      ⟨r.2.2, r.2.1,
        if r.1 = 0 then s.committed ++ c.recordsFor request timestamps else s.committed⟩
  | .tier label => (s.engine.step c.store (.tier label)).map fun e => { s with engine := e }

end OffsetsTopic

def offsetsPartition (partition : Nat) : TopicPartition := ⟨"__consumer_offsets", partition⟩

/-! ## One record for each partition -/

def Current (m : GroupCoordinatorManager) (request : CommitOffsetRequest) : Prop :=
  (m.groups.get? request.groupId).any (fun st => st.generationId = request.generationId) = true

instance (m : GroupCoordinatorManager) (request : CommitOffsetRequest) :
    Decidable (Current m request) :=
  inferInstanceAs (Decidable (_ = _))

/-- The first record of its partition, of a size that is uploaded in one part, with a key and a
timestamp in the range of their types. -/
def LoneRecord (c : OffsetsConfig) (committed : List WalRecord) (r : WalRecord) : Prop :=
  recordsOf r.topicPartition committed = [] ∧ StoredWhole c.store [r] ∧
    (r.record.key.map List.length).getD 0 < 256 ^ 8 ∧
    -(256 ^ 8 : Int) ≤ 2 * r.record.timestamp ∧ 2 * r.record.timestamp < 256 ^ 8

instance (c : OffsetsConfig) (committed : List WalRecord) (r : WalRecord) :
    Decidable (LoneRecord c committed r) :=
  inferInstanceAs (Decidable (_ ∧ _ ∧ _ ∧ _ ∧ _))

/-- A commit that is accepted has at most one entry, and no entry was committed to the offsets
partition of its group before. -/
def FirstOfPartition (c : OffsetsConfig) (s : OffsetsTopic) : OffsetsLabel → Prop
  | .commit request timestamps => Current s.manager request →
    request.offsets.entries.length ≤ 1 ∧
      ∀ r ∈ c.recordsFor request timestamps, LoneRecord c s.committed r
  | _ => True

instance (c : OffsetsConfig) (s : OffsetsTopic) (label) :
    Decidable (FirstOfPartition c s label) := by
  unfold FirstOfPartition
  split <;> infer_instance

variable {timestamps : TopicPartition → Int} {groupId : String} {tp : TopicPartition}
  {committed : List WalRecord} {c : OffsetsConfig}

theorem readable_offsetRecord (c : OffsetsConfig) {offset : Nat}
    (h : LoneRecord c committed (c.coordinator.offsetRecord groupId timestamps tp offset)) :
    Readable (c.coordinator.offsetRecord groupId timestamps tp offset) := by
  obtain ⟨-, -, hkey, hlo, hhi⟩ := h
  have hpartition : c.coordinator.partitionFor groupId < 2 ^ 32 :=
    lt_trans (c.coordinator.partitionFor_lt groupId) c.bounded
  have hslash : '/' ∉ "__consumer_offsets".toList := by decide
  have hzero : 0 + 1 < 2 ^ 64 := by decide
  refine ⟨?_, hslash, hpartition, hzero⟩
  have htopic : "__consumer_offsets".toUTF8.data.toList.length < 256 ^ 8 := by decide
  have hoffset : 0 < 256 ^ 8 := by decide
  have hvalue : ((Codec.uint 8).enc offset).length < 256 ^ 8 := by
    rw [Codec.uint, length_leBytes]
    decide
  exact walRecordFields_fits rfl htopic hpartition hoffset hkey hvalue hlo hhi (UInt32.toNat_lt _)

/-! ## The invariant -/

/-- The tiering task handles the range from 0 to 1 only. -/
def UnitSegment : Tiering → Prop
  | .uploaded _ _ seg | .registered _ _ seg => seg.extent = (0, 1)
  | _ => True

structure Faithful (c : OffsetsConfig) (e : Engine) (committed : List WalRecord) : Prop where
  ranges : e.Ranges
  agrees : ∀ tp, e.Agrees c.store tp (recordsOf tp committed)
    {k | ∃ r ∈ recordsOf tp committed, r.offset = k}
  single : ∀ tp, (recordsOf tp committed).length ≤ 1
  zero : ∀ tp, ∀ r ∈ recordsOf tp committed, r.offset = 0
  whole : ∀ tp, ∀ r ∈ recordsOf tp committed, StoredWhole c.store [r]
  live : ∀ tp, ∀ I ∈ liveExtents e.store.manifest tp, I = (0, 1)
  segment : UnitSegment e.tiering
  idle : e.compaction = .idle
  next : ∀ tp, e.store.index.nextOffset tp = (recordsOf tp committed).length

namespace Faithful

variable {e e' : Engine}

theorem start (c : OffsetsConfig) : Faithful c (.boot .empty) [] := by
  refine ⟨Store.Ranges.empty, fun tp => ?_, fun _ => Nat.zero_le _, ?_, ?_, ?_, trivial, rfl,
    fun _ => rfl⟩
  · have hoffsets : {k | ∃ r ∈ recordsOf tp [], r.offset = k} = ∅ := by
      refine Set.eq_empty_of_forall_notMem fun k hk => ?_
      obtain ⟨r, hr, -⟩ := hk
      cases hr
    rw [hoffsets]
    exact Engine.agrees_empty c.store tp
  · intro tp r hr
    cases hr
  · intro tp r hr
    cases hr
  · intro tp I hI
    have hnil : liveExtents (Engine.boot .empty).store.manifest tp = ∅ := liveExtents_nil tp
    rw [hnil] at hI
    cases hI

/-! ### Tiering -/

variable (h : Faithful c e committed) {label : TierLabel}
include h

theorem cold_unit {I : Extent} (hI : I ∈ coldExtents e.store.index tp) : I = (0, 1) := by
  obtain ⟨⟨r, hr, hend⟩, -⟩ := (h.agrees tp).book.cold I hI
  have hzero := h.zero tp r hr
  have hlt := (h.agrees tp).book.tiling.nonempty I hI
  refine Prod.ext ?_ ?_
  · show I.1 = 0
    omega
  · show I.2 = 1
    omega

theorem segmentFits {seg : ColdSegment} (hseg : seg.extent = (0, 1)) : SegmentFits e.store seg := by
  have hlt : seg.extent.1 < seg.extent.2 := by
    rw [hseg]
    decide
  exact ⟨⟨hlt, fun J hJ => .inl ((h.live _ J hJ).trans hseg.symm)⟩,
    ⟨hlt, fun J hJ => .inl ((h.cold_unit hJ).trans hseg.symm)⟩⟩

theorem group_singleton {task : SegmentTask} {g : Group} {groups : List Group}
    (htiering : e.tiering = .group task (g :: groups)) :
    ∃ r ∈ recordsOf g.topicPartition committed, g.records = [r] := by
  have htier := (h.agrees g.topicPartition).tier
  rw [htiering] at htier
  exact (htier g mem_cons_self rfl).eq_singleton (h.single _)

theorem keepsObjects (label : TierLabel) : KeepsObjects c.store e (.tier label) := by
  cases label with
  | advance =>
    constructor
    · show TierFits e.store e.tiering
      have hunit := h.segment
      cases htiering : e.tiering with
      | uploaded | registered =>
        rw [htiering] at hunit
        exact h.segmentFits hunit
      | idle | cycle | group | panicked => exact trivial
    · show e.tiering.Whole c.store
      cases htiering : e.tiering with
      | group task groups =>
        cases groups with
        | nil => exact trivial
        | cons g groups =>
          obtain ⟨r, hr, hrecords⟩ := h.group_singleton htiering
          show StoredWhole c.store g.records
          rw [hrecords]
          exact h.whole _ r hr
      | uploaded | registered | idle | cycle | panicked => exact trivial
  | sealActive | sealFailed | start | segment | fence | abort => exact ⟨trivial, trivial⟩

theorem tier_units {store : PartitionStore} {tiering : Tiering}
    (hstep : TierStep c.store e.store e.tiering label store tiering) :
    (∀ tp, ∀ I ∈ liveExtents store.manifest tp, I = (0, 1)) ∧ UnitSegment tiering ∧
      ∀ tp, store.index.nextOffset tp = (recordsOf tp committed).length := by
  obtain ⟨s, pending, tiering₀, compaction⟩ := e
  cases hstep with
  | upload hupload =>
    obtain ⟨r, hr, hrecords⟩ := h.group_singleton rfl
    obtain ⟨data, objects, -, rfl, rfl, -⟩ := uploadRecords_cases hupload
    refine ⟨h.live, ?_, h.next⟩
    show (groupStart _, groupEnd _) = (0, 1)
    rw [hrecords]
    show (r.offset, r.offset + 1) = (0, 1)
    rw [h.zero _ r hr]
  | @register task groups seg =>
    have hunit : seg.extent = (0, 1) := h.segment
    refine ⟨fun tp I hI => ?_, hunit, h.next⟩
    rw [liveExtents_register (h.ranges.live_tiling _) (h.segmentFits hunit).1] at hI
    split at hI
    · rcases hI with rfl | hI
      · exact hunit
      · exact h.live tp I hI
    · exact h.live tp I hI
  | @flip task groups seg index hflip =>
    refine ⟨h.live, trivial, fun tp => ?_⟩
    rw [PartitionIndex.nextOffset_flipToCold _ _ _ hflip]
    split
    · rename_i htp
      -- the range is the one of a record that is there
      obtain ⟨r, hr, -⟩ := ((h.agrees seg.topicPartition).tier.2 rfl).ends
      have hpos : 0 < (recordsOf seg.topicPartition committed).length := length_pos_of_mem hr
      have hunit : seg.extent = (0, 1) := h.segment
      have hend : seg.endOffset = 1 := congrArg Prod.snd hunit
      have hnext : s.index.nextOffset seg.topicPartition = _ := h.next seg.topicPartition
      rw [hnext, hend, htp]
      omega
    · exact h.next tp
  | sealActive | sealFailed | start | reclaim | segment | cycleDone | fenceBefore | fenceAfter
  | flipPanic | retain | delete | abortCycle | abortGroup | abortUploaded =>
    exact ⟨h.live, trivial, h.next⟩

theorem tier (hstep : e.step c.store (.tier label) = some e') : Faithful c e' committed := by
  have hsafe : Transparent c.store e (.tier label) := h.keepsObjects label
  have hboth := fun tp => Engine.Agrees.step ⟨h.ranges, h.agrees tp⟩ hsafe hstep
  cases Engine.step_cases hstep with
  | tier htier =>
    obtain ⟨hlive, hunit, hnext⟩ := h.tier_units htier
    exact ⟨(hboth ⟨"", 0⟩).1, fun tp => (hboth tp).2, h.single, h.zero, h.whole, hlive, hunit,
      h.idle, hnext⟩

/-! ### Commits -/

theorem append {r : WalRecord} (hzero : r.offset = 0) (hlone : LoneRecord c committed r)
    (hreadable : Readable r) : Faithful c (e.appended c.store r) (committed ++ [r]) := by
  obtain ⟨hnone, hwhole, -⟩ := hlone
  -- the records of a partition after the append
  have hown : recordsOf r.topicPartition (committed ++ [r]) = [r] := by
    rw [recordsOf_append, hnone, recordsOf_singleton_self]
    rfl
  have hother : ∀ tp, tp ≠ r.topicPartition →
      recordsOf tp (committed ++ [r]) = recordsOf tp committed := by
    intro tp htp
    rw [recordsOf_append, recordsOf_singleton_of_ne htp, append_nil]
  refine ⟨h.ranges.appended r, fun tp => ?_, fun tp => ?_, fun tp => ?_, fun tp => ?_, h.live,
    h.segment, h.idle, fun tp => ?_⟩
  · by_cases htp : tp = r.topicPartition
    · subst htp
      have hbook := h.agrees r.topicPartition
      rw [hnone] at hbook
      have hoffsets : {k | ∃ a ∈ [r], a.offset = k} = {r.offset} := by
        ext k
        simp [eq_comm]
      rw [hown, hoffsets]
      exact hbook.append_first h.idle hreadable
    · rw [hother tp htp]
      exact (h.agrees tp).append_other htp
  · by_cases htp : tp = r.topicPartition
    · rw [htp, hown]
      exact le_rfl
    · rw [hother tp htp]
      exact h.single tp
  · by_cases htp : tp = r.topicPartition
    · rw [htp, hown]
      intro a ha
      rw [mem_singleton.mp ha]
      exact hzero
    · rw [hother tp htp]
      exact h.zero tp
  · by_cases htp : tp = r.topicPartition
    · rw [htp, hown]
      intro a ha
      rw [mem_singleton.mp ha]
      exact hwhole
    · rw [hother tp htp]
      exact h.whole tp
  · have hnext : (e.appended c.store r).store.index.nextOffset tp =
        if tp = r.topicPartition then max (e.store.index.nextOffset r.topicPartition) (r.offset + 1)
        else e.store.index.nextOffset tp :=
      PartitionIndex.nextOffset_insertHot _ _ _ _ _ _
    rw [hnext]
    split
    · rename_i htp
      rw [htp, hown, h.next, hnone, hzero]
      rfl
    · rename_i htp
      rw [hother tp htp]
      exact h.next tp

end Faithful

theorem commitEntries_store {entries : List (Sigma fun _ : TopicPartition => Nat)} :
    ∀ {e e' : Engine} {offsets offsets' : Offsets} {taken : Bool},
      c.coordinator.commitEntries groupId timestamps e offsets entries =
        some (taken, e', offsets') →
      taken = true ∧ e' = (entries.map fun entry => c.coordinator.offsetRecord groupId timestamps
        entry.1 entry.2).foldl (fun e r => e.appended c.store r) e := by
  induction entries with
  | nil =>
    intro e e' offsets offsets' taken h
    cases h
    exact ⟨rfl, rfl⟩
  | cons entry entries ih =>
    intro e e' offsets offsets' taken h
    rw [CoordinatorConfig.commitEntries] at h
    split at h
    · cases h
    · rename_i happend
      obtain ⟨-, heq⟩ := ite_none_right_eq_some.mp happend
      cases heq
    · rename_i happend
      obtain ⟨-, heq⟩ := ite_none_right_eq_some.mp happend
      cases heq
      exact ih h

theorem Faithful.commit {e : Engine} {request : CommitOffsetRequest} (h : Faithful c e committed)
    (hlen : request.offsets.entries.length ≤ 1)
    (hlone : ∀ r ∈ c.recordsFor request timestamps, LoneRecord c committed r) :
    Faithful c ((c.recordsFor request timestamps).foldl (fun e r => e.appended c.store r) e)
      (committed ++ c.recordsFor request timestamps) := by
  rw [OffsetsConfig.recordsFor] at hlone ⊢
  match request.offsets.entries, hlen, hlone with
  | [], _, _ =>
    rw [map_nil, append_nil]
    exact h
  | [entry], _, hlone =>
    have hentry := hlone _ mem_cons_self
    exact h.append rfl hentry (readable_offsetRecord c hentry)

theorem Faithful.step {s s' : OffsetsTopic} {label : OffsetsLabel}
    (h : Faithful c s.engine s.committed) (hfirst : FirstOfPartition c s label)
    (hstep : s.step c label = some s') : Faithful c s'.engine s'.committed := by
  cases label with
  | join request uuid now allTopics memberIds =>
    obtain ⟨r, -, rfl⟩ := map_eq_some_iff.mp hstep
    exact h
  | heartbeat | leave | reap =>
    cases hstep
    exact h
  | tier label =>
    obtain ⟨e, htier, rfl⟩ := map_eq_some_iff.mp hstep
    exact h.tier htier
  | commit request timestamps =>
    obtain ⟨⟨code, e, m⟩, hcommit, rfl⟩ := map_eq_some_iff.mp hstep
    cases handleCommitOffset_cases hcommit with
    | refused hcode =>
      rw [if_neg hcode]
      exact h
    | failed _ _ hentries => cases (commitEntries_store hentries).1
    | @acknowledged st _ offsets hget hgeneration hentries =>
      have hcurrent : Current s.manager request := by
        rw [Current, hget]
        exact decide_eq_true hgeneration
      obtain ⟨hlen, hlone⟩ := hfirst hcurrent
      obtain ⟨-, rfl⟩ := commitEntries_store hentries
      rw [if_pos rfl]
      exact h.commit hlen hlone

/-- **The offsets topic is a commit log** in runs whose commits write at most one record into each
partition. -/
theorem offsets_topic_faithful {c : OffsetsConfig} {labels : List OffsetsLabel} {s : OffsetsTopic}
    (hfirst : Along (OffsetsTopic.step c) (FirstOfPartition c) .start labels)
    (hexec : exec (OffsetsTopic.step c) .start labels = some s) (partition : Nat)
    (sizes : List Nat)
    (hsizes : (recordsOf (offsetsPartition partition) s.committed).length < sizes.length) :
    scan c.store (offsetsPartition partition) s.engine.store 0 sizes =
        some (.ok (recordsOf (offsetsPartition partition) s.committed)) ∧
      s.engine.store.index.nextOffset (offsetsPartition partition) =
        (recordsOf (offsetsPartition partition) s.committed).length := by
  have hfaithful : Faithful c s.engine s.committed :=
    exec_invariant (I := fun s : OffsetsTopic => Faithful c s.engine s.committed)
      (fun _ _ _ h hP hs => h.step hP hs) (Faithful.start c) hfirst hexec
  refine ⟨?_, hfaithful.next _⟩
  have hscan := (hfaithful.agrees (offsetsPartition partition)).book.scan 0 sizes
    (lt_of_le_of_lt (length_filter_le _ _) hsizes)
  rw [hscan, readable_eq_self fun r hr => ⟨Nat.zero_le _, fun j _ hj => ?_⟩]
  have hzero := hfaithful.zero _ r hr
  exact ⟨r, hr, by omega⟩

/-! ### Two commits -/

def plainOffsets : OffsetsConfig :=
  ⟨plainConfig, fun _ => 0, 1, Nat.one_pos, Nat.one_lt_two_pow (Nat.succ_ne_zero 31)⟩

def joinGroup : OffsetsLabel := .join ⟨"g", "m", 30000, ["t"]⟩ "" 0 ["t"] ["m"]

def commitOffset (offset : Nat) : OffsetsLabel :=
  .commit ⟨"g", "m", 1, AList.singleton ⟨"t", 0⟩ offset⟩ fun _ => 0

def offsetRecordG (offset : Nat) : WalRecord :=
  plainOffsets.coordinator.offsetRecord "g" (fun _ => 0) ⟨"t", 0⟩ offset

def tierAll : List OffsetsLabel :=
  [.tier .sealActive, .tier .start, .tier (.segment [offsetsPartition 0]), .tier .advance,
    .tier .advance, .tier .advance, .tier .advance, .tier .advance]

theorem offsets_topic_faithful_tierAll :
    ∃ s, exec (OffsetsTopic.step plainOffsets) .start (joinGroup :: commitOffset 5 :: tierAll) =
        some s ∧
      recordsOf (offsetsPartition 0) s.committed = [offsetRecordG 5] ∧
      scan plainConfig (offsetsPartition 0) s.engine.store 0 [1024, 1024] =
        some (.ok (recordsOf (offsetsPartition 0) s.committed)) := by
  have hcommitted : (exec (OffsetsTopic.step plainOffsets) .start
      (joinGroup :: commitOffset 5 :: tierAll)).map (fun s =>
        recordsOf (offsetsPartition 0) s.committed) = some [offsetRecordG 5] := by decide +kernel
  obtain ⟨s, hs, hrecords⟩ := map_eq_some_iff.mp hcommitted
  have hsizes : (recordsOf (offsetsPartition 0) s.committed).length < [1024, 1024].length := by
    rw [hrecords]
    decide
  exact ⟨s, hs, hrecords, (offsets_topic_faithful (by decide +kernel) hs 0 _ hsizes).1⟩

/-- Two commits of one group: the partition has the second record only. -/
theorem second_commit_replaces : (exec (OffsetsTopic.step plainOffsets) .start
      [joinGroup, commitOffset 5, commitOffset 6]).map (fun s =>
        (s.committed, s.engine.store.index.nextOffset (offsetsPartition 0),
          scan plainConfig (offsetsPartition 0) s.engine.store 0 [1024, 1024, 1024])) =
      some ([offsetRecordG 5, offsetRecordG 6], 1, some (.ok [offsetRecordG 6])) := by
  decide +kernel

end RustMq.Group
