import RustMq.Store.Extents
import RustMq.Store.Reservation

/-!
# Two nodes tier one partition

A deposed leader and its successor run `tier_segment` (`src/storage/partition_store.rs`) for the
same partition over one object storage. Each asks the reservation before the upload and once more
after it, then registers the segment in its own manifest and flips its own index. The successor
takes the reservation over at a higher epoch at some point of the run.
-/

namespace RustMq.Store

open Lib Function

inductive Side where
  | deposed
  | successor
  deriving DecidableEq

structure DuoConfig where
  store : StoreConfig
  topicPartition : TopicPartition
  nodeId : Side → String
  distinct : nodeId .deposed ≠ nodeId .successor

inductive GroupPhase where
  | idle
  | upload (records : List WalRecord)
  | verify (segment : ColdSegment)
  | register (segment : ColdSegment)
  | flip (segment : ColdSegment)

structure TierNode where
  /-- `epoch_source.current_epoch` -/
  epoch : Option Nat
  store : PartitionStore
  phase : GroupPhase
  /-- The records the node has last uploaded under a key. The code does not keep them. -/
  tiered : String → Option (List WalRecord)

structure Duo where
  objects : Objects
  reservation : Option Reservation
  node : Side → TierNode

inductive DuoLabel where
  | append (side : Side) (record : WalRecord)
  /-- A group of a sealed segment, and the first `may_tier`. -/
  | group (side : Side) (records : List WalRecord)
  | upload (side : Side)
  | verify (side : Side)
  | register (side : Side)
  | flip (side : Side)
  | abort (side : Side)
  /-- The node learns that it does not lead the partition. -/
  | stepDown (side : Side)
  | takeover (epoch : Nat)

namespace Duo

def view (s : Duo) (side : Side) : PartitionStore := { (s.node side).store with objects := s.objects }

def setNode (s : Duo) (side : Side) (node : TierNode) : Duo :=
  { s with node := Function.update s.node side node }

def setPhase (s : Duo) (side : Side) (phase : GroupPhase) : Duo :=
  s.setNode side { s.node side with phase := phase }

/-- `may_tier`: `verify` with the node's own epoch. -/
def mayTier (cfg : DuoConfig) (s : Duo) (side : Side) : Bool :=
  match (s.node side).epoch, s.reservation with
  | some epoch, some r => r.nodeId = cfg.nodeId side ∧ r.epoch = epoch
  | _, _ => false

def step (cfg : DuoConfig) (s : Duo) : DuoLabel → Option Duo
  | .append side record => some (s.setNode side { s.node side with
      store := (s.node side).store.append cfg.store record .ok })
  | .group side records =>
    match (s.node side).phase with
    | .idle => some (s.setPhase side (if s.mayTier cfg side then .upload records else .idle))
    | _ => none
  | .upload side =>
    match (s.node side).phase with
    | .upload records =>
      (uploadRecords cfg.store (s.view side) cfg.topicPartition
        (PartitionStore.groupStart records) (PartitionStore.groupEnd records) records).map
          fun stored =>
            { s with
              objects := stored.1.objects
              node := Function.update s.node side { s.node side with
                phase := .verify stored.2
                tiered := Function.update (s.node side).tiered stored.2.objectKey (some records) } }
    | _ => none
  | .verify side =>
    match (s.node side).phase with
    | .verify segment =>
      some (s.setPhase side (if s.mayTier cfg side then .register segment else .idle))
    | _ => none
  | .register side =>
    match (s.node side).phase with
    | .register segment => some (s.setNode side { s.node side with
        store := { (s.node side).store with
          manifest := (s.node side).store.manifest ++ [.register segment] }
        phase := .flip segment })
    | _ => none
  | .flip side =>
    match (s.node side).phase with
    | .flip segment =>
      ((s.node side).store.index.flipToCold segment.topicPartition segment.startOffset
        segment.endOffset segment.objectKey segment.sizeBytes).map fun index =>
          s.setNode side { s.node side with
            store := { (s.node side).store with index := index }
            phase := .idle }
    | _ => none
  | .abort side => some (s.setPhase side .idle)
  | .stepDown side => some (s.setNode side { s.node side with epoch := none })
  | .takeover epoch =>
    if ∀ r ∈ s.reservation, r.epoch < epoch then
      let failover := match s.reservation with
        | some r => (r.failover + 1) % 2 ^ 64
        | none => 0
      some { s with
        reservation := some ⟨reservationMagic, cfg.nodeId .successor, epoch, failover⟩
        node := Function.update s.node .successor
          { s.node .successor with epoch := some epoch } }
    else none

end Duo

/-! ## The condition -/

/-- An upload is written while its node holds the reservation, and the successor's are written in
one piece: a multipart upload writes no object under its key. -/
def UploadFenced (cfg : DuoConfig) (s : Duo) : DuoLabel → Prop
  | .upload side => s.mayTier cfg side = true ∧
      ∀ records data, (s.node side).phase = .upload records → serializeRecords records = .ok data →
        side = .successor → isMultipart cfg.store.storage data = false
  | _ => True

structure Standby (cfg : DuoConfig) (s : Duo) : Prop where
  reservation : ∀ r ∈ s.reservation, r.nodeId ≠ cfg.nodeId .successor
  phase : (s.node .successor).phase = .idle
  tiered : ∀ key, (s.node .successor).tiered key = none
  cold : (s.node .successor).store.index.cold cfg.topicPartition = .empty

/-! ## The invariant -/

/-- The object under a segment's key has the records that the successor has last uploaded there. -/
def Intact (cfg : DuoConfig) (objects : Objects) (tiered : String → Option (List WalRecord))
    (startOffset endOffset : Nat) : Prop :=
  ∃ records data, tiered (objectKey cfg.topicPartition startOffset endOffset) = some records ∧
    PartitionStore.groupStart records = startOffset ∧
    PartitionStore.groupEnd records = endOffset ∧ serializeRecords records = .ok data ∧
    objects (objectKey cfg.topicPartition startOffset endOffset) =
      some (dataWithCrc cfg.store.storage data)

def SegmentIntact (cfg : DuoConfig) (objects : Objects)
    (tiered : String → Option (List WalRecord)) (segment : ColdSegment) : Prop :=
  segment.topicPartition = cfg.topicPartition ∧
    segment.objectKey = objectKey cfg.topicPartition segment.startOffset segment.endOffset ∧
    Intact cfg objects tiered segment.startOffset segment.endOffset

def PhaseIntact (cfg : DuoConfig) (objects : Objects) (tiered : String → Option (List WalRecord)) :
    GroupPhase → Prop
  | .idle | .upload _ => True
  | .verify segment | .register segment | .flip segment => SegmentIntact cfg objects tiered segment

structure DuoInv (cfg : DuoConfig) (s : Duo) : Prop where
  /-- Until the successor holds the reservation it is on standby. -/
  standby : (∀ r ∈ s.reservation, r.nodeId ≠ cfg.nodeId .successor) →
    (s.node .successor).phase = .idle ∧ (∀ key, (s.node .successor).tiered key = none) ∧
      (s.node .successor).store.index.cold cfg.topicPartition = .empty
  phase : PhaseIntact cfg s.objects (s.node .successor).tiered (s.node .successor).phase
  cold : ∀ k range,
    ((s.node .successor).store.index.cold cfg.topicPartition).get? k = some range →
      range.objectKey = objectKey cfg.topicPartition k range.endOffset ∧
        Intact cfg s.objects (s.node .successor).tiered k range.endOffset

namespace DuoInv

variable {cfg : DuoConfig} {s s' : Duo} {side : Side} {phase : GroupPhase}

theorem of_standby (h : Standby cfg s) : DuoInv cfg s where
  standby _ := ⟨h.phase, h.tiered, h.cold⟩
  phase := by rw [h.phase]; trivial
  cold k range hget := by rw [h.cold] at hget; cases hget

theorem congr (h : DuoInv cfg s) (hobjects : s'.objects = s.objects)
    (hreservation : s'.reservation = s.reservation)
    (hnode : s'.node .successor = s.node .successor) : DuoInv cfg s' := by
  refine ⟨?_, ?_, ?_⟩
  · rw [hreservation, hnode]
    exact h.standby
  · rw [hobjects, hnode]
    exact h.phase
  · rw [hobjects, hnode]
    exact h.cold

theorem node_setNode_deposed (s : Duo) (node : TierNode) :
    (s.setNode .deposed node).node .successor = s.node .successor := by
  show update s.node .deposed node .successor = _
  rw [update_of_ne]
  decide

theorem node_setNode_successor (s : Duo) (node : TierNode) :
    (s.setNode .successor node).node .successor = node := by
  show update s.node .successor node .successor = _
  rw [update_self]

theorem setSuccessor (h : DuoInv cfg s) {node : TierNode}
    (htiered : node.tiered = (s.node .successor).tiered)
    (hphase : PhaseIntact cfg s.objects (s.node .successor).tiered node.phase)
    (hcold : ∀ k range, (node.store.index.cold cfg.topicPartition).get? k = some range →
      range.objectKey = objectKey cfg.topicPartition k range.endOffset ∧
        Intact cfg s.objects (s.node .successor).tiered k range.endOffset)
    (hstandby : (∀ r ∈ s.reservation, r.nodeId ≠ cfg.nodeId .successor) →
      node.phase = .idle ∧ node.store.index.cold cfg.topicPartition = .empty) :
    DuoInv cfg (s.setNode .successor node) := by
  refine ⟨fun hr => ?_, ?_, ?_⟩
  · rw [node_setNode_successor, htiered]
    exact ⟨(hstandby hr).1, (h.standby hr).2.1, (hstandby hr).2⟩
  · rw [node_setNode_successor, htiered]
    exact hphase
  · rw [node_setNode_successor, htiered]
    exact hcold

theorem setPhase (h : DuoInv cfg s)
    (hphase : side = .successor → PhaseIntact cfg s.objects (s.node .successor).tiered phase)
    (hidle : side = .successor → (∀ r ∈ s.reservation, r.nodeId ≠ cfg.nodeId .successor) →
      phase = .idle) : DuoInv cfg (s.setPhase side phase) := by
  cases side with
  | deposed => exact h.congr rfl rfl (node_setNode_deposed ..)
  | successor =>
    exact h.setSuccessor rfl (hphase rfl) h.cold fun hr => ⟨hidle rfl hr, (h.standby hr).2.2⟩

theorem reservation_of_mayTier (h : s.mayTier cfg side = true) :
    ∃ r, s.reservation = some r ∧ r.nodeId = cfg.nodeId side := by
  unfold Duo.mayTier at h
  split at h
  · rename_i epoch r _ hr
    exact ⟨r, hr, (of_decide_eq_true h).1⟩
  · cases h

theorem idle_of_mayTier (hr : ∀ r ∈ s.reservation, r.nodeId ≠ cfg.nodeId .successor) :
    (if s.mayTier cfg .successor then phase else .idle) = .idle := by
  split
  · rename_i hmay
    obtain ⟨r, hsome, hnode⟩ := reservation_of_mayTier hmay
    exact absurd hnode (hr r hsome)
  · rfl

theorem upload (h : DuoInv cfg s) {records : List WalRecord} {stored : PartitionStore × ColdSegment}
    (hphase : (s.node side).phase = .upload records) (hfenced : UploadFenced cfg s (.upload side))
    (hupload : uploadRecords cfg.store (s.view side) cfg.topicPartition
      (PartitionStore.groupStart records) (PartitionStore.groupEnd records) records = some stored) :
    DuoInv cfg { s with
      objects := stored.1.objects
      node := Function.update s.node side { s.node side with
        phase := .verify stored.2
        tiered := Function.update (s.node side).tiered stored.2.objectKey (some records) } } := by
  obtain ⟨data, objects, hdata, hs', hseg, hobjects⟩ := uploadRecords_cases hupload
  obtain ⟨r, hr, hnode⟩ := reservation_of_mayTier hfenced.1
  rw [hs', hseg]
  cases side with
  | deposed =>
    -- the deposed leader holds the reservation, so the successor has nothing yet
    have hothers : ∀ r' ∈ s.reservation, r'.nodeId ≠ cfg.nodeId .successor := by
      intro r' hr'
      rw [hr] at hr'
      cases hr'
      rw [hnode]
      exact cfg.distinct
    obtain ⟨hidle, hnone, hcold⟩ := h.standby hothers
    refine of_standby ⟨hothers, ?_, ?_, ?_⟩
    · exact hidle
    · exact hnone
    · exact hcold
  | successor =>
    have hwhole := hfenced.2 records data hphase hdata rfl
    have hkeep : ∀ a b, Intact cfg s.objects (s.node .successor).tiered a b →
        Intact cfg objects (update (s.node .successor).tiered
          (objectKey cfg.topicPartition (PartitionStore.groupStart records)
            (PartitionStore.groupEnd records)) (some records)) a b := by
      rintro a b ⟨records', data', htiered, hstart, hend, hdata', hobj⟩
      by_cases hsame : a = PartitionStore.groupStart records ∧ b = PartitionStore.groupEnd records
      · obtain ⟨rfl, rfl⟩ := hsame
        refine ⟨records, data, update_self .., rfl, rfl, hdata, ?_⟩
        rw [hobjects, if_pos ⟨hwhole, rfl, rfl, rfl⟩]
      · refine ⟨records', data', ?_, hstart, hend, hdata', ?_⟩
        · rw [update_of_ne]
          · exact htiered
          · exact fun heq => hsame (objectKey_inj heq).2
        · rw [hobjects, if_neg fun hat => hsame hat.2.2]
          exact hobj
    refine ⟨fun hothers => absurd hnode (hothers r hr), ?_, ?_⟩
    · show PhaseIntact cfg objects (update s.node .successor _ .successor).tiered
        (update s.node .successor _ .successor).phase
      rw [update_self]
      refine ⟨rfl, rfl, records, data, update_self .., rfl, rfl, hdata, ?_⟩
      rw [hobjects, if_pos ⟨hwhole, rfl, rfl, rfl⟩]
    · intro k range hget
      have hget' : ((update s.node .successor _ .successor).store.index.cold
        cfg.topicPartition).get? k = some range := hget
      rw [update_self] at hget'
      obtain ⟨hkey, hintact⟩ := h.cold k range hget'
      refine ⟨hkey, ?_⟩
      show Intact cfg objects (update s.node .successor _ .successor).tiered _ _
      rw [update_self]
      exact hkeep _ _ hintact

theorem flip (h : DuoInv cfg s) {segment : ColdSegment} {index : PartitionIndex}
    (hphase : (s.node .successor).phase = .flip segment)
    (hflip : (s.node .successor).store.index.flipToCold segment.topicPartition
      segment.startOffset segment.endOffset segment.objectKey segment.sizeBytes = some index) :
    DuoInv cfg (s.setNode .successor { s.node .successor with
      store := { (s.node .successor).store with index := index }
      phase := .idle }) := by
  have hseg := h.phase
  rw [hphase] at hseg
  obtain ⟨htp, hkey, hintact⟩ := hseg
  refine h.setSuccessor rfl trivial (fun k range hget => ?_) fun hr => ?_
  · have hcold := cold_flipToCold hflip cfg.topicPartition
    rw [if_pos htp.symm] at hcold
    rw [hcold] at hget
    rcases SMap.of_get?_insert hget with ⟨hk, rfl⟩ | ⟨-, hget⟩
    · rw [hk]
      exact ⟨hkey, hintact⟩
    · exact h.cold k range hget
  · have hidle := (h.standby hr).1
    rw [hphase] at hidle
    cases hidle

theorem step (h : DuoInv cfg s) {label : DuoLabel} (hfenced : UploadFenced cfg s label)
    (hstep : s.step cfg label = some s') : DuoInv cfg s' := by
  cases label with
  | append side record =>
    cases hstep
    cases side with
    | deposed => exact h.congr rfl rfl (node_setNode_deposed ..)
    | successor =>
      have hcold : ((s.node .successor).store.append cfg.store record .ok).index.cold
          cfg.topicPartition = (s.node .successor).store.index.cold cfg.topicPartition :=
        PartitionIndex.cold_insertHot ..
      refine h.setSuccessor rfl h.phase (fun k range hget => ?_) fun hr => ?_
      · rw [hcold] at hget
        exact h.cold k range hget
      · rw [hcold]
        exact ⟨(h.standby hr).1, (h.standby hr).2.2⟩
  | group side records =>
    simp only [Duo.step] at hstep
    split at hstep
    · cases hstep
      refine h.setPhase (fun _ => ?_) (fun hside hr => ?_)
      · split
        · trivial
        · trivial
      · subst hside
        exact idle_of_mayTier hr
    · cases hstep
  | upload side =>
    simp only [Duo.step] at hstep
    split at hstep
    · rename_i records hphase
      obtain ⟨stored, hupload, rfl⟩ := Option.map_eq_some_iff.mp hstep
      exact h.upload hphase hfenced hupload
    · cases hstep
  | verify side =>
    simp only [Duo.step] at hstep
    split at hstep
    · rename_i segment hphase
      cases hstep
      refine h.setPhase (fun hside => ?_) (fun hside hr => ?_)
      · subst hside
        have hseg := h.phase
        rw [hphase] at hseg
        split
        · exact hseg
        · trivial
      · subst hside
        exact idle_of_mayTier hr
    · cases hstep
  | register side =>
    simp only [Duo.step] at hstep
    split at hstep
    · rename_i segment hphase
      cases hstep
      cases side with
      | deposed => exact h.congr rfl rfl (node_setNode_deposed ..)
      | successor =>
        have hseg := h.phase
        rw [hphase] at hseg
        refine h.setSuccessor rfl hseg h.cold fun hr => ?_
        have hidle := (h.standby hr).1
        rw [hphase] at hidle
        cases hidle
    · cases hstep
  | flip side =>
    simp only [Duo.step] at hstep
    split at hstep
    · rename_i segment hphase
      obtain ⟨index, hflip, rfl⟩ := Option.map_eq_some_iff.mp hstep
      cases side with
      | deposed => exact h.congr rfl rfl (node_setNode_deposed ..)
      | successor => exact h.flip hphase hflip
    · cases hstep
  | abort side =>
    cases hstep
    exact h.setPhase (fun _ => trivial) fun _ _ => rfl
  | stepDown side =>
    cases hstep
    cases side with
    | deposed => exact h.congr rfl rfl (node_setNode_deposed ..)
    | successor =>
      exact h.setSuccessor rfl h.phase h.cold fun hr => ⟨(h.standby hr).1, (h.standby hr).2.2⟩
  | takeover epoch =>
    simp only [Duo.step] at hstep
    split at hstep
    · cases hstep
      refine ⟨fun hothers => absurd rfl (hothers _ rfl), ?_, ?_⟩
      · show PhaseIntact cfg s.objects (update s.node .successor _ .successor).tiered
          (update s.node .successor _ .successor).phase
        rw [update_self]
        exact h.phase
      · show ∀ k range, ((update s.node .successor _ .successor).store.index.cold
          cfg.topicPartition).get? k = some range → _ ∧ Intact cfg s.objects
            (update s.node .successor _ .successor).tiered k range.endOffset
        rw [update_self]
        exact h.cold
    · cases hstep

end DuoInv

/-! ## The result -/

/-- **The successor's objects are its own.** Every object its index names has the records it has
last uploaded for that range. -/
theorem successor_keeps_objects (cfg : DuoConfig) {s s' : Duo} (hstandby : Standby cfg s)
    {labels : List DuoLabel} (hfenced : Along (Duo.step cfg) (UploadFenced cfg) s labels)
    (hexec : exec (Duo.step cfg) s labels = some s') :
    ∀ k range, ((s'.node .successor).store.index.cold cfg.topicPartition).get? k = some range →
      ∃ records data, (s'.node .successor).tiered range.objectKey = some records ∧
        PartitionStore.groupStart records = k ∧
        PartitionStore.groupEnd records = range.endOffset ∧ serializeRecords records = .ok data ∧
        s'.objects range.objectKey = some (dataWithCrc cfg.store.storage data) := by
  have hinv := exec_invariant (I := DuoInv cfg) (fun _ _ _ h hP hs => h.step hP hs)
    (.of_standby hstandby) hfenced hexec
  intro k range hget
  obtain ⟨hkey, hintact⟩ := hinv.cold k range hget
  rw [hkey]
  exact hintact

def brokers : DuoConfig where
  store := plainConfig
  topicPartition := ⟨"orders", 0⟩
  nodeId
    | .deposed => "broker-1"
    | .successor => "broker-2"
  distinct := by decide

def leading : Duo where
  objects _ := none
  reservation := some ⟨reservationMagic, "broker-1", 1, 0⟩
  node
    | .deposed => ⟨some 1, .empty, .idle, fun _ => none⟩
    | .successor => ⟨none, .empty, .idle, fun _ => none⟩

theorem leading_standby : Standby brokers leading where
  reservation r hr := by
    cases hr
    decide
  phase := rfl
  tiered _ := rfl
  cold := rfl

def firstOf (b : UInt8) : WalRecord := ⟨⟨"orders", 0⟩, 0, ⟨none, [b], [], 0⟩, 0⟩

def successorTiers : List DuoLabel :=
  [.takeover 2, .append .successor (firstOf 2), .group .successor [firstOf 2], .upload .successor,
    .verify .successor, .register .successor, .flip .successor]

theorem successorTiers_fenced :
    Along (Duo.step brokers) (UploadFenced brokers) leading successorTiers := by
  refine along_cons trivial rfl <| along_cons trivial rfl <| along_cons trivial rfl <|
    along_cons ⟨rfl, ?_⟩ rfl <| along_cons trivial rfl <| along_cons trivial rfl <|
    along_cons trivial rfl trivial
  rintro records data ⟨⟩ hdata -
  cases hdata
  rfl

theorem successor_keeps_objects_successorTiers :
    ∃ s' range, exec (Duo.step brokers) leading successorTiers = some s' ∧
      ((s'.node .successor).store.index.cold ⟨"orders", 0⟩).get? 0 = some range ∧
      ∃ records data, (s'.node .successor).tiered range.objectKey = some records ∧
        PartitionStore.groupStart records = 0 ∧
        PartitionStore.groupEnd records = range.endOffset ∧ serializeRecords records = .ok data ∧
        s'.objects range.objectKey = some (dataWithCrc plainConfig.storage data) :=
  ⟨_, _, rfl, rfl, successor_keeps_objects brokers leading_standby successorTiers_fenced rfl 0 _ rfl⟩

/-- The deposed leader is past its first check when the successor takes over; its upload is
written after the successor has tiered the range. -/
def lateUpload : List DuoLabel :=
  [.append .deposed (firstOf 1), .group .deposed [firstOf 1]] ++ successorTiers ++
    [.upload .deposed]

theorem deposed_overwrites :
    ∃ s' range own data, exec (Duo.step brokers) leading lateUpload = some s' ∧
      ((s'.node .successor).store.index.cold ⟨"orders", 0⟩).get? 0 = some range ∧
      (s'.node .successor).tiered range.objectKey = some [firstOf 2] ∧
      serializeRecords [firstOf 2] = .ok own ∧ serializeRecords [firstOf 1] = .ok data ∧
      own ≠ data ∧ s'.objects range.objectKey = some (dataWithCrc plainConfig.storage data) :=
  ⟨_, _, _, _, rfl, rfl, rfl, rfl, rfl, by decide, rfl⟩

end RustMq.Store
