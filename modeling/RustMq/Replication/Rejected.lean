import RustMq.Replication.Follower

/-!
# What a rejected request leaves behind

A request that the follower answers with a failure should leave it as it was. `SameRecords` says
what that means for the store: the same record at every offset of the hot tier, the same cold
ranges, the same records in the log. The theorem is an equivalence: it says for which requests
and which failures of the store the frame property holds, and for which it does not.
-/

namespace RustMq.Replication

open Lib Store List PartitionIndex

/-! ## The store after a batch -/

def stored (s : PartitionStore) (tp : TopicPartition) (offset : Nat) : Option WalRecord :=
  ((s.index.hot tp).get? offset).map HotEntry.record

def At (r : WalRecord) (tp : TopicPartition) (offset : Nat) : Prop :=
  r.topicPartition = tp ∧ r.offset = offset

instance (r : WalRecord) (tp : TopicPartition) (offset : Nat) : Decidable (At r tp offset) :=
  inferInstanceAs (Decidable (_ ∧ _))

structure SameRecords (s s' : PartitionStore) : Prop where
  hot : ∀ tp offset, stored s' tp offset = stored s tp offset
  cold : ∀ tp, s'.index.cold tp = s.index.cold tp
  log : ∀ r, r ∈ PartitionStore.walRecords s'.wal ↔ r ∈ PartitionStore.walRecords s.wal

theorem SameRecords.refl (s : PartitionStore) : SameRecords s s :=
  ⟨fun _ _ => rfl, fun _ => rfl, fun _ => Iff.rfl⟩

section append

variable (cfg : StoreConfig) (s : PartitionStore) (r : WalRecord) (tp : TopicPartition)
  (offset : Nat)

theorem stored_appendHot :
    stored (s.appendHot cfg r) tp offset = if At r tp offset then some r else stored s tp offset := by
  unfold stored
  rw [PartitionStore.appendHot, get?_hot_insertHot, apply_ite (Option.map _)]
  exact if_congr (and_congr eq_comm eq_comm) rfl rfl

theorem stored_append_ok :
    stored (s.append cfg r .ok) tp offset = if At r tp offset then some r else stored s tp offset :=
  stored_appendHot cfg s r tp offset

theorem stored_append_fail (left : Bool) : stored (s.append cfg r (.fail left)) tp offset =
      if At r tp offset then none else stored s tp offset := by
  have hhot := stored_appendHot cfg s r tp offset
  unfold PartitionStore.append
  unfold stored at hhot ⊢
  rw [PartitionStore.hot_appendWal_fail]
  by_cases htp : r.topicPartition = tp
  · rw [if_pos htp.symm, SMap.get?_erase, htp]
    by_cases ho : r.offset = offset
    · rw [if_pos ho.symm, if_pos ⟨htp, ho⟩]
      rfl
    · rw [if_neg (Ne.symm ho), hhot]
      rw [if_neg fun h : At r tp offset => ho h.2, if_neg fun h : At r tp offset => ho h.2]
  · rw [if_neg (Ne.symm htp), hhot]
    rw [if_neg fun h : At r tp offset => htp h.1, if_neg fun h : At r tp offset => htp h.1]

theorem walRecords_append_ok : PartitionStore.walRecords (s.append cfg r .ok).wal =
      PartitionStore.walRecords s.wal ++ [r] := by
  show _ ++ (s.wal.active ++ [r]) = _
  rw [PartitionStore.walRecords, append_assoc]
  rfl

theorem walRecords_append_fail (left : Bool) :
    PartitionStore.walRecords (s.append cfg r (.fail left)).wal =
      PartitionStore.walRecords s.wal ++ if left then [r] else [] := by
  cases left with
  | true => exact walRecords_append_ok cfg s r
  | false =>
    simp only [Bool.false_eq_true, if_false, append_nil]
    rfl

theorem cold_append (outcome : AppendOutcome) :
    (s.append cfg r outcome).index.cold tp = s.index.cold tp := by
  have hhot : (s.appendHot cfg r).index.cold tp = s.index.cold tp :=
    cold_insertHot _ _ _ _ _ _
  cases outcome with
  | ok => exact hhot
  | fail left => exact (cold_removeHot _ _ _ _).trans hhot

end append

def storeAll (cfg : StoreConfig) (s : PartitionStore) (records : List WalRecord) :
    PartitionStore :=
  records.foldl (fun s r => s.append cfg r .ok) s

def lastAt (records : List WalRecord) (tp : TopicPartition) (offset : Nat) : Option WalRecord :=
  records.reverse.find? fun r => At r tp offset

section batch

variable (cfg : StoreConfig) (s : PartitionStore) (records : List WalRecord)

theorem storeAll_concat (r : WalRecord) :
    storeAll cfg s (records ++ [r]) = (storeAll cfg s records).append cfg r .ok := by
  rw [storeAll, foldl_append]
  rfl

theorem stored_storeAll (tp : TopicPartition) (offset : Nat) :
    stored (storeAll cfg s records) tp offset = (lastAt records tp offset).or (stored s tp offset) := by
  induction records using reverseRecOn with
  | nil => rfl
  | append_singleton records r ih =>
    rw [storeAll_concat, stored_append_ok, ih]
    unfold lastAt
    rw [reverse_append, reverse_singleton, singleton_append, find?_cons]
    by_cases hr : At r tp offset
    · rw [if_pos hr, decide_eq_true hr]
      rfl
    · rw [if_neg hr, decide_eq_false hr]

theorem walRecords_storeAll : PartitionStore.walRecords (storeAll cfg s records).wal =
      PartitionStore.walRecords s.wal ++ records := by
  induction records using reverseRecOn with
  | nil => exact (append_nil _).symm
  | append_singleton records r ih => rw [storeAll_concat, walRecords_append_ok, ih, append_assoc]

theorem cold_storeAll (tp : TopicPartition) :
    (storeAll cfg s records).index.cold tp = s.index.cold tp := by
  induction records using reverseRecOn with
  | nil => rfl
  | append_singleton records r ih => rw [storeAll_concat, cold_append, ih]

end batch

/-! ## Where a batch fails -/

def firstFailure (outcome : Nat → AppendOutcome) :
    Nat → List WalRecord → Option (List WalRecord × WalRecord × Bool)
  | _, [] => none
  | i, r :: records =>
    match outcome i with
    | .ok => (firstFailure outcome (i + 1) records).map fun f => (r :: f.1, f.2)
    | .fail left => some ([], r, left)

theorem appendAll_eq (cfg : StoreConfig) (outcome : Nat → AppendOutcome) (i : Nat)
    (records : List WalRecord) (log : PartitionStore) :
    appendAll cfg outcome i records log =
      match firstFailure outcome i records with
      | none => (storeAll cfg log records, true)
      | some (before, r, left) => ((storeAll cfg log before).append cfg r (.fail left), false) := by
  induction records generalizing i log with
  | nil => rfl
  | cons r records ih =>
    unfold appendAll firstFailure
    cases outcome i with
    | ok =>
      rw [ih]
      cases firstFailure outcome (i + 1) records with
      | none | some => rfl
    | fail left => rfl

/-- The failed batch changes nothing: what it wrote was there already, at its place and in the
log, and at the failing record's place there was nothing. -/
structure Harmless (s : PartitionStore) (before : List WalRecord) (r : WalRecord) (left : Bool) :
    Prop where
  last : ∀ tp offset b, ¬ At r tp offset → lastAt before tp offset = some b →
    stored s tp offset = some b
  failing : stored s r.topicPartition r.offset = none
  logged : ∀ b ∈ before, b ∈ PartitionStore.walRecords s.wal
  left_logged : left = true → r ∈ PartitionStore.walRecords s.wal

theorem sameRecords_iff_harmless (cfg : StoreConfig) (s : PartitionStore)
    (before : List WalRecord) (r : WalRecord) (left : Bool) :
    SameRecords s ((storeAll cfg s before).append cfg r (.fail left)) ↔
      Harmless s before r left := by
  have hstored : ∀ tp offset, stored ((storeAll cfg s before).append cfg r (.fail left)) tp offset =
        if At r tp offset then none else (lastAt before tp offset).or (stored s tp offset) := by
    intro tp offset
    rw [stored_append_fail, stored_storeAll]
  have hlog : ∀ x, x ∈ PartitionStore.walRecords
        ((storeAll cfg s before).append cfg r (.fail left)).wal ↔
      (x ∈ PartitionStore.walRecords s.wal ∨ x ∈ before) ∨ (left = true ∧ x = r) := by
    intro x
    rw [walRecords_append_fail, walRecords_storeAll, mem_append, mem_append]
    cases left with
    | true | false => simp
  constructor
  · intro hsame
    refine ⟨?_, ?_, ?_, ?_⟩
    · intro tp offset b hne hb
      have heq := hsame.hot tp offset
      rw [hstored, if_neg hne, hb] at heq
      exact heq.symm
    · have heq := hsame.hot r.topicPartition r.offset
      rw [hstored, if_pos ⟨rfl, rfl⟩] at heq
      exact heq.symm
    · intro b hb
      exact (hsame.log b).mp ((hlog b).mpr (.inl (.inr hb)))
    · intro hleft
      exact (hsame.log r).mp ((hlog r).mpr (.inr ⟨hleft, rfl⟩))
  · intro hh
    refine ⟨?_, ?_, ?_⟩
    · intro tp offset
      rw [hstored]
      by_cases hr : At r tp offset
      · rw [if_pos hr, ← hr.1, ← hr.2, hh.failing]
      · rw [if_neg hr]
        cases hb : lastAt before tp offset with
        | none => rfl
        | some b => exact (hh.last tp offset b hr hb).symm
    · intro tp
      rw [cold_append, cold_storeAll]
    · intro x
      rw [hlog]
      constructor
      · rintro ((hx | hx) | ⟨hleft, rfl⟩)
        · exact hx
        · exact hh.logged x hx
        · exact hh.left_logged hleft
      · exact fun hx => .inl (.inl hx)

/-! ## The frame property -/

structure Unchanged (h h' : FollowerReplicationHandler) : Prop where
  leaderEpoch : h'.leaderEpoch = h.leaderEpoch
  currentLeader : h'.currentLeader = h.currentLeader
  records : SameRecords h.recordLog h'.recordLog

/-- A failed `ReplicateData` changes nothing, and a successful one stores only records of the
handler's partition. -/
def ReplicateFrame (cfg : StoreConfig) (h : FollowerReplicationHandler)
    (request : ReplicateDataRequest) (outcome : Nat → AppendOutcome) : Prop :=
  let answer := h.handleReplicateData cfg request outcome
  (answer.1.success = false → Unchanged h answer.2) ∧
    (answer.1.success = true →
      ∃ new, PartitionStore.walRecords answer.2.recordLog.wal =
          PartitionStore.walRecords h.recordLog.wal ++ new ∧
        ∀ r ∈ new, r.topicPartition = h.topicPartition)

def HeartbeatFrame (h : FollowerReplicationHandler) (request : HeartbeatRequest) : Prop :=
  let answer := h.handleHeartbeat request
  ((∃ e, answer.1 = .error e) → Unchanged h answer.2) ∧ SameRecords h.recordLog answer.2.recordLog

def ReplicateHarmless (h : FollowerReplicationHandler) (request : ReplicateDataRequest)
    (outcome : Nat → AppendOutcome) : Prop :=
  h.leaderEpoch ≤ request.leaderEpoch →
    if request.topicPartition = h.topicPartition then
      match firstFailure outcome 0 request.records with
      | none => ∀ r ∈ request.records, r.topicPartition = h.topicPartition
      | some (before, r, left) =>
        request.leaderEpoch = h.leaderEpoch ∧ Harmless h.recordLog before r left
    else request.leaderEpoch = h.leaderEpoch

def HeartbeatHarmless (h : FollowerReplicationHandler) (request : HeartbeatRequest) : Prop :=
  request.topicPartition ≠ h.topicPartition → request.leaderEpoch ≤ h.leaderEpoch

section adopt

variable (h : FollowerReplicationHandler) (epoch : Nat) (leader : BrokerId)

@[simp] theorem recordLog_adopt : (h.adopt epoch leader).recordLog = h.recordLog := by
  unfold FollowerReplicationHandler.adopt
  split <;> rfl

@[simp] theorem topicPartition_adopt :
    (h.adopt epoch leader).topicPartition = h.topicPartition := by
  unfold FollowerReplicationHandler.adopt
  split <;> rfl

variable {h epoch}

theorem adopt_unchanged_iff {h' : FollowerReplicationHandler} (hle : h.leaderEpoch ≤ epoch)
    (hepoch : h'.leaderEpoch = (h.adopt epoch leader).leaderEpoch)
    (hleader : h'.currentLeader = (h.adopt epoch leader).currentLeader) :
    Unchanged h h' ↔ epoch = h.leaderEpoch ∧ SameRecords h.recordLog h'.recordLog := by
  unfold FollowerReplicationHandler.adopt at hepoch hleader
  by_cases hlt : h.leaderEpoch < epoch
  · rw [if_pos hlt] at hepoch
    constructor
    · intro hun
      exact absurd (hepoch.symm.trans hun.leaderEpoch) hlt.ne'
    · intro ⟨heq, _⟩
      exact absurd heq hlt.ne'
  · rw [if_neg hlt] at hepoch hleader
    constructor
    · intro hun
      exact ⟨le_antisymm (not_lt.mp hlt) hle, hun.records⟩
    · intro ⟨_, hsame⟩
      exact ⟨hepoch, hleader, hsame⟩

end adopt

theorem replicateFrame_iff (cfg : StoreConfig) (h : FollowerReplicationHandler)
    (request : ReplicateDataRequest) (outcome : Nat → AppendOutcome) :
    ReplicateFrame cfg h request outcome ↔ ReplicateHarmless h request outcome := by
  unfold ReplicateFrame ReplicateHarmless FollowerReplicationHandler.handleReplicateData
  by_cases hstale : request.leaderEpoch < h.leaderEpoch
  · simp only [if_pos hstale]
    refine ⟨fun _ hle => absurd hle (not_le.mpr hstale), fun _ => ⟨fun _ => ?_, ?_⟩⟩
    · exact ⟨rfl, rfl, .refl _⟩
    · exact fun hs => nomatch hs
  · have hle := not_lt.mp hstale
    simp only [if_neg hstale, recordLog_adopt, topicPartition_adopt, ne_eq, ite_not]
    by_cases htp : request.topicPartition = h.topicPartition
    · simp only [if_pos htp, appendAll_eq]
      cases hfail : firstFailure outcome 0 request.records with
      | none =>
        simp only
        constructor
        · intro hframe _
          obtain ⟨new, hnew, hown⟩ := hframe.2 trivial
          rw [walRecords_storeAll] at hnew
          rwa [append_cancel_left hnew]
        · intro hown
          refine ⟨fun hs => (nomatch hs), fun _ => ⟨request.records, ?_, hown hle⟩⟩
          exact walRecords_storeAll cfg _ _
      | some f =>
        obtain ⟨before, r, left⟩ := f
        simp only
        rw [← sameRecords_iff_harmless cfg]
        constructor
        · intro hframe _
          exact (adopt_unchanged_iff request.leaderId hle (by rfl) (by rfl)).mp (hframe.1 trivial)
        · intro hharm
          refine ⟨fun _ => ?_, fun hs => nomatch hs⟩
          exact (adopt_unchanged_iff request.leaderId hle (by rfl) (by rfl)).mpr (hharm hle)
    · simp only [if_neg htp]
      constructor
      · intro hframe _
        exact ((adopt_unchanged_iff request.leaderId hle (by rfl) (by rfl)).mp (hframe.1 trivial)).1
      · intro heq
        refine ⟨fun _ => ?_, fun hs => nomatch hs⟩
        rw [adopt_unchanged_iff request.leaderId hle (by rfl) (by rfl), recordLog_adopt]
        exact ⟨heq hle, .refl _⟩

theorem heartbeatFrame_iff (h : FollowerReplicationHandler) (request : HeartbeatRequest) :
    HeartbeatFrame h request ↔ HeartbeatHarmless h request := by
  unfold HeartbeatFrame HeartbeatHarmless FollowerReplicationHandler.handleHeartbeat
  by_cases hstale : request.leaderEpoch < h.leaderEpoch
  · simp only [if_pos hstale]
    exact ⟨fun _ _ => hstale.le, fun _ => ⟨fun _ => ⟨rfl, rfl, .refl _⟩, .refl _⟩⟩
  · have hle := not_lt.mp hstale
    simp only [if_neg hstale, topicPartition_adopt, ne_eq, ite_not]
    by_cases htp : request.topicPartition = h.topicPartition
    · simp only [if_pos htp, recordLog_adopt]
      refine ⟨fun _ hne => absurd htp hne, fun _ => ⟨?_, .refl _⟩⟩
      intro ⟨e, he⟩
      cases he
    · simp only [if_neg htp, recordLog_adopt]
      constructor
      · intro hframe _
        have hun := hframe.1 ⟨_, rfl⟩
        exact ((adopt_unchanged_iff request.leaderId hle (by rfl) (by rfl)).mp hun).1.le
      · intro hcond
        refine ⟨fun _ => ?_, .refl _⟩
        rw [adopt_unchanged_iff request.leaderId hle (by rfl) (by rfl), recordLog_adopt]
        exact ⟨le_antisymm (hcond htp) hle, .refl _⟩

/-- **Which rejected requests have no effect.** -/
theorem rejected_requests_iff (cfg : StoreConfig) (h : FollowerReplicationHandler) :
    (∀ request outcome,
      ReplicateFrame cfg h request outcome ↔ ReplicateHarmless h request outcome) ∧
    (∀ request, HeartbeatFrame h request ↔ HeartbeatHarmless h request) :=
  ⟨replicateFrame_iff cfg h, heartbeatFrame_iff h⟩

/-- A request for another partition is answered with a failure and still sets epoch and
leader. -/
theorem wrong_partition_adopts_epoch :
    ¬ ReplicateFrame plainConfig (followerAt 1) ⟨2, ⟨"payments", 0⟩, [], "broker-1"⟩
      (fun _ => .ok) := by
  intro hframe
  have hun := hframe.1 rfl
  exact absurd hun.leaderEpoch (by decide)

end RustMq.Replication
