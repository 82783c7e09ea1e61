import RustMq.Lib.Runs
import RustMq.Lib.SortedMap

/-!
# The offset tracker of the SDK consumer

`OffsetTracker` (`sdk/rust/src/consumer.rs`) keeps for each partition the committed offset, the
offsets that were delivered and not yet acknowledged, and the acknowledged ones above the committed
offset. An acknowledgment moves the committed offset forward over the acknowledged offsets that
follow it without a gap; a seek sets the committed offset and clears the pending ones. Nothing but
an acknowledgment removes an acknowledged offset.
-/

namespace RustMq.Sdk

open Lib Function

/-- Offsets and partitions are a `u64` and a `u32`. The times of the commits are not read. -/
structure OffsetTracker where
  committedOffsets : SMap Nat Nat
  pendingOffsets : SMap Nat (Finset Nat)
  acknowledgedOffsets : SMap Nat (Finset Nat)

namespace OffsetTracker

variable (t : OffsetTracker) (partition offset : Nat)

def new : OffsetTracker := ⟨.empty, .empty, .empty⟩

def getCommittedOffset : Nat :=
  (t.committedOffsets.get? partition).getD 0

def setCommittedOffset : OffsetTracker :=
  { t with committedOffsets := t.committedOffsets.insert partition offset }

def pending : Finset Nat :=
  (t.pendingOffsets.get? partition).getD ∅

def acknowledged : Finset Nat :=
  (t.acknowledgedOffsets.get? partition).getD ∅

def addPendingOffset : OffsetTracker :=
  { t with pendingOffsets := t.pendingOffsets.insert partition (insert offset (t.pending partition)) }

def removePendingOffset : OffsetTracker :=
  { t with
    pendingOffsets :=
      match t.pendingOffsets.get? partition with
      | none => t.pendingOffsets
      | some offsets => t.pendingOffsets.insert partition (offsets.erase offset)
    acknowledgedOffsets :=
      t.acknowledgedOffsets.insert partition (insert offset (t.acknowledged partition)) }

/-- The loop of `update_consecutive_committed`. Each round finds another acknowledged offset. -/
def consecutive (acknowledged : Finset Nat) : (rounds committed : Nat) → Nat
  | 0, committed => committed
  | rounds + 1, committed =>
    if committed + 1 ∈ acknowledged then consecutive acknowledged rounds (committed + 1)
    else committed

def updateConsecutiveCommitted : OffsetTracker :=
  match t.acknowledgedOffsets.get? partition with
  | none => t
  | some acknowledged =>
    let currentCommitted := t.getCommittedOffset partition
    let newCommitted := consecutive acknowledged acknowledged.card currentCommitted
    if currentCommitted < newCommitted then
      { t.setCommittedOffset partition newCommitted with
        acknowledgedOffsets :=
          t.acknowledgedOffsets.insert partition (acknowledged.filter (newCommitted < ·)) }
    else t

def clearPendingOffsets : OffsetTracker :=
  { t with pendingOffsets := t.pendingOffsets.erase partition }

/-! ## The loop -/

theorem mem_of_le_consecutive {acknowledged : Finset Nat} {rounds committed o : Nat}
    (hlt : committed < o) (hle : o ≤ consecutive acknowledged rounds committed) :
    o ∈ acknowledged := by
  induction rounds generalizing committed with
  | zero =>
    unfold consecutive at hle
    omega
  | succ rounds ih =>
    unfold consecutive at hle
    split at hle
    · next hmem =>
      rcases Nat.eq_or_lt_of_le (Nat.succ_le_of_lt hlt) with heq | hlt'
      · rwa [← heq]
      · exact ih hlt' hle
    · omega

/-! ## The operations, partition by partition -/

variable (p : Nat)

theorem getCommittedOffset_setCommittedOffset :
    (t.setCommittedOffset partition offset).getCommittedOffset p =
      if p = partition then offset else t.getCommittedOffset p := by
  unfold getCommittedOffset setCommittedOffset
  rw [SMap.get?_insert]
  split
  · rfl
  · rfl

theorem acknowledged_removePendingOffset : (t.removePendingOffset partition offset).acknowledged p =
      if p = partition then insert offset (t.acknowledged partition) else t.acknowledged p := by
  unfold removePendingOffset
  rw [acknowledged, SMap.get?_insert]
  split
  · rfl
  · rfl

/-- What `update_consecutive_committed` does: the committed offset of the partition moves over
acknowledged offsets, and some acknowledged offsets are removed. -/
structure Advanced (t t' : OffsetTracker) (partition : Nat) : Prop where
  committed_of_ne : ∀ q, q ≠ partition → t'.getCommittedOffset q = t.getCommittedOffset q
  acknowledged_of_ne : ∀ q, q ≠ partition → t'.acknowledged q = t.acknowledged q
  passed : ∀ o, t.getCommittedOffset partition < o → o ≤ t'.getCommittedOffset partition →
    o ∈ t.acknowledged partition
  acknowledged_subset : t'.acknowledged partition ⊆ t.acknowledged partition

theorem Advanced.refl : Advanced t t partition where
  committed_of_ne _ _ := rfl
  acknowledged_of_ne _ _ := rfl
  passed _ hlt hle := absurd hle (Nat.not_le_of_gt hlt)
  acknowledged_subset := Finset.Subset.refl _

theorem advanced_updateConsecutiveCommitted :
    Advanced t (t.updateConsecutiveCommitted partition) partition := by
  unfold updateConsecutiveCommitted
  cases hacked : t.acknowledgedOffsets.get? partition with
  | none => exact .refl t partition
  | some acked =>
    dsimp only
    split
    · have hset : t.acknowledged partition = acked := by
        rw [acknowledged, hacked, Option.getD_some]
      refine ⟨fun q hq => ?_, fun q hq => ?_, fun o hlt hle => ?_, ?_⟩
      · exact (t.getCommittedOffset_setCommittedOffset partition _ q).trans (if_neg hq)
      · rw [acknowledged, SMap.get?_insert, if_neg hq]
        rfl
      · have hnew := t.getCommittedOffset_setCommittedOffset partition
          (consecutive acked acked.card (t.getCommittedOffset partition)) partition
        rw [if_pos rfl] at hnew
        rw [hset]
        exact mem_of_le_consecutive hlt (hle.trans_eq hnew)
      · rw [acknowledged, SMap.get?_insert_self, Option.getD_some, hset]
        exact Finset.filter_subset _ _
    · exact .refl t partition

end OffsetTracker

/-! ## Sessions -/

/-- What reaches the tracker: a fetch that returned, a successful acknowledgment taken by the
handler, a seek the broker has confirmed. -/
inductive TrackerCall where
  | fetched (partition : Nat) (offsets : List Nat)
  | ack (partition offset : Nat)
  | seek (partition newOffset : Nat)
  deriving DecidableEq

def OffsetTracker.perform (t : OffsetTracker) : TrackerCall → OffsetTracker
  | .fetched partition offsets => offsets.foldl (fun t o => t.addPendingOffset partition o) t
  | .ack partition offset =>
    (t.removePendingOffset partition offset).updateConsecutiveCommitted partition
  | .seek partition newOffset =>
    (t.setCommittedOffset partition newOffset).clearPendingOffsets partition

/-- A tracker, and what was delivered and acknowledged since the last seek of each partition. -/
structure Session where
  tracker : OffsetTracker
  delivered : Nat → List Nat
  acked : Nat → List Nat

namespace Session

def start (t : OffsetTracker) : Session := ⟨t, fun _ => [], fun _ => []⟩

def step (s : Session) (call : TrackerCall) : Option Session :=
  let tracker := s.tracker.perform call
  match call with
  | .fetched partition offsets =>
    some ⟨tracker, Function.update s.delivered partition (s.delivered partition ++ offsets), s.acked⟩
  | .ack partition offset =>
    some ⟨tracker, s.delivered, Function.update s.acked partition (s.acked partition ++ [offset])⟩
  | .seek partition _ =>
    some ⟨tracker, Function.update s.delivered partition [], Function.update s.acked partition []⟩

/-- The tracker counts an offset that is delivered now neither as committed nor as acknowledged,
unless it was acknowledged since the last seek. -/
def Fresh (s : Session) : TrackerCall → Prop
  | .fetched partition offsets =>
    ∀ o ∈ offsets, o ∈ s.acked partition ∨
      (s.tracker.getCommittedOffset partition < o ∧ o ∉ s.tracker.acknowledged partition)
  | _ => True

instance (s : Session) (call) : Decidable (s.Fresh call) := by
  unfold Session.Fresh
  split <;> infer_instance

/-- What was delivered and not acknowledged is ahead of the commit, and no gap before it is filled
by an older acknowledgment of it. -/
def Waits (s : Session) : Prop :=
  ∀ p, ∀ o ∈ s.delivered p, o ∈ s.acked p ∨
    (s.tracker.getCommittedOffset p < o ∧ o ∉ s.tracker.acknowledged p)

end Session

theorem OffsetTracker.perform_fetched (t : OffsetTracker) (partition : Nat) (offsets : List Nat) :
    (t.perform (.fetched partition offsets)).committedOffsets = t.committedOffsets ∧
      (t.perform (.fetched partition offsets)).acknowledgedOffsets = t.acknowledgedOffsets := by
  induction offsets generalizing t with
  | nil => exact ⟨rfl, rfl⟩
  | cons o offsets ih => exact ih (t.addPendingOffset partition o)

theorem Session.Waits.step {s s' : Session} {call : TrackerCall} (h : s.Waits) (hfresh : s.Fresh call)
    (hstep : s.step call = some s') : s'.Waits := by
  intro p o ho
  cases call with
  | fetched partition offsets =>
    cases hstep
    obtain ⟨hcommitted, hacked⟩ := s.tracker.perform_fetched partition offsets
    simp only [OffsetTracker.getCommittedOffset, OffsetTracker.acknowledged, hcommitted, hacked]
    by_cases hp : p = partition
    · subst hp
      simp only [update_self, List.mem_append] at ho
      rcases ho with ho | ho
      · exact h p o ho
      · exact hfresh o ho
    · simp only [update_of_ne hp] at ho
      exact h p o ho
  | ack partition offset =>
    cases hstep
    have hadv := (s.tracker.removePendingOffset partition offset).advanced_updateConsecutiveCommitted
      partition
    have hacked := s.tracker.acknowledged_removePendingOffset partition offset
    by_cases hp : p = partition
    · subst hp
      have hset := hacked p
      rw [if_pos rfl] at hset
      simp only [update_self, List.mem_append, List.mem_singleton]
      rcases h p o ho with hold | ⟨hlt, hnot⟩
      · exact .inl (.inl hold)
      · by_cases hoffset : o = offset
        · exact .inl (.inr hoffset)
        -- it is not acknowledged, so the loop stops before it
        · have hnot' : o ∉ (s.tracker.removePendingOffset p offset).acknowledged p := by
            rw [hset, Finset.mem_insert]
            exact fun hin => hin.elim hoffset hnot
          refine .inr ⟨?_, fun hin => hnot' (hadv.acknowledged_subset hin)⟩
          by_contra hle
          exact hnot' (hadv.passed o hlt (Nat.le_of_not_lt hle))
    · simp only [update_of_ne hp]
      rcases h p o ho with hold | ⟨hlt, hnot⟩
      · exact .inl hold
      · refine .inr ⟨?_, ?_⟩
        · exact (hadv.committed_of_ne p hp).trans_lt hlt
        · refine fun hin => hnot ?_
          have hin' := (hadv.acknowledged_of_ne p hp) ▸ hin
          rwa [hacked, if_neg hp] at hin'
  | seek partition newOffset =>
    cases hstep
    by_cases hp : p = partition
    · subst hp
      simp only [update_self] at ho
      cases ho
    · simp only [update_of_ne hp] at ho ⊢
      rcases h p o ho with hold | ⟨hlt, hnot⟩
      · exact .inl hold
      · refine .inr ⟨?_, hnot⟩
        have hkept := s.tracker.getCommittedOffset_setCommittedOffset partition newOffset p
        rw [if_neg hp] at hkept
        exact hkept.trans_lt hlt

/-- **No commit passes an unprocessed message** where what a fetch returns is fresh. -/
theorem commits_processed_only (t : OffsetTracker) (calls : List TrackerCall) (s : Session)
    (hfresh : Along Session.step Session.Fresh (.start t) calls)
    (hexec : exec Session.step (.start t) calls = some s) (p o : Nat)
    (hdelivered : o ∈ s.delivered p) (hcommitted : o ≤ s.tracker.getCommittedOffset p) :
    o ∈ s.acked p := by
  have hstart : (Session.start t).Waits := by
    intro p o ho
    cases ho
  have hwaits : s.Waits :=
    exec_invariant (fun _ _ _ h hP hstep => h.step hP hstep) hstart hfresh hexec
  rcases hwaits p o hdelivered with hacked | ⟨hlt, -⟩
  · exact hacked
  · exact absurd hcommitted (Nat.not_le_of_gt hlt)

def forwardSession : List TrackerCall :=
  [.fetched 0 [1, 2, 3], .ack 0 2, .ack 0 1, .seek 0 5, .fetched 0 [6, 7], .ack 0 7, .ack 0 6]

theorem commits_processed_only_forwardSession :
    ∃ s, exec Session.step (.start .new) forwardSession = some s ∧
      s.tracker.getCommittedOffset 0 = 7 ∧ 6 ∈ s.acked 0 := by
  refine ⟨_, rfl, by decide +kernel, ?_⟩
  exact commits_processed_only .new forwardSession _ (by decide +kernel) rfl 0 6 (by decide +kernel)
    (by decide +kernel)

/-- Offset 5 is acknowledged, delivered again after a seek, and committed by the acknowledgment of
6. -/
theorem commit_passes_redelivered : ((exec Session.step (.start .new)
      [.fetched 0 [1, 2, 3, 4, 5], .ack 0 5, .seek 0 4, .fetched 0 [5, 6], .ack 0 6]).map
        fun s => (s.tracker.getCommittedOffset 0, s.delivered 0, s.acked 0)) =
      some (6, [5, 6], [6]) := by
  decide +kernel

end RustMq.Sdk
