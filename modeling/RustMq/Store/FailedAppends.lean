import RustMq.Lib.Runs
import RustMq.Store.PartitionStore

/-!
# Appends that fail

`append` puts the record into the hot tier, writes it to the log and, when the write fails, takes
the hot entry out again, by its offset. Between the two it is read like any other record; and what
is taken out is what lies at the offset, which may be another record: one that was there before and
was replaced, or one that came meanwhile.
-/

namespace RustMq.Store

open Lib List PartitionIndex

structure Append where
  record : WalRecord
  outcome : AppendOutcome
  deriving DecidableEq

namespace Append

def fails (a : Append) : Bool :=
  match a.outcome with
  | .ok => false
  | .fail _ => true

def At (a : Append) (tp : TopicPartition) (offset : Nat) : Prop :=
  a.record.topicPartition = tp ∧ a.record.offset = offset

instance (a : Append) (tp : TopicPartition) (offset : Nat) : Decidable (a.At tp offset) :=
  inferInstanceAs (Decidable (_ ∧ _))

end Append

/-- A store, the appends whose write to the log has not returned, and the answers to the reads so
far; no code reads the last. -/
structure Appends where
  store : PartitionStore
  pending : List Append
  answers : List (Except RustMqError (List WalRecord))

inductive AppendLabel where
  | insert (a : Append)
  | finish (a : Append)
  | read (tp : TopicPartition) (offset maxBytes : Nat)

def AppendLabel.ofFailed : AppendLabel → Bool
  | .insert a | .finish a => a.fails
  | .read _ _ _ => false

namespace Appends

variable (cfg : StoreConfig)

def step (s : Appends) : AppendLabel → Option Appends
  | .insert a =>
    some { s with store := s.store.appendHot cfg a.record, pending := a :: s.pending }
  | .finish a =>
    if a ∈ s.pending then
      some { s with
        store := s.store.appendWal a.record a.outcome
        pending := s.pending.erase a }
    else none
  | .read tp offset maxBytes =>
    let r := s.store.read cfg tp offset maxBytes
    some { s with store := { s.store with cache := r.2 }, answers := s.answers ++ [r.1] }

/-- A failing append finds nothing at its offset, nothing comes there before it returns, and its
partition is not read meanwhile. -/
def Apart (s : Appends) : AppendLabel → Prop
  | .insert a =>
    (a.fails = true → (s.store.index.hot a.record.topicPartition).get? a.record.offset = none) ∧
      ∀ b ∈ s.pending, b.fails = true → ¬ b.At a.record.topicPartition a.record.offset
  | .finish _ => True
  | .read tp _ _ => ∀ b ∈ s.pending, b.fails = true → b.record.topicPartition ≠ tp

instance (s : Appends) (label) : Decidable (Apart s label) := by
  unfold Apart
  split <;> infer_instance

end Appends

/-! ## What a read depends on -/

variable {tp : TopicPartition}

theorem PartitionStore.read_congr (cfg : StoreConfig) {s s' : PartitionStore}
    (hhot : s'.index.hot tp = s.index.hot tp) (hcold : s'.index.cold tp = s.index.cold tp)
    (hobjects : s'.objects = s.objects) (hcache : s'.cache = s.cache) (offset maxBytes : Nat) :
    s'.read cfg tp offset maxBytes = s.read cfg tp offset maxBytes := by
  have hplan : s'.index.readPlan tp offset maxBytes = s.index.readPlan tp offset maxBytes := by
    rw [readPlan_eq, readPlan_eq, hhot, hcold]
  have honce : ∀ cache, readOnce cfg s' cache tp offset maxBytes =
      readOnce cfg s cache tp offset maxBytes := by
    intro cache
    rw [readOnce, readOnce, hplan, hobjects]
  rw [read, read, hcache, honce]
  simp only [honce]

namespace Append

variable (a : Append) (s : PartitionStore) (tp : TopicPartition) (offset : Nat)

theorem get?_appendHot (cfg : StoreConfig) : ((s.appendHot cfg a.record).index.hot tp).get? offset =
      if a.At tp offset then some ⟨a.record, PartitionStore.memSize cfg a.record⟩
      else (s.index.hot tp).get? offset :=
  (get?_hot_insertHot ..).trans (if_congr (and_congr eq_comm eq_comm) rfl rfl)

theorem get?_appendWal_fail (left : Bool) :
    ((s.appendWal a.record (.fail left)).index.hot tp).get? offset =
      if a.At tp offset then none else (s.index.hot tp).get? offset :=
  (get?_hot_removeHot ..).trans (if_congr (and_congr eq_comm eq_comm) rfl rfl)

end Append

/-! ## The run without the failed appends -/

/-- The first state has the hot entries of the failing appends that are under way, and is otherwise
as the second. -/
structure Differ (s s' : Appends) : Prop where
  pending : s'.pending = s.pending.filter fun a => !a.fails
  under : ∀ b ∈ s.pending, b.fails = true →
    (s'.store.index.hot b.record.topicPartition).get? b.record.offset = none
  hot : ∀ tp offset, (∀ b ∈ s.pending, b.fails = true → ¬ b.At tp offset) →
    (s'.store.index.hot tp).get? offset = (s.store.index.hot tp).get? offset
  cold : ∀ tp, s'.store.index.cold tp = s.store.index.cold tp
  objects : s'.store.objects = s.store.objects
  cache : s'.store.cache = s.store.cache
  answers : s'.answers = s.answers

namespace Differ

variable {cfg : StoreConfig} {s s' t : Appends} {a : Append}

theorem refl (h : s.pending = []) : Differ s s where
  pending := by rw [h]; rfl
  under b hb := by rw [h] at hb; cases hb
  hot _ _ _ := rfl
  cold _ := rfl
  objects := rfl
  cache := rfl
  answers := rfl

variable (h : Differ s s') {label : AppendLabel}
include h

theorem insert_failing (hfails : a.fails = true) (hapart : s.Apart (.insert a))
    (hstep : s.step cfg (.insert a) = some t) : Differ t s' := by
  cases hstep
  refine ⟨?_, fun b hb hb' => ?_, fun tp offset hnone => ?_, fun tp => ?_, h.objects, h.cache,
    h.answers⟩
  · rw [filter_cons_of_neg (by simp [hfails]), h.pending]
  · rcases mem_cons.mp hb with rfl | hb
    · rw [h.hot _ _ hapart.2, hapart.1 hfails]
    · exact h.under b hb hb'
  · obtain ⟨ha, hpending⟩ := forall_mem_cons.mp hnone
    rw [Append.get?_appendHot, if_neg (ha hfails), h.hot tp offset hpending]
  · rw [h.cold tp]
    exact (cold_insertHot ..).symm

theorem insert (hok : a.fails = false) (hapart : s.Apart (.insert a))
    (hstep : s.step cfg (.insert a) = some t) :
    ∃ t', s'.step cfg (.insert a) = some t' ∧ Differ t t' := by
  cases hstep
  refine ⟨_, rfl, ?_, fun b hb hb' => ?_, fun tp offset hnone => ?_, fun tp => ?_, h.objects,
    h.cache, h.answers⟩
  · rw [filter_cons_of_pos (by simp [hok]), h.pending]
  · rcases mem_cons.mp hb with rfl | hb
    · rw [hok] at hb'
      cases hb'
    · have hat : ¬ a.At b.record.topicPartition b.record.offset := fun hat =>
        hapart.2 b hb hb' ⟨hat.1.symm, hat.2.symm⟩
      rw [Append.get?_appendHot, if_neg hat]
      exact h.under b hb hb'
  · obtain ⟨-, hpending⟩ := forall_mem_cons.mp hnone
    rw [Append.get?_appendHot, Append.get?_appendHot, h.hot tp offset hpending]
  · exact (cold_insertHot ..).trans ((h.cold tp).trans (cold_insertHot ..).symm)

theorem finish_failing (hfails : a.fails = true) (hstep : s.step cfg (.finish a) = some t) :
    Differ t s' := by
  obtain ⟨hmem, heq⟩ := Option.ite_none_right_eq_some.mp hstep
  cases heq
  obtain ⟨left, hleft⟩ : ∃ left, a.outcome = .fail left := by
    rw [Append.fails] at hfails
    split at hfails
    · cases hfails
    · rename_i left hleft
      exact ⟨left, hleft⟩
  rw [hleft]
  refine ⟨?_, fun b hb => h.under b (mem_of_mem_erase hb), fun tp offset hnone => ?_,
    fun tp => ?_, h.objects, h.cache, h.answers⟩
  · rw [h.pending]
    have hnot : a ∉ s.pending.filter fun b => !b.fails := by simp [hfails]
    exact (erase_of_not_mem hnot).symm.trans erase_filter
  · rw [Append.get?_appendWal_fail]
    split
    · rename_i hat
      obtain ⟨rfl, rfl⟩ := hat
      exact h.under a hmem hfails
    · rename_i hat
      refine h.hot tp offset fun b hb hb' hbat => ?_
      by_cases hba : b = a
      · exact hat (hba ▸ hbat)
      · exact hnone b ((mem_erase_of_ne hba).mpr hb) hb' hbat
  · rw [h.cold tp]
    exact (cold_removeHot ..).symm

theorem finish (hok : a.fails = false) (hstep : s.step cfg (.finish a) = some t) :
    ∃ t', s'.step cfg (.finish a) = some t' ∧ Differ t t' := by
  obtain ⟨hmem, heq⟩ := Option.ite_none_right_eq_some.mp hstep
  cases heq
  have houtcome : a.outcome = .ok := by
    rw [Append.fails] at hok
    split at hok
    · assumption
    · cases hok
  have hmem' : a ∈ s'.pending := by
    rw [h.pending]
    exact mem_filter.mpr ⟨hmem, by simp [hok]⟩
  refine ⟨_, if_pos hmem', ?_⟩
  rw [houtcome]
  refine ⟨?_, fun b hb => h.under b (mem_of_mem_erase hb), fun tp offset hnone => ?_, h.cold,
    h.objects, h.cache, h.answers⟩
  · show s'.pending.erase a = _
    rw [h.pending, erase_filter]
  · refine h.hot tp offset fun b hb hb' => ?_
    have hba : b ≠ a := fun heq => by
      rw [heq, hok] at hb'
      cases hb'
    exact hnone b ((mem_erase_of_ne hba).mpr hb) hb'

theorem read {offset maxBytes : Nat} (hapart : s.Apart (.read tp offset maxBytes))
    (hstep : s.step cfg (.read tp offset maxBytes) = some t) :
    ∃ t', s'.step cfg (.read tp offset maxBytes) = some t' ∧ Differ t t' := by
  have hhot : s'.store.index.hot tp = s.store.index.hot tp :=
    SMap.ext_get? fun k => h.hot tp k fun b hb hfails hat => hapart b hb hfails hat.1
  have hread := PartitionStore.read_congr cfg hhot (h.cold tp) h.objects h.cache offset maxBytes
  cases hstep
  refine ⟨_, rfl, { h with cache := congrArg Prod.snd hread, answers := ?_ }⟩
  show s'.answers ++ [_] = s.answers ++ [_]
  rw [h.answers, hread]

theorem kept (hapart : s.Apart label) (hkeep : (!label.ofFailed) = true)
    (hstep : s.step cfg label = some t) : ∃ t', s'.step cfg label = some t' ∧ Differ t t' := by
  rw [Bool.not_eq_true'] at hkeep
  cases label with
  | insert a => exact h.insert hkeep hapart hstep
  | finish a => exact h.finish hkeep hstep
  | read tp offset maxBytes => exact h.read hapart hstep

theorem dropped (hapart : s.Apart label) (hdrop : (!label.ofFailed) = false)
    (hstep : s.step cfg label = some t) : Differ t s' := by
  rw [Bool.not_eq_false'] at hdrop
  cases label with
  | insert a => exact h.insert_failing hdrop hapart hstep
  | finish a => exact h.finish_failing hdrop hstep
  | read tp offset maxBytes => cases hdrop

end Differ

/-- **Failed appends are not seen** by reads of other partitions, or of theirs before and after, if
they have their offsets for themselves. -/
theorem reads_without_failed (cfg : StoreConfig) {s t : Appends} {labels : List AppendLabel}
    (hstart : s.pending = []) (hapart : Along (Appends.step cfg) Appends.Apart s labels)
    (hexec : exec (Appends.step cfg) s labels = some t) :
    ∃ t', exec (Appends.step cfg) s (labels.filter fun label => !label.ofFailed) = some t' ∧
      t'.answers = t.answers := by
  obtain ⟨t', ht', hdiffer⟩ := exec_filter (fun _ _ _ _ h hP hkeep hs => h.kept hP hkeep hs)
    (fun _ _ _ _ h hP hdrop hs => h.dropped hP hdrop hs) (Differ.refl hstart) hapart hexec
  exact ⟨t', ht', hdiffer.answers⟩

def appendOf (offset : Nat) (b : UInt8) (outcome : AppendOutcome) : Append :=
  ⟨⟨⟨"a", 0⟩, offset, ⟨none, [b], [], 0⟩, 0⟩, outcome⟩

def emptyAppends : Appends := ⟨.empty, [], []⟩

def failsBehind : List AppendLabel :=
  [.insert (appendOf 0 1 .ok), .finish (appendOf 0 1 .ok), .insert (appendOf 1 2 (.fail true)),
    .finish (appendOf 1 2 (.fail true)), .read ⟨"a", 0⟩ 0 1024]

theorem failed_behind_unseen :
    ∃ t t', exec (Appends.step plainConfig) emptyAppends failsBehind = some t ∧
      exec (Appends.step plainConfig) emptyAppends
        [.insert (appendOf 0 1 .ok), .finish (appendOf 0 1 .ok), .read ⟨"a", 0⟩ 0 1024] = some t' ∧
      t'.answers = t.answers := by
  have hsome : (exec (Appends.step plainConfig) emptyAppends failsBehind).isSome = true := by
    decide +kernel
  obtain ⟨t, ht⟩ := Option.isSome_iff_exists.mp hsome
  obtain ⟨t', ht', hanswers⟩ := reads_without_failed plainConfig rfl (by decide +kernel) ht
  exact ⟨t, t', ht, ht', hanswers⟩

/-- A read between the insert and the failure returns the record, and a failed append takes another
record out of memory. -/
theorem failed_appends_seen : (exec (Appends.step plainConfig) emptyAppends
        [.insert (appendOf 0 1 (.fail false)), .read ⟨"a", 0⟩ 0 1024,
          .finish (appendOf 0 1 (.fail false))]).map Appends.answers =
        some [.ok [(appendOf 0 1 (.fail false)).record]] ∧
      (exec (Appends.step plainConfig) emptyAppends [.read ⟨"a", 0⟩ 0 1024]).map
        Appends.answers = some [.ok []] ∧
      (exec (Appends.step plainConfig) emptyAppends
        [.insert (appendOf 0 1 .ok), .finish (appendOf 0 1 .ok),
          .insert (appendOf 0 2 (.fail false)), .finish (appendOf 0 2 (.fail false)),
          .read ⟨"a", 0⟩ 0 1024]).map Appends.answers = some [.ok []] ∧
      (exec (Appends.step plainConfig) emptyAppends
        [.insert (appendOf 0 1 .ok), .finish (appendOf 0 1 .ok),
          .read ⟨"a", 0⟩ 0 1024]).map Appends.answers =
        some [.ok [(appendOf 0 1 .ok).record]] := by
  decide +kernel

end RustMq.Store
