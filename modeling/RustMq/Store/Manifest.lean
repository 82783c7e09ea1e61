import RustMq.Store.Index

/-!
# The cold-index manifest

`src/storage/cold_index.rs` above its frame format: an append-only list of records, each the
registration of a tiered range or the replacement of several ranges by one merged object, and the
fold that `load` runs over them at startup. A compaction removes the live segments that start inside
the merged range, puts the merged one in, and adds the source keys to the orphans, which recovery
then deletes. Nothing ever leaves the orphans.

`BTreeMap::range` panics on a reversed range, so `fold` is `none` when a compaction record has
one.
-/

namespace RustMq.Store

open Lib

inductive ManifestRecord where
  | register (segment : ColdSegment)
  | compact (merged : ColdSegment) (sources : List String)
  deriving DecidableEq

structure LoadResult where
  live : List ColdSegment
  orphanObjectKeys : List String
  deriving DecidableEq

structure FoldState where
  live : AList fun _ : TopicPartition => SMap Nat ColdSegment
  orphanObjectKeys : List String

namespace FoldState

def init : FoldState := ⟨∅, []⟩

def segments (st : FoldState) (tp : TopicPartition) : SMap Nat ColdSegment :=
  (st.live.lookup tp).getD SMap.empty

def apply (st : FoldState) : ManifestRecord → FoldState
  | .register seg =>
    let entries := st.segments seg.topicPartition
    ⟨st.live.insert seg.topicPartition (entries.insert seg.startOffset seg), st.orphanObjectKeys⟩
  | .compact merged sources =>
    let entries := st.segments merged.topicPartition
    let kept := entries.filterKeys fun k =>
      !inRange merged.startOffset merged.endOffset k
    ⟨st.live.insert merged.topicPartition (kept.insert merged.startOffset merged),
      st.orphanObjectKeys ++ sources⟩

end FoldState

def foldState (records : List ManifestRecord) : FoldState := records.foldl FoldState.apply .init

def ColdSegment.le (a b : ColdSegment) : Prop :=
  a.topicPartition.topic < b.topicPartition.topic ∨
    a.topicPartition.topic = b.topicPartition.topic ∧
      (a.topicPartition.partition < b.topicPartition.partition ∨
        a.topicPartition.partition = b.topicPartition.partition ∧ a.startOffset ≤ b.startOffset)

instance (a b : ColdSegment) : Decidable (a.le b) :=
  inferInstanceAs (Decidable (_ ∨ _ ∧ (_ ∨ _ ∧ _)))

def ManifestRecord.reversed : ManifestRecord → Bool
  | .register _ => false
  | .compact merged _ => merged.endOffset < merged.startOffset

def fold (records : List ManifestRecord) : Option LoadResult :=
  if records.any ManifestRecord.reversed then none
  else some
    { live := ((foldState records).live.entries.flatMap fun e =>
        e.2.entries.map Prod.snd).insertionSort ColdSegment.le
      orphanObjectKeys := (foldState records).orphanObjectKeys }

/-! ## The views after one more record -/

theorem foldState_append (records : List ManifestRecord) (r : ManifestRecord) :
    foldState (records ++ [r]) = (foldState records).apply r := by
  rw [foldState, List.foldl_append]
  rfl

namespace FoldState

variable (st : FoldState) (tp : TopicPartition)

theorem segments_apply_register (seg : ColdSegment) : (st.apply (.register seg)).segments tp =
      if tp = seg.topicPartition then
        (st.segments seg.topicPartition).insert seg.startOffset seg
      else st.segments tp := by
  unfold segments apply
  by_cases h : tp = seg.topicPartition
  · rw [if_pos h, h, AList.lookup_insert]
    rfl
  · rw [if_neg h, AList.lookup_insert_ne h]

theorem segments_apply_compact (merged : ColdSegment) (sources : List String) :
    (st.apply (.compact merged sources)).segments tp =
      if tp = merged.topicPartition then
        ((st.segments merged.topicPartition).filterKeys fun k =>
          !inRange merged.startOffset merged.endOffset k).insert merged.startOffset merged
      else st.segments tp := by
  unfold segments apply
  by_cases h : tp = merged.topicPartition
  · rw [if_pos h, h, AList.lookup_insert]
    rfl
  · rw [if_neg h, AList.lookup_insert_ne h]

end FoldState

/-! ## What `fold` returns -/

variable {records : List ManifestRecord} {result : LoadResult}

theorem mem_live (h : fold records = some result) (seg : ColdSegment) :
    seg ∈ result.live ↔ ∃ tp start, ((foldState records).segments tp).get? start = some seg := by
  unfold fold at h
  split at h
  · cases h
  · cases h
    simp only [List.mem_insertionSort, List.mem_flatMap, List.mem_map]
    constructor
    · intro ⟨⟨tp, m⟩, hm, ⟨start, seg'⟩, hseg, heq⟩
      refine ⟨tp, start, ?_⟩
      have hlook : (foldState records).live.lookup tp = some m := AList.mem_lookup_iff.mpr hm
      rw [FoldState.segments, hlook, ← heq]
      exact SMap.get?_eq_some_iff.mpr hseg
    · intro ⟨tp, start, hget⟩
      unfold FoldState.segments at hget
      cases hlook : (foldState records).live.lookup tp with
      | none =>
        rw [hlook] at hget
        cases hget
      | some m =>
        rw [hlook] at hget
        exact ⟨⟨tp, m⟩, AList.mem_lookup_iff.mp hlook, (start, seg),
          SMap.get?_eq_some_iff.mp hget, rfl⟩

theorem orphanObjectKeys_of_fold (h : fold records = some result) :
    result.orphanObjectKeys = (foldState records).orphanObjectKeys := by
  unfold fold at h
  split at h
  · cases h
  · cases h
    rfl

theorem fold_of_sound (h : ∀ r ∈ records, r.reversed = false) :
    ∃ result, fold records = some result := by
  have hany : ¬ records.any ManifestRecord.reversed = true := by
    rw [List.any_eq_true]
    rintro ⟨r, hr, hrev⟩
    rw [h r hr] at hrev
    cases hrev
  exact ⟨_, if_neg hany⟩

end RustMq.Store
