import RustMq.Lib.SortedMap
import RustMq.Types

/-!
# The partition index

`src/storage/partition_index.rs`: for each partition the records held in memory (`hot`), the
ranges that live in object storage (`cold`) and one past the highest offset ever indexed
(`next_offset`). The hash map of partitions is an association list without duplicate keys (its
iteration order is never used here), the two `BTreeMap`s are ordered maps.

`BTreeMap::range(a..b)` panics when `a > b`. The two operations that use it, `flip_to_cold` and
`replace_cold`, return `none` there.
-/

namespace RustMq.Store

open Lib List SMap

structure ObjectRange where
  endOffset : Nat
  objectKey : String
  sizeBytes : Nat
  deriving DecidableEq

structure HotEntry where
  record : WalRecord
  size : Nat
  deriving DecidableEq

/-- The entries of one partition. Everything indexed lies below `nextOffset`. -/
structure PartitionEntries where
  hot : SMap Nat HotEntry
  cold : SMap Nat ObjectRange
  nextOffset : Nat
  hot_lt : ∀ k e, hot.get? k = some e → k < nextOffset
  cold_le : ∀ k range, cold.get? k = some range → range.endOffset ≤ nextOffset

def inRange (startOffset endOffset k : Nat) : Bool := startOffset ≤ k ∧ k < endOffset

namespace PartitionEntries

def default : PartitionEntries where
  hot := SMap.empty
  cold := SMap.empty
  nextOffset := 0
  hot_lt _ _ h := nomatch h
  cold_le _ _ h := nomatch h

variable (entries : PartitionEntries)

def insertHot (offset : Nat) (entry : HotEntry) : PartitionEntries where
  hot := entries.hot.insert offset entry
  cold := entries.cold
  nextOffset := max entries.nextOffset (offset + 1)
  hot_lt k e h := by
    rw [SMap.get?_insert] at h
    split at h
    · omega
    · have := entries.hot_lt k e h
      omega
  cold_le k range h := le_max_of_le_left (entries.cold_le k range h)

def removeHot (offset : Nat) : PartitionEntries where
  hot := entries.hot.erase offset
  cold := entries.cold
  nextOffset := entries.nextOffset
  hot_lt k e h := by
    rw [SMap.get?_erase] at h
    split at h
    · exact nomatch h
    · exact entries.hot_lt k e h
  cold_le := entries.cold_le

def evict (startOffset endOffset : Nat) : PartitionEntries where
  hot := entries.hot.filterKeys fun k => !inRange startOffset endOffset k
  cold := entries.cold
  nextOffset := entries.nextOffset
  hot_lt k e h := by
    rw [SMap.get?_filterKeys] at h
    split at h
    · exact entries.hot_lt k e h
    · exact nomatch h
  cold_le := entries.cold_le

def subsume (startOffset endOffset : Nat) : PartitionEntries where
  hot := entries.hot
  cold := entries.cold.filterKeys fun k => !inRange startOffset endOffset k
  nextOffset := entries.nextOffset
  hot_lt := entries.hot_lt
  cold_le k range h := by
    rw [SMap.get?_filterKeys] at h
    split at h
    · exact entries.cold_le k range h
    · exact nomatch h

def insertCold (startOffset : Nat) (range : ObjectRange) : PartitionEntries where
  hot := entries.hot
  cold := entries.cold.insert startOffset range
  nextOffset := max entries.nextOffset range.endOffset
  hot_lt k e h := lt_max_of_lt_left (entries.hot_lt k e h)
  cold_le k r h := by
    rw [SMap.get?_insert] at h
    split at h
    · cases h
      exact le_max_right _ _
    · exact le_max_of_le_left (entries.cold_le k r h)

end PartitionEntries

inductive ReadPlan where
  | hot (records : List WalRecord)
  | cold (objectKey : String) (startOffset endOffset : Nat)
  | empty
  deriving DecidableEq

structure PartitionIndex where
  inner : AList fun _ : TopicPartition => PartitionEntries
  hotBytes : Nat

/-- A tiered range of a partition (`src/storage/cold_index.rs`). -/
structure ColdSegment where
  topicPartition : TopicPartition
  startOffset : Nat
  endOffset : Nat
  objectKey : String
  sizeBytes : Nat
  deriving DecidableEq

namespace PartitionIndex

def new : PartitionIndex := ⟨∅, 0⟩

section

variable (index : PartitionIndex) (tp : TopicPartition)

def entries : PartitionEntries := (index.inner.lookup tp).getD .default

def hot : SMap Nat HotEntry := (index.entries tp).hot

def cold : SMap Nat ObjectRange := (index.entries tp).cold

def nextOffset : Nat := (index.entries tp).nextOffset

def setEntries (entries : PartitionEntries) (hotBytes : Nat) : PartitionIndex :=
  ⟨index.inner.insert tp entries, hotBytes⟩

/-- The size of the hot entry at an offset, which leaves the account with it. -/
def hotSize (entries : PartitionEntries) (offset : Nat) : Nat :=
  ((entries.hot.get? offset).map HotEntry.size).getD 0

def insertHot (offset : Nat) (record : WalRecord) (size : Nat) : PartitionIndex :=
  let entries := index.entries tp
  index.setEntries tp (entries.insertHot offset ⟨record, size⟩)
    (index.hotBytes - hotSize entries offset + size)

/-- `next_offset` is not rewound: the offset stays consumed. -/
def removeHot (offset : Nat) : PartitionIndex :=
  match index.inner.lookup tp with
  | none => index
  | some entries =>
    index.setEntries tp (entries.removeHot offset) (index.hotBytes - hotSize entries offset)

def flipToCold (startOffset endOffset : Nat) (objectKey : String) (sizeBytes : Nat) :
    Option PartitionIndex :=
  let entries := index.entries tp
  let freed := ((entries.hot.entries.filter fun e => inRange startOffset endOffset e.1).map
    fun e => e.2.size).sum
  if endOffset < startOffset then none
  else some (index.setEntries tp
    ((entries.evict startOffset endOffset).insertCold startOffset
      ⟨endOffset, objectKey, sizeBytes⟩)
    (index.hotBytes - freed))

def insertCold (startOffset endOffset : Nat) (objectKey : String) (sizeBytes : Nat) :
    PartitionIndex :=
  index.setEntries tp
    ((index.entries tp).insertCold startOffset ⟨endOffset, objectKey, sizeBytes⟩) index.hotBytes

def replaceCold (startOffset endOffset : Nat) (objectKey : String) (sizeBytes : Nat) :
    Option PartitionIndex :=
  if endOffset < startOffset then none
  else some (index.setEntries tp
    (((index.entries tp).subsume startOffset endOffset).insertCold startOffset
      ⟨endOffset, objectKey, sizeBytes⟩)
    index.hotBytes)

/-- The loop of `read_plan` over consecutive hot records. At least one record is taken. -/
def hotRun (hot : SMap Nat HotEntry) (maxBytes : Nat) :
    (fuel cur bytes : Nat) → List WalRecord → List WalRecord
  | 0, _, _, records => records
  | fuel + 1, cur, bytes, records =>
    match hot.get? cur with
    | none => records
    | some entry =>
      if records ≠ [] ∧ bytes + entry.size > maxBytes then records
      else hotRun hot maxBytes fuel (cur + 1) (bytes + entry.size) (records ++ [entry.record])

/-- The loop takes every entry at most once, so the number of entries is fuel enough
(`hotRun_fuel`). -/
def readPlan (offset maxBytes : Nat) : ReadPlan :=
  match index.inner.lookup tp with
  | none => .empty
  | some entries =>
    if entries.nextOffset ≤ offset then .empty
    else if (entries.hot.get? offset).isSome then
      .hot (hotRun entries.hot maxBytes entries.hot.entries.length offset 0 [])
    else
      match entries.cold.floor? offset with
      | none => .empty
      | some (start, range) =>
        if offset < range.endOffset then .cold range.objectKey start range.endOffset else .empty

def getPartitions : List TopicPartition := index.inner.keys

def getColdSegments : List ColdSegment :=
  (index.cold tp).entries.map fun e => ⟨tp, e.1, e.2.endOffset, e.2.objectKey, e.2.sizeBytes⟩

end

/-! ## The views after each operation -/

section views

variable (index : PartitionIndex) (tp tp' : TopicPartition)

variable {k startOffset endOffset sizeBytes : Nat} {index' : PartitionIndex}

theorem lt_nextOffset {e : HotEntry} (h : (index.hot tp).get? k = some e) :
    k < index.nextOffset tp :=
  (index.entries tp).hot_lt k e h

theorem endOffset_le_nextOffset {range : ObjectRange} (h : (index.cold tp).get? k = some range) :
    range.endOffset ≤ index.nextOffset tp :=
  (index.entries tp).cold_le k range h

theorem entries_setEntries (entries : PartitionEntries) (hotBytes : Nat) :
    (index.setEntries tp entries hotBytes).entries tp' =
      if tp' = tp then entries else index.entries tp' := by
  unfold PartitionIndex.entries setEntries
  by_cases h : tp' = tp
  · rw [if_pos h, h, AList.lookup_insert, Option.getD_some]
  · rw [if_neg h, AList.lookup_insert_ne h]

section

variable (offset : Nat)

theorem get?_overwritten {V : Type} (maps : TopicPartition → SMap Nat V) {m : SMap Nat V}
    {v : Option V} {tp tp' : TopicPartition} {offset k : Nat}
    (h : m.get? k = if k = offset then v else (maps tp).get? k) :
    (if tp' = tp then m else maps tp').get? k =
      if tp' = tp ∧ k = offset then v else (maps tp').get? k := by
  by_cases htp : tp' = tp
  · subst htp
    rw [if_pos rfl, h]
    exact if_congr (and_iff_right rfl).symm rfl rfl
  · rw [if_neg htp, if_neg fun hat => htp hat.1]

theorem hot_insertHot (record : WalRecord) (size : Nat) :
    (index.insertHot tp offset record size).hot tp' =
      if tp' = tp then (index.hot tp).insert offset ⟨record, size⟩ else index.hot tp' := by
  unfold hot insertHot
  rw [entries_setEntries, apply_ite PartitionEntries.hot]
  rfl

theorem get?_hot_insertHot (record : WalRecord) (size : Nat) :
    ((index.insertHot tp offset record size).hot tp').get? k =
      if tp' = tp ∧ k = offset then some ⟨record, size⟩ else (index.hot tp').get? k := by
  rw [hot_insertHot]
  exact get?_overwritten index.hot (get?_insert ..)

theorem cold_insertHot (record : WalRecord) (size : Nat) :
    (index.insertHot tp offset record size).cold tp' = index.cold tp' := by
  unfold cold insertHot
  rw [entries_setEntries]
  split
  · rename_i h
    rw [h]
    rfl
  · rfl

theorem nextOffset_insertHot (record : WalRecord) (size : Nat) :
    (index.insertHot tp offset record size).nextOffset tp' =
      if tp' = tp then max (index.nextOffset tp) (offset + 1) else index.nextOffset tp' := by
  unfold nextOffset insertHot
  rw [entries_setEntries, apply_ite PartitionEntries.nextOffset]
  rfl

theorem entries_removeHot : (index.removeHot tp offset).entries tp' =
      if tp' = tp then (index.entries tp).removeHot offset else index.entries tp' := by
  unfold removeHot
  cases hlook : index.inner.lookup tp with
  | none =>
    have hdefault : index.entries tp = .default := by rw [PartitionIndex.entries, hlook]; rfl
    show index.entries tp' = _
    by_cases h : tp' = tp
    · rw [if_pos h, h, hdefault]
      rfl
    · rw [if_neg h]
  | some entries =>
    have hentries : index.entries tp = entries := by rw [PartitionIndex.entries, hlook]; rfl
    show (index.setEntries tp _ _).entries tp' = _
    rw [entries_setEntries, hentries]

theorem hot_removeHot : (index.removeHot tp offset).hot tp' =
      if tp' = tp then (index.hot tp).erase offset else index.hot tp' := by
  unfold hot
  rw [entries_removeHot, apply_ite PartitionEntries.hot]
  rfl

theorem get?_hot_removeHot : ((index.removeHot tp offset).hot tp').get? k =
      if tp' = tp ∧ k = offset then none else (index.hot tp').get? k := by
  rw [hot_removeHot]
  exact get?_overwritten index.hot (get?_erase ..)

theorem cold_removeHot : (index.removeHot tp offset).cold tp' = index.cold tp' := by
  unfold cold
  rw [entries_removeHot]
  split
  · rename_i h
    rw [h]
    rfl
  · rfl

theorem nextOffset_removeHot :
    (index.removeHot tp offset).nextOffset tp' = index.nextOffset tp' := by
  unfold nextOffset
  rw [entries_removeHot]
  split
  · rename_i h
    rw [h]
    rfl
  · rfl

end

section

variable {objectKey : String}
  (h : index.flipToCold tp startOffset endOffset objectKey sizeBytes = some index')
include h

theorem entries_flipToCold : index'.entries tp' =
      if tp' = tp then
        ((index.entries tp).evict startOffset endOffset).insertCold startOffset
          ⟨endOffset, objectKey, sizeBytes⟩
      else index.entries tp' := by
  unfold flipToCold at h
  split at h
  · cases h
  · cases h
    exact entries_setEntries _ _ _ _ _

theorem nextOffset_flipToCold : index'.nextOffset tp' =
      if tp' = tp then max (index.nextOffset tp) endOffset else index.nextOffset tp' := by
  unfold nextOffset
  rw [entries_flipToCold index tp tp' h, apply_ite PartitionEntries.nextOffset]
  rfl

end

theorem entries_insertCold (startOffset endOffset : Nat) (objectKey : String) (sizeBytes : Nat) :
    (index.insertCold tp startOffset endOffset objectKey sizeBytes).entries tp' =
      if tp' = tp then
        (index.entries tp).insertCold startOffset ⟨endOffset, objectKey, sizeBytes⟩
      else index.entries tp' :=
  entries_setEntries _ _ _ _ _

theorem get?_cold_insertCold (startOffset endOffset : Nat) (objectKey : String) (sizeBytes : Nat) :
    ((index.insertCold tp startOffset endOffset objectKey sizeBytes).cold tp').get? k =
      if tp' = tp ∧ k = startOffset then some ⟨endOffset, objectKey, sizeBytes⟩
      else (index.cold tp').get? k := by
  rw [cold, entries_insertCold, apply_ite PartitionEntries.cold]
  exact get?_overwritten index.cold (get?_insert ..)

theorem entries_replaceCold {objectKey : String}
    (h : index.replaceCold tp startOffset endOffset objectKey sizeBytes = some index') :
    index'.entries tp' =
      if tp' = tp then
        ((index.entries tp).subsume startOffset endOffset).insertCold startOffset
          ⟨endOffset, objectKey, sizeBytes⟩
      else index.entries tp' := by
  unfold replaceCold at h
  split at h
  · cases h
  · cases h
    exact entries_setEntries _ _ _ _ _

theorem replaceCold_isSome (h : startOffset ≤ endOffset) (objectKey : String) (sizeBytes : Nat) :
    (index.replaceCold tp startOffset endOffset objectKey sizeBytes).isSome := by
  unfold replaceCold
  rw [if_neg (not_lt.mpr h)]
  rfl

end views

/-! ## The read plan -/

/-- The bound on the offset is not needed: nothing lies behind it. -/
theorem readPlan_eq (index : PartitionIndex) (tp : TopicPartition) (offset maxBytes : Nat) :
    index.readPlan tp offset maxBytes =
      if ((index.hot tp).get? offset).isSome then
        .hot (hotRun (index.hot tp) maxBytes (index.hot tp).entries.length offset 0 [])
      else
        match (index.cold tp).floor? offset with
        | none => .empty
        | some (start, range) =>
          if offset < range.endOffset then .cold range.objectKey start range.endOffset
          else .empty := by
  have hhot : ∀ e, (index.hot tp).get? offset = some e → offset < index.nextOffset tp :=
    fun _ h => index.lt_nextOffset tp h
  have hcold : ∀ found, (index.cold tp).floor? offset = some found →
      found.2.endOffset ≤ index.nextOffset tp :=
    fun _ h => index.endOffset_le_nextOffset tp (SMap.floor?_eq_some_iff.mp h).1
  revert hhot hcold
  unfold readPlan nextOffset hot cold PartitionIndex.entries
  cases index.inner.lookup tp with
  | none => exact fun _ _ => rfl
  | some entries =>
    intro hhot hcold
    dsimp only [Option.getD_some] at hhot hcold ⊢
    split
    · rename_i hbeyond
      have hnone : (entries.hot.get? offset).isSome = false := by
        cases hget : entries.hot.get? offset with
        | none => rfl
        | some e => exact absurd (hhot e hget) (not_lt.mpr hbeyond)
      rw [if_neg (by rw [hnone]; decide)]
      cases hfloor : entries.cold.floor? offset with
      | none => rfl
      | some found => exact (if_neg (not_lt.mpr ((hcold found hfloor).trans hbeyond))).symm
    · rfl

/-- `rs` are the hot records at `cur` and the offsets after it. -/
def HotFrom (hot : SMap Nat HotEntry) : Nat → List WalRecord → Prop
  | _, [] => True
  | cur, r :: rs => (∃ size, hot.get? cur = some ⟨r, size⟩) ∧ HotFrom hot (cur + 1) rs

theorem hotRun_spec (hot : SMap Nat HotEntry) (maxBytes fuel cur bytes : Nat)
    (records : List WalRecord) :
    ∃ rs, hotRun hot maxBytes fuel cur bytes records = records ++ rs ∧ HotFrom hot cur rs ∧
      (records = [] → 0 < fuel → ∀ e, hot.get? cur = some e → rs.head? = some e.record) := by
  induction fuel generalizing cur bytes records with
  | zero => exact ⟨[], (append_nil _).symm, trivial, fun _ h => absurd h (lt_irrefl _)⟩
  | succ fuel ih =>
    unfold hotRun
    cases hget : hot.get? cur with
    | none => exact ⟨[], (append_nil _).symm, trivial, fun _ _ e he => nomatch he⟩
    | some entry =>
      by_cases hstop : records ≠ [] ∧ bytes + entry.size > maxBytes
      · refine ⟨[], ?_, trivial, fun hnil => absurd hnil hstop.1⟩
        simp only [if_pos hstop, append_nil]
      · obtain ⟨rs, hrs, hfrom, -⟩ := ih (cur + 1) (bytes + entry.size) (records ++ [entry.record])
        refine ⟨entry.record :: rs, ?_, ⟨⟨entry.size, hget⟩, hfrom⟩, ?_⟩
        · simp only [if_neg hstop, hrs, append_assoc, cons_append, nil_append]
        · intro _ _ e he
          rw [Option.some.injEq] at he
          rw [head?_cons, he]

theorem le_length_entries {V : Type} {m : SMap Nat V} (start : Nat) {n : Nat}
    (h : ∀ i < n, (m.get? (start + i)).isSome) : n ≤ m.entries.length := by
  have hsub : range' start n ⊆ m.keys := by
    intro k hk
    obtain ⟨i, hi, rfl⟩ := mem_range'.mp hk
    rw [Nat.one_mul]
    exact mem_keys.mpr (Option.isSome_iff_exists.mp (h i hi))
  have hnodup : (range' start n).Nodup := nodup_range'
  have hlen := (hnodup.subperm hsub).length_le
  rwa [length_range', SMap.keys, length_map] at hlen

theorem hotRun_add_of_gap {hot : SMap Nat HotEntry} {maxBytes n fuel cur bytes : Nat}
    {records : List WalRecord} (hgap : ∃ i ≤ fuel, hot.get? (cur + i) = none) :
    hotRun hot maxBytes (fuel + n) cur bytes records =
      hotRun hot maxBytes fuel cur bytes records := by
  induction fuel generalizing cur bytes records with
  | zero =>
    obtain ⟨i, hi, hnone⟩ := hgap
    obtain rfl := Nat.le_zero.mp hi
    cases n with
    | zero => rfl
    | succ n => rw [Nat.zero_add, hotRun, hotRun, show hot.get? cur = none from hnone]
  | succ fuel ih =>
    rw [Nat.add_right_comm, hotRun, hotRun]
    cases hget : hot.get? cur with
    | none => rfl
    | some e =>
      dsimp only
      split
      · rfl
      · obtain ⟨i, hi, hnone⟩ := hgap
        cases i with
        | zero => cases hget.symm.trans hnone
        | succ i => exact ih ⟨i, by omega, by rwa [Nat.add_assoc, Nat.add_comm 1]⟩

/-- **The loop of `read_plan` ends by itself**: more fuel than the map has entries changes
nothing. -/
theorem hotRun_fuel (hot : SMap Nat HotEntry) (maxBytes offset n : Nat) :
    hotRun hot maxBytes (hot.entries.length + n) offset 0 [] =
      hotRun hot maxBytes hot.entries.length offset 0 [] := by
  refine hotRun_add_of_gap ?_
  by_contra hno
  -- without a gap the map would have one key more than it has entries
  have hle : hot.entries.length + 1 ≤ hot.entries.length := by
    refine le_length_entries offset fun i hi => Option.ne_none_iff_isSome.mp fun hnone => ?_
    exact hno ⟨i, Nat.le_of_lt_succ hi, hnone⟩
  omega

end PartitionIndex
end RustMq.Store
