import RustMq.Store.Manifest
import RustMq.Store.Objects
import RustMq.Wal.Log

/-!
# The partition store

`src/storage/partition_store.rs`: the single write path and the single read path of the broker,
over the segmented log, the partition index, the object storage, the download cache and the
cold-index manifest.

The log is the abstract log of the WAL layer, which the byte-level writer refines. `append` has
an await between its two halves, so it is two definitions here, one for indexing the record in
memory and one for what happens when the write to the log returns; callers on other tasks may
run in between. A write to the log that fails may or may not have left its frame in the tail.
-/

namespace RustMq.Store

open Lib List PartitionIndex

structure CompactionConfig where
  enabled : Bool
  smallThresholdBytes : Nat
  targetBytes : Nat
  maxSources : Nat

structure StoreConfig where
  storage : ObjectStorageConfig
  /-- `std::mem::size_of::<WalRecord>()` -/
  walRecordSize : Nat
  hotCacheMaxBytes : Nat
  /-- A reservation service and an epoch source are configured. -/
  fencing : Bool
  compaction : CompactionConfig

structure PartitionStore where
  wal : Wal.Log WalRecord
  index : PartitionIndex
  objects : Objects
  cache : Objects
  manifest : List ManifestRecord

/-- The result of a write to the log. A failed one may have left its frame in the tail. -/
inductive AppendOutcome where
  | ok
  | fail (left : Bool)
  deriving DecidableEq

namespace PartitionStore

/-! ## Append -/

def memSize (cfg : StoreConfig) (r : WalRecord) : Nat :=
  (cfg.walRecordSize + r.record.value.length + (r.record.key.map List.length).getD 0 +
    (r.record.headers.map fun h => h.key.utf8ByteSize + h.value.length).sum) % 2 ^ 32

def hasCapacity (cfg : StoreConfig) (s : PartitionStore) (incoming : Nat) : Prop :=
  cfg.hotCacheMaxBytes = 0 ∨ cfg.hotCacheMaxBytes ≤ incoming ∨
    s.index.hotBytes + incoming ≤ cfg.hotCacheMaxBytes

instance (cfg : StoreConfig) (s : PartitionStore) (incoming : Nat) :
    Decidable (s.hasCapacity cfg incoming) :=
  inferInstanceAs (Decidable (_ ∨ _ ∨ _))

/-- `append` up to the await on the log: the record goes into the hot tier. -/
def appendHot (cfg : StoreConfig) (s : PartitionStore) (r : WalRecord) : PartitionStore :=
  { s with index := s.index.insertHot r.topicPartition r.offset r (memSize cfg r) }

/-- `append` from the log's answer on: a failed write takes the hot entry back. -/
def appendWal (s : PartitionStore) (r : WalRecord) : AppendOutcome → PartitionStore
  | .ok => { s with wal := s.wal.append r }
  | .fail left =>
    { s with
      wal := if left then s.wal.append r else s.wal
      index := s.index.removeHot r.topicPartition r.offset }

def append (cfg : StoreConfig) (s : PartitionStore) (r : WalRecord) (outcome : AppendOutcome) :
    PartitionStore :=
  (s.appendHot cfg r).appendWal r outcome

theorem hot_appendHot (cfg : StoreConfig) (s : PartitionStore) (r : WalRecord)
    (tp : TopicPartition) :
    (s.appendHot cfg r).index.hot tp =
      if tp = r.topicPartition then
        (s.index.hot r.topicPartition).insert r.offset ⟨r, memSize cfg r⟩
      else s.index.hot tp :=
  hot_insertHot _ _ _ _ _ _

theorem hot_appendWal_fail (s : PartitionStore) (r : WalRecord) (left : Bool)
    (tp : TopicPartition) :
    (s.appendWal r (.fail left)).index.hot tp =
      if tp = r.topicPartition then (s.index.hot r.topicPartition).erase r.offset
      else s.index.hot tp :=
  hot_removeHot _ _ _ _

/-! ## Read -/

/-- The loop of `read` over a downloaded segment. At least one record is taken. -/
def takeBytes (cfg : StoreConfig) (maxBytes : Nat) :
    (bytes : Nat) → (out records : List WalRecord) → List WalRecord
  | _, out, [] => out
  | bytes, out, r :: records =>
    if out ≠ [] ∧ bytes + memSize cfg r > maxBytes then out
    else takeBytes cfg maxBytes (bytes + memSize cfg r) (out ++ [r]) records

theorem takeBytes_all {cfg : StoreConfig} {maxBytes bytes : Nat} {out rs : List WalRecord}
    (hsize : bytes + (rs.map (memSize cfg)).sum ≤ maxBytes) :
    takeBytes cfg maxBytes bytes out rs = out ++ rs := by
  induction rs generalizing bytes out with
  | nil => exact (append_nil out).symm
  | cons r rs ih =>
    rw [map_cons, sum_cons] at hsize
    rw [takeBytes, if_neg (by omega), ih (by omega), append_assoc]
    rfl

def cached (cache : Objects) (key : String) : Option (List WalRecord) :=
  (cache key).bind fun bytes => (deserializeRecords bytes).toOption

theorem cached_put (cache : Objects) (key key' : String) (bytes : Bytes) :
    cached (cache.put key bytes) key' =
      if key' = key then (deserializeRecords bytes).toOption else cached cache key' := by
  unfold cached Objects.put
  rw [Function.update_apply]
  split <;> rfl

/-- One pass of the loop of `read`, with the cache after it. -/
def readOnce (cfg : StoreConfig) (s : PartitionStore) (cache : Objects) (tp : TopicPartition)
    (offset maxBytes : Nat) : Except RustMqError (List WalRecord) × Objects :=
  match s.index.readPlan tp offset maxBytes with
  | .hot records => (.ok records, cache)
  | .empty => (.ok [], cache)
  | .cold key _ _ =>
    match cached cache (cacheKey tp offset) with
    | some records => (.ok records, cache)
    | none =>
      match downloadSegment cfg.storage s.objects key with
      | .error e => (.error e, cache)
      | .ok segment =>
        match deserializeRecords segment.data with
        | .error _ => (.error (.storage ("failed to decode cold segment " ++ key)), cache)
        | .ok all =>
          let out := takeBytes cfg maxBytes 0 [] (all.filter fun r => offset ≤ r.offset)
          match serializeRecords out with
          | .ok bytes => (.ok out, cache.put (cacheKey tp offset) bytes)
          | .error _ => (.ok out, cache)

/-- `read`: an object that is gone makes it drop the cache entry and resolve once more. -/
def read (cfg : StoreConfig) (s : PartitionStore) (tp : TopicPartition) (offset maxBytes : Nat) :
    Except RustMqError (List WalRecord) × Objects :=
  match readOnce cfg s s.cache tp offset maxBytes with
  | (.error (.notFound _), cache) =>
    readOnce cfg s (cache.delete (cacheKey tp offset)) tp offset maxBytes
  | result => result

theorem read_of_hot (cfg : StoreConfig) (s : PartitionStore) {tp : TopicPartition} {offset : Nat}
    {e : HotEntry} (h : (s.index.hot tp).get? offset = some e) (maxBytes : Nat) :
    ∃ rest, s.read cfg tp offset maxBytes = (.ok (e.record :: rest), s.cache) ∧
      PartitionIndex.HotFrom (s.index.hot tp) offset (e.record :: rest) := by
  obtain ⟨rs, hrun, hfrom, hhead⟩ := hotRun_spec (s.index.hot tp) maxBytes
    (s.index.hot tp).entries.length offset 0 []
  have hfuel : 0 < (s.index.hot tp).entries.length :=
    length_pos_iff.mpr (ne_nil_of_mem (SMap.get?_eq_some_iff.mp h))
  have hplan : s.index.readPlan tp offset maxBytes = .hot rs := by
    rw [readPlan_eq, if_pos (by rw [h]; rfl), hrun, nil_append]
  cases rs with
  | nil => exact nomatch hhead rfl hfuel e h
  | cons r rest =>
    have hr : r = e.record := Option.some.inj (hhead rfl hfuel e h)
    subst hr
    refine ⟨rest, ?_, hfrom⟩
    unfold read readOnce
    rw [hplan]

theorem takeBytes_run (cfg : StoreConfig) (maxBytes : Nat) (records : List WalRecord) :
    ∀ bytes out, ∃ taken, taken <+: records ∧
      takeBytes cfg maxBytes bytes out records = out ++ taken ∧
      (out = [] → records ≠ [] → taken ≠ []) := by
  induction records with
  | nil =>
    intro bytes out
    exact ⟨[], prefix_refl _, (append_nil out).symm, fun _ h => absurd rfl h⟩
  | cons r records ih =>
    intro bytes out
    unfold takeBytes
    by_cases hstop : out ≠ [] ∧ bytes + memSize cfg r > maxBytes
    · rw [if_pos hstop]
      exact ⟨[], nil_prefix, (append_nil out).symm, fun h => absurd h hstop.1⟩
    · rw [if_neg hstop]
      obtain ⟨taken, hpre, heq, -⟩ := ih (bytes + memSize cfg r) (out ++ [r])
      refine ⟨r :: taken, cons_prefix_cons.mpr ⟨rfl, hpre⟩, ?_, fun _ _ h => (nomatch h)⟩
      rw [heq, append_assoc, singleton_append]

section

variable {cfg : StoreConfig} {s : PartitionStore} {tp : TopicPartition} {o start : Nat}
  {range : ObjectRange} (hhot : ((s.index.hot tp).get? o).isSome = false)
include hhot

theorem read_of_none (hcold : ∀ start range, (s.index.cold tp).floor? o = some (start, range) →
    range.endOffset ≤ o) (maxBytes : Nat) : s.read cfg tp o maxBytes = (.ok [], s.cache) := by
  have hplan : s.index.readPlan tp o maxBytes = .empty := by
    rw [readPlan_eq, if_neg (by rw [hhot]; decide)]
    split
    · rfl
    · rename_i start range hfloor
      exact if_neg (not_lt.mpr (hcold start range hfloor))
  unfold read readOnce
  rw [hplan]

variable (hfloor : (s.index.cold tp).floor? o = some (start, range)) (hend : o < range.endOffset)
include hfloor hend

theorem read_of_cached {rs : List WalRecord} (hcached : cached s.cache (cacheKey tp o) = some rs)
    (maxBytes : Nat) : s.read cfg tp o maxBytes = (.ok rs, s.cache) := by
  unfold read readOnce
  rw [readPlan_eq, if_neg (by rw [hhot]; decide), hfloor]
  simp only [if_pos hend, hcached]

theorem read_of_cold {segment : WalSegment} {all : List WalRecord}
    (hdown : downloadSegment cfg.storage s.objects range.objectKey = .ok segment)
    (hdec : deserializeRecords segment.data = .ok all)
    (hcached : cached s.cache (cacheKey tp o) = none) (maxBytes : Nat) :
    ∃ taken cache, s.read cfg tp o maxBytes = (.ok taken, cache) ∧
      taken <+: all.filter (fun r => o ≤ r.offset) ∧
      (all.filter (fun r => o ≤ r.offset) ≠ [] → taken ≠ []) ∧
      (cache = s.cache ∨ ∃ bytes, serializeRecords taken = .ok bytes ∧
        cache = s.cache.put (cacheKey tp o) bytes) := by
  obtain ⟨taken, hpre, htaken, hne⟩ := takeBytes_run cfg maxBytes
    (all.filter fun r => o ≤ r.offset) 0 []
  rw [nil_append] at htaken
  unfold read readOnce
  rw [readPlan_eq, if_neg (by rw [hhot]; decide), hfloor]
  simp only [if_pos hend, hcached, hdown, hdec, htaken]
  cases hser : serializeRecords taken with
  | ok bytes => exact ⟨taken, _, rfl, hpre, hne rfl, .inr ⟨bytes, hser, rfl⟩⟩
  | error e => exact ⟨taken, _, rfl, hpre, hne rfl, .inl rfl⟩

end

/-! ## Groups of a segment -/

def recordsOf (tp : TopicPartition) (records : List WalRecord) : List WalRecord :=
  records.filter fun r => r.topicPartition = tp

def partitionsOf (records : List WalRecord) : List TopicPartition :=
  (records.map WalRecord.topicPartition).dedup

def groupStart (recs : List WalRecord) : Nat := (recs.head?.map WalRecord.offset).getD 0

def groupEnd (recs : List WalRecord) : Nat := (recs.getLast?.map fun r => r.offset + 1).getD 0

theorem recordsOf_append (tp : TopicPartition) (xs ys : List WalRecord) :
    recordsOf tp (xs ++ ys) = recordsOf tp xs ++ recordsOf tp ys :=
  filter_append ..

theorem recordsOf_singleton_self (r : WalRecord) : recordsOf r.topicPartition [r] = [r] :=
  filter_cons_of_pos (decide_eq_true rfl)

theorem recordsOf_singleton_of_ne {tp : TopicPartition} {r : WalRecord}
    (h : tp ≠ r.topicPartition) : recordsOf tp [r] = [] :=
  filter_cons_of_neg (by simpa using fun h' => h h'.symm)

/-! ## Recovery -/

def indexCold (live : List ColdSegment) (index : PartitionIndex) : PartitionIndex :=
  live.foldl (fun index seg => index.insertCold seg.topicPartition seg.startOffset seg.endOffset
    seg.objectKey seg.sizeBytes) index

def indexHot (cfg : StoreConfig) (records : List WalRecord) (index : PartitionIndex) :
    PartitionIndex :=
  records.foldl (fun index r => index.insertHot r.topicPartition r.offset r (memSize cfg r)) index

/-- Recovery GC: `deleted` says which of the deletions succeeded. -/
def collectOrphans (orphans : List String) (deleted : String → Bool) (objects : Objects) :
    Objects :=
  orphans.foldl (fun objects key => if deleted key then objects.delete key else objects) objects

/-- The records of a log in segment order (`recover` without the locations). -/
def walRecords (wal : Wal.Log WalRecord) : List WalRecord :=
  wal.sealedSegs.entries.flatMap Prod.snd ++ wal.active

/-- `new_with_fencing` over the surviving log, manifest and objects, with an empty cache. -/
def newWithFencing (cfg : StoreConfig) (wal : Wal.Log WalRecord) (manifest : List ManifestRecord)
    (objects : Objects) (deleted : String → Bool) : Option PartitionStore :=
  (fold manifest).map fun load =>
    { wal := wal
      index := indexHot cfg (walRecords wal) (indexCold load.live .new)
      objects := collectOrphans load.orphanObjectKeys deleted objects
      cache := fun _ => none
      manifest := manifest }

end PartitionStore

/-- Local storage with the threshold of `config/broker.toml` and the compaction defaults, no
memory budget, no fencing. -/
def plainConfig : StoreConfig where
  storage := ⟨.localFs, 10485760, ⟨id, .ok, fun _ => rfl⟩⟩
  walRecordSize := 352
  hotCacheMaxBytes := 0
  fencing := false
  compaction := ⟨true, 10 * 1024 * 1024, 64 * 1024 * 1024, 10⟩

def PartitionStore.empty : PartitionStore where
  wal := .empty
  index := .new
  objects := fun _ => none
  cache := fun _ => none
  manifest := []

end RustMq.Store
