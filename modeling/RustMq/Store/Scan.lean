import RustMq.Store.Recovery

/-!
# Reading through tiering and compaction

A consumer reads a partition by calling `read` again and again, each time behind the last record
it got, until it gets nothing. Tiering moves records from memory into objects and compaction
merges objects, in many small steps, and none of them may be seen in what the consumer reads.

What such a scan returns is a function of two things: the records the partition has, and the
offsets a read finds something at, which are those of the hot records and all those inside a cold
range (`readable`). `Book` says that the hot tier, the objects, the cache and the log agree on the
records, and every step of the two tasks keeps both.
-/

namespace RustMq.Store

open Lib Lib.Extent PartitionStore List PartitionIndex

/-! ## Scanning -/

/-- Read behind the last record until nothing comes, with the given `max_bytes` values. `none`
when they run out before. -/
def scan (cfg : StoreConfig) (tp : TopicPartition) :
    PartitionStore → Nat → List Nat → Option (Except RustMqError (List WalRecord))
  | _, _, [] => none
  | s, offset, maxBytes :: sizes =>
    match s.read cfg tp offset maxBytes with
    | (.error e, _) => some (.error e)
    | (.ok rs, cache) =>
      match rs.getLast? with
      | none => some (.ok [])
      | some last =>
        (scan cfg tp { s with cache := cache } (last.offset + 1) sizes).map
          fun rest => rest.map (rs ++ ·)

/-- The offsets at which a read finds something. -/
def reach (index : PartitionIndex) (tp : TopicPartition) : Set Nat :=
  {k | ((index.hot tp).get? k).isSome = true ∨ ∃ I ∈ coldExtents index tp, Contains I k}

def Covers (K : Set Nat) (o k : Nat) : Prop := ∀ j, o ≤ j → j ≤ k → j ∈ K

open Classical in
/-- **What a scan from `o` returns**: the records up to the first offset out of reach. -/
noncomputable def readable (recs : List WalRecord) (K : Set Nat) (o : Nat) : List WalRecord :=
  recs.filter fun r => o ≤ r.offset ∧ Covers K o r.offset

def within (recs : List WalRecord) (I : Extent) : List WalRecord :=
  recs.filter fun r => I.1 ≤ r.offset ∧ r.offset < I.2

variable {cfg : StoreConfig} {s : PartitionStore} {tp : TopicPartition}
  {recs group : List WalRecord} {K : Set Nat} {I : Extent} {r last : WalRecord} {o : Nat}
  {rs : List WalRecord} {e : Engine} {objects : Objects} {s' : PartitionStore} {seg : ColdSegment}

theorem mem_within : r ∈ within recs I ↔ r ∈ recs ∧ Contains I r.offset := by
  unfold within
  rw [mem_filter, decide_eq_true_eq]
  rfl

section increasing

variable (hinc : Increasing recs)
include hinc

theorem Increasing.filter (p : WalRecord → Bool) : Increasing (recs.filter p) :=
  Pairwise.filter p hinc

/-- What is left behind a run of records from `o` on. -/
theorem Increasing.drop_run {rest : List WalRecord}
    (h : recs.filter (fun r => o ≤ r.offset) = rs ++ rest) (hlast : rs.getLast? = some last) :
    o ≤ last.offset ∧ recs.filter (fun r => last.offset + 1 ≤ r.offset) = rest := by
  have hle : o ≤ last.offset := by
    have hin : last ∈ recs.filter fun r => o ≤ r.offset :=
      h ▸ mem_append_left rest (mem_of_getLast? hlast)
    simpa using (mem_filter.mp hin).2
  have hinc := hinc.filter fun r => o ≤ r.offset
  have hbehind : recs.filter (fun r => last.offset + 1 ≤ r.offset) =
      (rs ++ rest).filter fun r => last.offset + 1 ≤ r.offset := by
    rw [← h, filter_filter]
    refine filter_congr fun r hr => ?_
    rw [← Bool.decide_and, decide_eq_decide]
    omega
  rw [h] at hinc
  obtain ⟨init, rfl⟩ := getLast?_eq_some_iff.mp hlast
  obtain ⟨hinit, -, hbefore⟩ := pairwise_append.mp hinc
  obtain ⟨-, -, hbelow⟩ := pairwise_append.mp hinit
  have hnone : (init ++ [last]).filter (fun r => last.offset + 1 ≤ r.offset) = [] := by
    rw [filter_eq_nil_iff]
    intro a ha
    rw [decide_eq_true_eq]
    rcases mem_append.mp ha with ha | ha
    · have := hbelow a ha last (mem_singleton_self _)
      omega
    · rw [mem_singleton.mp ha]
      omega
  have hall : rest.filter (fun r => last.offset + 1 ≤ r.offset) = rest := by
    rw [filter_eq_self]
    intro a ha
    rw [decide_eq_true_eq]
    exact hbefore last (mem_append_right _ (mem_singleton_self _)) a ha
  rw [hbehind, filter_append, hnone, hall, nil_append]
  exact ⟨hle, rfl⟩

theorem Increasing.within_append {a b c : Nat} (hab : a ≤ b) (hbc : b ≤ c) :
    within recs (a, c) = within recs (a, b) ++ within recs (b, c) := by
  have hsplit := (hinc.filter fun r => a ≤ r.offset ∧ r.offset < c).filter_lt_append b
  rw [filter_filter, filter_filter] at hsplit
  refine hsplit.symm.trans ?_
  congr 1
  · refine filter_congr fun r _ => ?_
    rw [← Bool.decide_and, decide_eq_decide]
    omega
  · refine filter_congr fun r _ => ?_
    rw [← Bool.decide_and, decide_eq_decide]
    omega

end increasing

section readable

theorem readable_of_not_mem (ho : o ∉ K) : readable recs K o = [] := by
  classical
  unfold readable
  rw [filter_eq_nil_iff]
  intro r hr
  rw [decide_eq_true_eq]
  rintro ⟨hle, hcovers⟩
  exact ho (hcovers o le_rfl hle)

theorem readable_append (hinc : Increasing recs) (hrun : rs <+: recs.filter fun r => o ≤ r.offset)
    (hcovers : ∀ r ∈ rs, Covers K o r.offset) (hlast : rs.getLast? = some last) :
    readable recs K o = rs ++ readable recs K (last.offset + 1) := by
  classical
  obtain ⟨rest, hrest⟩ := hrun
  obtain ⟨hle, hbehind⟩ := hinc.drop_run hrest.symm hlast
  have hleft : readable recs K o =
      (recs.filter fun r => o ≤ r.offset).filter fun r => Covers K o r.offset := by
    unfold readable
    rw [filter_filter]
    refine filter_congr fun r hr => ?_
    rw [← Bool.decide_and, decide_eq_decide, and_comm]
  have hright : readable recs K (last.offset + 1) =
      rest.filter fun r => Covers K (last.offset + 1) r.offset := by
    unfold readable
    rw [← hbehind, filter_filter]
    refine filter_congr fun r hr => ?_
    rw [← Bool.decide_and, decide_eq_decide, and_comm]
  rw [hleft, hright, ← hrest, filter_append]
  congr 1
  · rw [filter_eq_self]
    exact fun r hr => decide_eq_true (hcovers r hr)
  · refine filter_congr fun r hr => ?_
    rw [decide_eq_decide]
    -- up to the last record of the run everything is covered
    constructor
    · exact fun h j hj hjr => h j (by omega) hjr
    · intro h j hj hjr
      by_cases hjl : j ≤ last.offset
      · exact hcovers last (mem_of_getLast? hlast) j hj hjl
      · exact h j (by omega) hjr

end readable

/-! ## The records of a partition, wherever they are -/

/-- A cached batch is a first part of what is left, all of it in reach. -/
structure Batch (recs : List WalRecord) (K : Set Nat) (o : Nat) (rs : List WalRecord) : Prop where
  nonempty : rs ≠ []
  run : rs <+: recs.filter fun r => o ≤ r.offset
  covers : ∀ r ∈ rs, Covers K o r.offset

/-- `recs` are the records of the partition and `K` the offsets in reach. -/
structure Book (cfg : StoreConfig) (s : PartitionStore) (tp : TopicPartition)
    (recs : List WalRecord) (K : Set Nat) : Prop where
  increasing : Increasing recs
  own : ∀ r ∈ recs, r.topicPartition = tp ∧ Readable r
  reach : reach s.index tp = K
  tiling : Tiling (coldExtents s.index tp)
  keyed : ColdKeyed s.index
  hot : ∀ k entry, (s.index.hot tp).get? k = some entry →
    entry.record ∈ recs ∧ entry.record.offset = k
  /-- A cold range ends behind a record, and its object has the records of the range. -/
  cold : ∀ I ∈ coldExtents s.index tp, (∃ r ∈ recs, I.2 = r.offset + 1) ∧
    StoredAs cfg s.objects tp I (within recs I)
  cache : ∀ o rs, cached s.cache (cacheKey tp o) = some rs → Batch recs K o rs

theorem Increasing.filter_cons (hinc : Increasing recs) (hr : r ∈ recs) :
    recs.filter (fun a => r.offset ≤ a.offset) =
      r :: recs.filter fun a => r.offset + 1 ≤ a.offset := by
  obtain ⟨rest, hrest⟩ := hinc.filter_head hr
  have hsplit : recs.filter (fun a => r.offset ≤ a.offset) = [r] ++ rest := hrest
  have hlast : [r].getLast? = some r := rfl
  rw [hrest, (hinc.drop_run hsplit hlast).2]

theorem hotFrom_batch {hot : SMap Nat HotEntry} (hinc : Increasing recs)
    (hhot : ∀ k entry, hot.get? k = some entry → entry.record ∈ recs ∧ entry.record.offset = k)
    (hK : ∀ k, (hot.get? k).isSome = true → k ∈ K) :
    ∀ {cur : Nat}, PartitionIndex.HotFrom hot cur rs →
      rs <+: recs.filter (fun r => cur ≤ r.offset) ∧ ∀ r ∈ rs, Covers K cur r.offset := by
  induction rs with
  | nil => exact fun _ => ⟨ nil_prefix, fun r hr => (nomatch hr)⟩
  | cons r rs ih =>
    intro cur h
    obtain ⟨⟨size, hget⟩, hrest⟩ := h
    obtain ⟨hmem, hoffset⟩ := hhot cur _ hget
    have hoffset' : r.offset = cur := hoffset
    obtain ⟨hrun, hcovers⟩ := ih hrest
    have hcur : cur ∈ K := hK cur (by rw [hget]; rfl)
    refine ⟨?_, fun a ha j hj hja => ?_⟩
    · rw [← hoffset', hinc.filter_cons hmem, hoffset']
      exact cons_prefix_cons.mpr ⟨rfl, hrun⟩
    · by_cases hjc : j = cur
      · rw [hjc]
        exact hcur
      · rcases mem_cons.mp ha with rfl | ha
        · exact absurd hja (by omega)
        · exact hcovers a ha j (by omega) hja

namespace Book

variable (h : Book cfg s tp recs K)
include h

theorem mem_reach {k : Nat} : k ∈ K ↔ ((s.index.hot tp).get? k).isSome = true ∨
      ∃ I ∈ coldExtents s.index tp, Contains I k := by
  rw [← h.reach]
  rfl

theorem fits (hrs : ∀ r ∈ rs, r ∈ recs) :
    ∀ r ∈ rs, walRecordFields.Fits r := fun r hr => (h.own r (hrs r hr)).2.fits

theorem download (hI : I ∈ coldExtents s.index tp) :
    ∃ segment, downloadSegment cfg.storage s.objects (objectKey tp I.1 I.2) = .ok segment ∧
      deserializeRecords segment.data = .ok (within recs I) := by
  obtain ⟨⟨last, hlast, hend⟩, data, hdata, hobject⟩ := h.cold I hI
  obtain ⟨htp, hlastreadable⟩ := h.own last hlast
  have hlt := h.tiling.nonempty I hI
  have hbound := hlastreadable.offset
  have hparse : parseObjectKey (objectKey tp I.1 I.2) = .ok (tp, I.1, I.2) :=
    parseObjectKey_objectKey (htp ▸ hlastreadable.topic) (htp ▸ hlastreadable.partition) (by omega)
      (by omega)
  refine ⟨_, downloadSegment_of_stored hobject hparse, ?_⟩
  exact deserializeRecords_of_serializeRecords (h.fits fun r hr => (mem_within.mp hr).1) hdata

theorem put_cache {bytes : Bytes} (hbatch : Batch recs K o rs)
    (hser : serializeRecords rs = .ok bytes) :
    Book cfg { s with cache := s.cache.put (cacheKey tp o) bytes } tp recs K := by
  refine { h with cache := ?_ }
  intro o' rs' hrs'
  rw [cached_put] at hrs'
  split at hrs'
  · rename_i hkey
    obtain ⟨-, rfl⟩ := cacheKey_inj hkey
    have hfits := h.fits fun r hr => (mem_filter.mp (hbatch.run.subset hr)).1
    rw [deserializeRecords_of_serializeRecords hfits hser] at hrs'
    cases hrs'
    exact hbatch
  · exact h.cache o' rs' hrs'

/-- **One read** in reach returns a batch, one out of reach returns nothing; the books stay as
they are. -/
theorem read (o maxBytes : Nat) : ∃ rs cache, s.read cfg tp o maxBytes = (.ok rs, cache) ∧
      Book cfg { s with cache := cache } tp recs K ∧
      (o ∉ K → rs = []) ∧ (o ∈ K → Batch recs K o rs) := by
  cases hhot : (s.index.hot tp).get? o with
  | some entry =>
    obtain ⟨rest, hread, hfrom⟩ := read_of_hot cfg s hhot maxBytes
    have ho : o ∈ K := h.mem_reach.mpr (.inl (by rw [hhot]; rfl))
    obtain ⟨hrun, hcovers⟩ := hotFrom_batch (K := K) h.increasing h.hot
      (fun k hk => h.mem_reach.mpr (.inl hk)) hfrom
    exact ⟨_, _, hread, h, fun hnot => absurd ho hnot, fun _ => ⟨cons_ne_nil _ _, hrun, hcovers⟩⟩
  | none =>
    by_cases ho : o ∈ K
    · obtain ⟨I, hI, hin⟩ := (h.mem_reach.mp ho).resolve_left fun hsome => by
        rw [hhot] at hsome
        cases hsome
      obtain ⟨segment, hdown, hdec⟩ := h.download hI
      obtain ⟨⟨last, hlast, hlastend⟩, -⟩ := h.cold I hI
      have hI' := hI
      obtain ⟨range, hget, hend⟩ := hI'
      have hkey : range.objectKey = objectKey tp I.1 I.2 := hend ▸ h.keyed tp I.1 range hget
      have hfloor := floor?_of_contains h.tiling hget hend hin
      have hlt : o < range.endOffset := hend ▸ hin.2
      rw [← hkey] at hdown
      cases hcached : cached s.cache (cacheKey tp o) with
      | some rs =>
        exact ⟨rs, s.cache, read_of_cached (by rw [hhot]; rfl) hfloor hlt hcached maxBytes, h,
          fun hnot => absurd ho hnot, fun _ => h.cache o rs hcached⟩
      | none =>
        obtain ⟨taken, cache, hread, hpre, hne, hcache⟩ := read_of_cold (by rw [hhot]; rfl) hfloor
          hlt hdown hdec hcached maxBytes
        -- the records of the range from `o` on are the first part of all from `o` on
        have hpart : (within recs I).filter (fun r => o ≤ r.offset) <+:
            recs.filter fun r => o ≤ r.offset := by
          have heq : (within recs I).filter (fun r => o ≤ r.offset) =
              (recs.filter fun r => o ≤ r.offset).filter fun r => r.offset < I.2 := by
            unfold within
            rw [filter_filter, filter_filter]
            refine filter_congr fun r hr => ?_
            have := hin.1
            rw [← Bool.decide_and, ← Bool.decide_and, decide_eq_decide]
            omega
          rw [heq]
          exact ⟨_, (h.increasing.filter _).filter_lt_append I.2⟩
        have hmem : ∀ r ∈ taken, r ∈ within recs I := fun r hr =>
          (mem_filter.mp (hpre.subset hr)).1
        have hleft : (within recs I).filter (fun r => o ≤ r.offset) ≠ [] := by
          refine ne_nil_of_mem (mem_filter.mpr ⟨mem_within.mpr ⟨hlast, ?_⟩, ?_⟩)
          · have := h.tiling.nonempty I hI
            exact ⟨by omega, by omega⟩
          · have := hin.2
            rw [decide_eq_true_eq]
            omega
        have hbatch : Batch recs K o taken := by
          refine ⟨hne hleft, hpre.trans hpart, fun r hr j hj hjr => ?_⟩
          have hr' := (mem_within.mp (hmem r hr)).2
          exact h.mem_reach.mpr (.inr ⟨I, hI, hin.1.trans hj, lt_of_le_of_lt hjr hr'.2⟩)
        refine ⟨taken, cache, hread, ?_, fun hnot => absurd ho hnot, fun _ => hbatch⟩
        rcases hcache with rfl | ⟨bytes, hser, rfl⟩
        · exact h
        · exact h.put_cache hbatch hser
    · -- out of reach: the read plan is empty
      refine ⟨[], s.cache, read_of_none (by rw [hhot]; rfl) (fun start range hfloor => ?_) maxBytes,
        h, fun _ => rfl, fun hin => absurd hin ho⟩
      obtain ⟨hget, hle, -⟩ := SMap.floor?_eq_some_iff.mp hfloor
      refine not_lt.mp fun hlt => ho (h.mem_reach.mpr (.inr ?_))
      exact ⟨(start, range.endOffset), ⟨range, hget, rfl⟩, hle, hlt⟩

/-- **A scan returns what is readable**, whatever the sizes, when there are enough of them. -/
theorem scan (o : Nat) (sizes : List Nat)
    (hsizes : (recs.filter fun r => o ≤ r.offset).length < sizes.length) :
    scan cfg tp s o sizes = some (.ok (readable recs K o)) := by
  induction sizes generalizing s o with
  | nil => exact absurd hsizes (Nat.not_lt_zero _)
  | cons maxBytes sizes ih =>
    obtain ⟨rs, cache, hread, hbook, hout, hin⟩ := h.read o maxBytes
    rw [Store.scan, hread]
    by_cases ho : o ∈ K
    · have hbatch := hin ho
      obtain ⟨last, hlast⟩ : ∃ last, rs.getLast? = some last :=
        ⟨_, getLast?_eq_some_getLast hbatch.nonempty⟩
      have hless : (recs.filter fun r => last.offset + 1 ≤ r.offset).length < sizes.length := by
        obtain ⟨rest, hrest⟩ := hbatch.run
        rw [(h.increasing.drop_run hrest.symm hlast).2]
        rw [← hrest, length_append, length_cons] at hsizes
        have hpos := length_pos_iff.mpr hbatch.nonempty
        omega
      simp only [hlast, ih hbook (last.offset + 1) hless, Option.map_some, Except.map]
      rw [readable_append h.increasing hbatch.run hbatch.covers hlast]
    · rw [hout ho, readable_of_not_mem ho]
      rfl

end Book

/-! ## What the tasks hold -/

/-- A group of the log: all records of its range, which is in reach. -/
structure GroupOk (recs : List WalRecord) (K : Set Nat) (group : List WalRecord) : Prop where
  nonempty : group ≠ []
  eq : group = within recs (span group)
  covers : ∀ k, Contains (span group) k → k ∈ K

theorem GroupOk.ends (h : GroupOk recs K group) : ∃ r ∈ recs, (span group).2 = r.offset + 1 := by
  obtain ⟨r, hr, hend⟩ := span_end h.nonempty
  rw [h.eq] at hr
  exact ⟨r, (mem_within.mp hr).1, hend⟩

structure LogAgrees (wal : Wal.Log WalRecord) (tp : TopicPartition) (recs : List WalRecord)
    (K : Set Nat) : Prop where
  segments : ∀ seq xs, wal.sealedSegs.get? seq = some xs → recordsOf tp xs ≠ [] →
    GroupOk recs K (recordsOf tp xs)
  active : recordsOf tp wal.active ≠ [] → GroupOk recs K (recordsOf tp wal.active)

/-- An uploaded segment of the partition: its object has the records of its range, unless a merge
has swallowed the range. -/
structure SegmentOk (cfg : StoreConfig) (objects : Objects) (L : TopicPartition → Set Extent)
    (tp : TopicPartition) (recs : List WalRecord) (K : Set Nat) (seg : ColdSegment) : Prop where
  ends : ∃ r ∈ recs, seg.endOffset = r.offset + 1
  covers : ∀ k, Contains seg.extent k → k ∈ K
  stored : StoredAs cfg objects tp seg.extent (within recs seg.extent) ∨
    Swallowed (L tp) seg.extent

def TierBook (cfg : StoreConfig) (objects : Objects) (L : TopicPartition → Set Extent)
    (tp : TopicPartition) (recs : List WalRecord) (K : Set Nat) : Tiering → Prop
  | .group _ groups => ∀ g ∈ groups, g.topicPartition = tp → GroupOk recs K g.records
  | .uploaded _ groups seg | .registered _ groups seg =>
    (∀ g ∈ groups, g.topicPartition = tp → GroupOk recs K g.records) ∧
      (seg.topicPartition = tp → SegmentOk cfg objects L tp recs K seg)
  | .idle | .cycle _ | .panicked => True

/-- The records merged so far are those from the start of the plan up to the expected offset, and
the sources still to come go on from there. -/
structure MergeOk (plan : CompactionPlan) (recs : List WalRecord) (sources : List ColdSegment)
    (merged : List WalRecord) (expected : Nat) : Prop where
  le : plan.startOffset ≤ expected
  eq : merged = within recs (plan.startOffset, expected)
  chain : Chain (sources.map ColdSegment.extent) expected plan.endOffset
  mem : ∀ source ∈ sources, source ∈ plan.sources

def CompactionBook (cfg : StoreConfig) (objects : Objects) (tp : TopicPartition)
    (recs : List WalRecord) : Compaction → Prop
  | .downloading plan _ sources merged expected =>
    plan.topicPartition = tp → MergeOk plan recs sources merged expected
  | .uploaded plan _ _ | .recorded plan _ _ =>
    plan.topicPartition = tp → StoredAs cfg objects tp plan.extent (within recs plan.extent)
  | _ => True

structure Engine.Agrees (cfg : StoreConfig) (e : Engine) (tp : TopicPartition)
    (recs : List WalRecord) (K : Set Nat) : Prop where
  book : Book cfg e.store tp recs K
  log : LogAgrees e.store.wal tp recs K
  tier : TierBook cfg e.store.objects (liveExtents e.store.manifest) tp recs K e.tiering
  compaction : CompactionBook cfg e.store.objects tp recs e.compaction

/-- Stored ranges stay stored, unless they are swallowed. -/
def KeepsStored (cfg : StoreConfig) (L : TopicPartition → Set Extent) (objects objects' : Objects)
    (tp : TopicPartition) (recs : List WalRecord) : Prop :=
  ∀ I, StoredAs cfg objects tp I (within recs I) →
    StoredAs cfg objects' tp I (within recs I) ∨ Swallowed (L tp) I

section objects

variable {L L' : TopicPartition → Set Extent} {objects' : Objects} {tiering : Tiering}
  {compaction : Compaction}

theorem KeepsStored.refl : KeepsStored cfg L objects objects tp recs := fun _ h => Or.inl h

theorem KeepsStored.delete {key : String} (hkey : Superseded L key) :
    KeepsStored cfg L objects (objects.delete key) tp recs := by
  obtain ⟨tp₀, J, rfl, hJ⟩ := hkey
  rintro I ⟨data, hdata, hobject⟩
  by_cases heq : objectKey tp I.1 I.2 = objectKey tp₀ J.1 J.2
  · obtain ⟨rfl, hlo, hhi⟩ := objectKey_inj heq
    exact .inr ((Prod.ext hlo hhi : I = J) ▸ hJ)
  · refine .inl ⟨data, hdata, ?_⟩
    rw [Objects.delete, Function.update_of_ne heq]
    exact hobject

theorem TierBook.mono (h : TierBook cfg objects L tp recs K tiering)
    (hL : ∀ I, Swallowed (L tp) I → Swallowed (L' tp) I)
    (hkeep : KeepsStored cfg L' objects objects' tp recs) :
    TierBook cfg objects' L' tp recs K tiering := by
  have hseg : ∀ {seg}, SegmentOk cfg objects L tp recs K seg →
      SegmentOk cfg objects' L' tp recs K seg := fun h =>
    ⟨h.ends, h.covers, h.stored.elim (hkeep _) fun hsw => .inr (hL _ hsw)⟩
  cases tiering with
  | uploaded | registered => exact ⟨h.1, fun htp => hseg (h.2 htp)⟩
  | group task groups => exact h
  | idle | cycle | panicked => trivial

theorem CompactionBook.mono (h : CompactionBook cfg objects tp recs compaction)
    (hkeep : ∀ I, StoredAs cfg objects tp I (within recs I) →
      StoredAs cfg objects' tp I (within recs I)) :
    CompactionBook cfg objects' tp recs compaction := by
  cases compaction with
  | uploaded | recorded => exact fun htp => hkeep _ (h htp)
  | downloading plan plans sources merged expected => exact h
  | idle | planning | cycle | deleting | panicked => trivial

variable {tp₀ : TopicPartition} {a b : Nat} {records : List WalRecord}

theorem uploadRecords_keeps (h : uploadRecords cfg s tp₀ a b records = some (s', seg))
    (hown : tp₀ = tp → records = within recs (a, b)) :
    (∀ I, StoredAs cfg s.objects tp I (within recs I) →
      StoredAs cfg s'.objects tp I (within recs I)) ∧
    (StoredWhole cfg records → tp₀ = tp →
      StoredAs cfg s'.objects tp (a, b) (within recs (a, b))) := by
  obtain ⟨data, objects, hdata, rfl, rfl, hobjects⟩ := uploadRecords_cases h
  refine ⟨?_, ?_⟩
  · rintro I ⟨data', hdata', hobject⟩
    by_cases hsame : isMultipart cfg.storage data = false ∧ tp = tp₀ ∧ I.1 = a ∧ I.2 = b
    · obtain ⟨-, htp, ha, hb⟩ := id hsame
      have hI : I = (a, b) := Prod.ext ha hb
      refine ⟨data, ?_, (hobjects tp I.1 I.2).trans (if_pos hsame)⟩
      rw [hI, ← hown htp.symm]
      exact hdata
    · exact ⟨data', hdata', ((hobjects tp I.1 I.2).trans (if_neg hsame)).trans hobject⟩
  · intro hwhole htp
    refine ⟨data, ?_, (hobjects tp a b).trans (if_pos ⟨hwhole data hdata, htp.symm, rfl, rfl⟩)⟩
    rw [← hown htp]
    exact hdata

end objects

namespace Book

variable {index : PartitionIndex}

variable (h : Book cfg s tp recs K)
include h

theorem of_log {wal : Wal.Log WalRecord} {manifest : List ManifestRecord} :
    Book cfg ⟨wal, s.index, s.objects, s.cache, manifest⟩ tp recs K :=
  { h with }

theorem of_objects
    (hkeep : ∀ I ∈ coldExtents s.index tp, StoredAs cfg s.objects tp I (within recs I) →
      StoredAs cfg objects tp I (within recs I)) :
    Book cfg { s with objects := objects } tp recs K :=
  { h with cold := fun I hI => ⟨(h.cold I hI).1, hkeep I hI (h.cold I hI).2⟩ }

theorem of_index (hkeyed : ColdKeyed index) (hcold : coldExtents index tp = coldExtents s.index tp)
    (hhot : index.hot tp = s.index.hot tp) : Book cfg { s with index := index } tp recs K := by
  refine ⟨h.increasing, h.own, ?_, ?_, hkeyed, ?_, ?_, h.cache⟩
  · rw [← h.reach]
    rw [Store.reach, Store.reach, hcold, hhot]
  · rw [hcold]
    exact h.tiling
  · rw [hhot]
    exact h.hot
  · rw [hcold]
    exact h.cold

theorem flip (hkeyed : seg.Keyed)
    (hok : seg.topicPartition = tp → (∃ r ∈ recs, seg.endOffset = r.offset + 1) ∧
      (∀ k, Contains seg.extent k → k ∈ K) ∧
      StoredAs cfg s.objects tp seg.extent (within recs seg.extent))
    (hT : Tiling (coldExtents s.index seg.topicPartition))
    (hcold : Compatible (coldExtents s.index seg.topicPartition) seg.extent)
    (hflip : s.index.flipToCold seg.topicPartition seg.startOffset seg.endOffset seg.objectKey
      seg.sizeBytes = some index) : Book cfg { s with index := index } tp recs K := by
  have hX := coldExtents_flipToCold hflip hT hcold
  have hentries := entries_flipToCold _ _ tp hflip
  by_cases htp : tp = seg.topicPartition
  · subst htp
    obtain ⟨hends, hcovers, hstored⟩ := hok rfl
    rw [if_pos rfl] at hentries
    have hX' : coldExtents index seg.topicPartition =
        insert seg.extent (coldExtents s.index seg.topicPartition) := (hX _).trans (if_pos rfl)
    have hhot : ∀ k, (index.hot seg.topicPartition).get? k =
        if Contains seg.extent k then none else (s.index.hot seg.topicPartition).get? k := by
      intro k
      rw [PartitionIndex.hot, hentries]
      show (SMap.filterKeys _ _).get? k = _
      rw [SMap.get?_filterKeys]
      by_cases hin : Contains seg.extent k
      · rw [if_pos hin, if_neg fun hout => ?_]
        have := (inRange_not_iff _ _ k).mp hout
        have hlo : seg.startOffset ≤ k := hin.1
        have hhi : k < seg.endOffset := hin.2
        omega
      · rw [if_neg hin, if_pos ((inRange_not_iff _ _ k).mpr ?_)]
        · rfl
        · by_contra hno
          exact hin ⟨by show seg.startOffset ≤ k; omega, by show k < seg.endOffset; omega⟩
    refine ⟨h.increasing, h.own, ?_, ?_, h.keyed.flipToCold hflip hkeyed, ?_, ?_, h.cache⟩
    · ext k
      rw [h.mem_reach]
      show (((index.hot _).get? k).isSome = true ∨ ∃ I ∈ coldExtents index _, Contains I k) ↔ _
      rw [hX', hhot]
      constructor
      · rintro (hsome | ⟨I, hI, hin⟩)
        · split at hsome
          · cases hsome
          · exact .inl hsome
        · rcases Set.mem_insert_iff.mp hI with rfl | hI
          · exact h.mem_reach.mp (hcovers k hin)
          · exact .inr ⟨I, hI, hin⟩
      · rintro (hsome | ⟨I, hI, hin⟩)
        · by_cases hin : Contains seg.extent k
          · exact .inr ⟨_, Set.mem_insert _ _, hin⟩
          · rw [if_neg hin]
            exact .inl hsome
        · exact .inr ⟨I, Set.mem_insert_of_mem _ hI, hin⟩
    · rw [hX']
      exact h.tiling.insert hcold
    · intro k entry hget
      rw [hhot] at hget
      split at hget
      · cases hget
      · exact h.hot k entry hget
    · intro I hI
      rw [hX'] at hI
      rcases Set.mem_insert_iff.mp hI with rfl | hI
      · exact ⟨hends, hstored⟩
      · exact h.cold I hI
  · rw [if_neg htp] at hentries
    have hX' : coldExtents index tp = coldExtents s.index tp := (hX tp).trans (if_neg htp)
    have hhot : index.hot tp = s.index.hot tp := congrArg PartitionEntries.hot hentries
    exact h.of_index (h.keyed.flipToCold hflip hkeyed) hX' hhot

variable {plan : CompactionPlan} {plans : List CompactionPlan}
  (hexec : Executing (coldExtents s.index) plan plans)
include hexec

theorem replace (hmerged : MergedFrom plan seg)
    (hT : Tiling (coldExtents s.index plan.topicPartition)) (hstored : plan.topicPartition = tp →
      StoredAs cfg s.objects tp plan.extent (within recs plan.extent))
    (hreplace : s.index.replaceCold seg.topicPartition seg.startOffset seg.endOffset seg.objectKey
      seg.sizeBytes = some index) : Book cfg { s with index := index } tp recs K := by
  have hX : ∀ tp', coldExtents index tp' =
      if tp' = plan.topicPartition then mergeInto (coldExtents s.index tp') plan.extent
      else coldExtents s.index tp' := by
    intro tp'
    rw [coldExtents_replaceCold hreplace (hexec.lt hT hmerged), hmerged.topicPartition,
      hmerged.extent]
  have hhot : index.hot tp = s.index.hot tp := by
    rw [PartitionIndex.hot, entries_replaceCold _ _ tp hreplace]
    split
    · rename_i htp
      rw [htp]
      rfl
    · rfl
  have hkeyed := h.keyed.replaceCold hreplace hmerged.keyed
  by_cases htp : tp = plan.topicPartition
  · subst htp
    have hX' : coldExtents index plan.topicPartition =
        mergeInto (coldExtents s.index plan.topicPartition) plan.extent :=
      (hX _).trans (if_pos rfl)
    have hchain := hexec.planned.chain hT hexec.length
    have hne := Planned.extents_ne_nil hexec.length
    have hmem := hexec.planned.extents_mem
    refine ⟨h.increasing, h.own, ?_, ?_, hkeyed, ?_, ?_, h.cache⟩
    · ext k
      rw [h.mem_reach]
      show (((index.hot _).get? k).isSome = true ∨ ∃ I ∈ coldExtents index _, Contains I k) ↔ _
      rw [hX', hhot]
      refine or_congr_right ⟨?_, ?_⟩
      · rintro ⟨I, rfl | ⟨hI, -⟩, hin⟩
        · obtain ⟨J, hJ, hJin⟩ := hchain.covers hin
          exact ⟨J, hmem J hJ, hJin⟩
        · exact ⟨I, hI, hin⟩
      · rintro ⟨I, hI, hin⟩
        by_cases hsource : I ∈ plan.extents
        · obtain ⟨hlo, -, hhi⟩ := hchain.bounds.2 I hsource
          exact ⟨_, .inl rfl, hlo.trans hin.1, lt_of_lt_of_le hin.2 hhi⟩
        · exact ⟨I, hT.mem_merge_of_not_mem hmem hchain hne hI hsource, hin⟩
    · rw [hX']
      exact hT.merge hmem hchain hne
    · rw [hhot]
      exact h.hot
    · intro I hI
      rw [hX'] at hI
      rcases hI with rfl | ⟨hI, -⟩
      · obtain ⟨J, hJ, hend⟩ := hchain.last hne
        obtain ⟨⟨r, hr, hrend⟩, -⟩ := h.cold J (hmem J hJ)
        exact ⟨⟨r, hr, hend.symm.trans hrend⟩, hstored rfl⟩
      · exact h.cold I hI
  · have hX' : coldExtents index tp = coldExtents s.index tp := (hX tp).trans (if_neg htp)
    exact h.of_index hkeyed hX' hhot

theorem mergeSource {source : ColdSegment} {sources : List ColdSegment}
    {merged merged' : List WalRecord} {expected expected' : Nat} (htp : plan.topicPartition = tp)
    (hok : MergeOk plan recs (source :: sources) merged expected)
    (hmerge : Store.mergeSource cfg s source merged expected = some (merged', expected')) :
    MergeOk plan recs sources merged' expected' := by
  obtain ⟨hsourcetp, hkeyed, hI⟩ := hexec.planned.mem plan mem_cons_self source
    (hok.mem source mem_cons_self)
  rw [htp] at hI hsourcetp
  obtain ⟨segment, hdown, hdec⟩ := h.download hI
  rw [← hkeyed.eq hsourcetp rfl] at hdown
  obtain ⟨hstart, hlt, hchain⟩ := hok.chain
  -- the last record of the source ends its range
  obtain ⟨⟨last, hlast, hend⟩, -⟩ := h.cold _ hI
  have hlastin : last ∈ within recs source.extent :=
    mem_within.mpr ⟨hlast, by omega, by omega⟩
  have hinc : Increasing (within recs source.extent) := h.increasing.filter _
  have hgroupEnd : groupEnd (within recs source.extent) = source.extent.2 := by
    obtain ⟨r, hr, hrend⟩ := span_end (ne_nil_of_mem hlastin)
    have hr' := (mem_within.mp hr).2.2
    have hlast' := (hinc.mem_span hlastin).2
    have hspan : groupEnd (within recs source.extent) = r.offset + 1 := hrend
    have hspan' : last.offset < groupEnd (within recs source.extent) := hlast'
    omega
  have hnext : merged ++ within recs source.extent =
      within recs (plan.startOffset, source.extent.2) := by
    have hle : expected ≤ source.extent.2 := hstart ▸ hlt.le
    rw [h.increasing.within_append hok.le hle, ← hok.eq, ← hstart]
  unfold Store.mergeSource at hmerge
  rw [hdown] at hmerge
  simp only [hdec] at hmerge
  cases hwithin : within recs source.extent with
  | nil =>
    rw [hwithin] at hlastin
    cases hlastin
  | cons r rest =>
    rw [hwithin] at hmerge hnext hgroupEnd
    simp only at hmerge
    split at hmerge
    · cases hmerge
    · cases hmerge
      rw [hgroupEnd]
      have hle : plan.startOffset ≤ source.extent.2 := by
        have := hok.le
        omega
      exact ⟨hle, hnext, hchain, fun src hsrc => hok.mem src (mem_cons_of_mem _ hsrc)⟩

end Book

/-! ## The steps of the two tasks -/

namespace LogAgrees

variable {wal : Wal.Log WalRecord}

theorem rotate (h : LogAgrees wal tp recs K) : LogAgrees wal.rotate tp recs K := by
  refine ⟨fun seq xs hget hne => ?_, fun hne => absurd rfl hne⟩
  rcases get?_rotate hget with rfl | hget
  · exact h.active hne
  · exact h.segments seq xs hget hne

theorem spill (h : LogAgrees wal tp recs K) : LogAgrees wal.spill tp recs K := by
  refine ⟨fun seq xs hget hne => ?_, h.active⟩
  rcases SMap.of_get?_insert hget with ⟨-, rfl⟩ | ⟨-, hget⟩
  · exact absurd rfl hne
  · exact h.segments seq xs hget hne

theorem delete (h : LogAgrees wal tp recs K) (seq : Nat) :
    LogAgrees (wal.delete seq) tp recs K := by
  refine ⟨fun seq' xs hget hne => ?_, h.active⟩
  exact h.segments seq' xs (SMap.of_get?_erase hget) hne

end LogAgrees

namespace Engine.Agrees

variable {e : Engine}

theorem tierStep {label : TierLabel} {tiering' : Tiering} (h : e.Agrees cfg tp recs K)
    (hranges : e.Ranges) (hfits : label = .advance → TierFits e.store e.tiering)
    (hwhole : label = .advance → e.tiering.Whole cfg)
    (hstep : TierStep cfg e.store e.tiering label s' tiering') :
    Engine.Agrees cfg { e with store := s', tiering := tiering' } tp recs K := by
  have htier := h.tier
  have htierOk := hranges.tier
  obtain ⟨store, pending, tiering, compaction⟩ := e
  cases hstep with
  | sealActive => exact ⟨h.book.of_log, h.log.rotate, trivial, h.compaction⟩
  | sealFailed => exact ⟨h.book.of_log, h.log.spill, trivial, h.compaction⟩
  | start | cycleDone | flipPanic | retain | abortCycle | abortGroup | abortUploaded =>
    exact ⟨h.book, h.log, trivial, h.compaction⟩
  | reclaim | delete => exact ⟨h.book.of_log, h.log.delete _, trivial, h.compaction⟩
  | @segment seq seqs order records hget hne hperm =>
    refine ⟨h.book, h.log, ?_, h.compaction⟩
    intro g hg htp
    have hkeeps : SegmentKeeps store.wal (fun _ => ∅) ⟨seq, seqs, false⟩ (groupsOf order records)
        none records := groupsOf_keeps hget hperm
    obtain ⟨hrecords, hgroup⟩ := hkeeps.ahead g hg
    rw [hrecords, htp] at hgroup ⊢
    exact h.log.segments seq records hget hgroup
  | fenceBefore hfencing =>
    exact ⟨h.book, h.log, fun g hg => htier g (mem_cons_of_mem _ hg), h.compaction⟩
  | fenceAfter hfencing => exact ⟨h.book, h.log, htier.1, h.compaction⟩
  | @upload task g groups s' seg hupload =>
    have hgroup : g.topicPartition = tp → GroupOk recs K g.records := htier g mem_cons_self
    obtain ⟨hkeep, hown⟩ := uploadRecords_keeps hupload fun htp => (hgroup htp).eq
    have hstored := hown (hwhole rfl)
    obtain ⟨data, objects, -, rfl, rfl, -⟩ := uploadRecords_cases hupload
    refine ⟨h.book.of_objects fun I _ => hkeep I, h.log,
      ⟨fun g' hg' => htier g' (mem_cons_of_mem _ hg'), fun htp => ?_⟩,
      h.compaction.mono hkeep⟩
    exact ⟨(hgroup htp).ends, (hgroup htp).covers, .inl (hstored htp)⟩
  | @register task groups seg =>
    have hL := liveExtents_register (hranges.live_tiling _) (hfits rfl).1
    have hregistered : TierBook cfg store.objects (liveExtents store.manifest) tp recs K
        (.registered task groups seg) := htier
    exact ⟨h.book.of_log, h.log, hregistered.mono (fun I hI => hI.mono (subset_of_insert hL tp))
      .refl, h.compaction⟩
  | @flip task groups seg index hflip =>
    obtain ⟨hgroups, hseg⟩ := htier
    refine ⟨h.book.flip htierOk.1 (fun htp => ?_) (hranges.cold_tiling _) (hfits rfl).2 hflip,
      h.log, hgroups, h.compaction⟩
    have hok := hseg htp
    have hlive : Compatible (liveExtents store.manifest seg.topicPartition) seg.extent :=
      (hfits rfl).1
    refine ⟨hok.ends, hok.covers, hok.stored.resolve_right fun hsw => ?_⟩
    rw [← htp] at hsw
    exact hsw.not_compatible hlive

theorem compactStep {label : CompactLabel} {compaction' : Compaction} (h : e.Agrees cfg tp recs K)
    (hranges : e.Ranges) (hwhole : label = .advance → e.compaction.Whole cfg)
    (hstep : CompactStep cfg e.store e.compaction label s' compaction') :
    Engine.Agrees cfg { e with store := s', compaction := compaction' } tp recs K := by
  have hbook := h.compaction
  have hok := hranges.compaction
  have hcoldlive := hranges.cold_live
  obtain ⟨store, pending, tiering, compaction⟩ := e
  cases hstep with
  | start | plan | planned | cycleDone | skip | downloadErr | mismatch | replacePanic | planDone
  | abortDownloading | abortUploaded => exact ⟨h.book, h.log, h.tier, trivial⟩
  | @execute plan plans hlen =>
    refine ⟨h.book, h.log, h.tier, fun htp => ⟨le_rfl, ?_, ?_, fun _ hsrc => hsrc⟩⟩
    · refine (filter_eq_nil_iff.mpr fun r hr => ?_).symm
      rw [decide_eq_true_eq]
      omega
    · exact Planned.chain hok (hranges.cold_tiling _) hlen
  | @download plan plans source sources merged merged' expected expected' hmerge =>
    exact ⟨h.book, h.log, h.tier, fun htp => h.book.mergeSource hok htp (hbook htp) hmerge⟩
  | @upload plan plans merged expected s' seg hend hupload =>
    subst hend
    obtain ⟨hkeep, hown⟩ := uploadRecords_keeps hupload fun htp => (hbook htp).eq
    have hstored := hown (hwhole rfl)
    obtain ⟨data, objects, -, rfl, rfl, -⟩ := uploadRecords_cases hupload
    exact ⟨h.book.of_objects fun I _ => hkeep I, h.log,
      h.tier.mono (fun _ hsw => hsw) fun I hI => .inl (hkeep I hI), hstored⟩
  | @record plan plans seg =>
    obtain ⟨hL, hmem⟩ := Store.Ranges.liveExtents_record hranges
    have hev := Evolves.merge hranges.live_tiling hok.1.planned (hranges.cold_tiling _)
      hok.1.length hmem hL
    exact ⟨h.book.of_log, h.log, h.tier.mono (hev.swallowed tp) .refl, hbook⟩
  | @replace plan plans seg index hreplace =>
    exact ⟨h.book.replace hok.1 hok.2.1 (hranges.cold_tiling _) hbook hreplace, h.log, h.tier,
      trivial⟩
  | @delete key keys plans deleted =>
    have hkeep : KeepsStored cfg (liveExtents store.manifest) store.objects
        (if deleted then store.objects.delete key else store.objects) tp recs := by
      split
      · exact .delete (hok.2 key mem_cons_self)
      · exact .refl
    refine ⟨h.book.of_objects fun I hI hstored => ?_, h.log,
      h.tier.mono (fun _ hsw => hsw) hkeep, trivial⟩
    -- what the index has is live, so it is not swallowed
    have hlive : I ∈ liveExtents store.manifest tp := (hcoldlive tp I hI).resolve_right id
    exact (hkeep I hstored).resolve_right fun hsw =>
      (hranges.live_tiling tp).not_mem_of_swallowed hsw hlive

end Engine.Agrees

/-! ## Appends and the book of a partition -/

open Classical in
theorem readable_eq_self (h : ∀ r ∈ recs, o ≤ r.offset ∧ Covers K o r.offset) :
    readable recs K o = recs := by
  rw [readable]
  exact filter_eq_self.mpr fun r hr => decide_eq_true (h r hr)

theorem not_groupOk_nil : ¬ GroupOk [] K group :=
  fun h => h.nonempty h.eq

theorem groupOk_singleton (r : WalRecord) : GroupOk [r] {r.offset} [r] := by
  refine ⟨cons_ne_nil _ _, ?_, fun k hk => ?_⟩
  · show [r] = [r].filter fun a => r.offset ≤ a.offset ∧ a.offset < r.offset + 1
    rw [filter_singleton, decide_eq_true ⟨le_rfl, Nat.lt_succ_self _⟩]
    rfl
  · exact Nat.le_antisymm (Nat.lt_succ_iff.mp hk.2) hk.1

theorem GroupOk.eq_singleton (h : GroupOk recs K group) (hlen : recs.length ≤ 1) :
    ∃ r ∈ recs, group = [r] := by
  have hsub : group.Sublist recs := by
    rw [h.eq]
    exact filter_sublist
  obtain ⟨r, group', rfl⟩ := exists_cons_of_ne_nil h.nonempty
  refine ⟨r, hsub.subset mem_cons_self, ?_⟩
  have hlength := hsub.length_le
  rw [length_cons] at hlength
  rw [eq_nil_of_length_eq_zero (by omega : group'.length = 0)]

theorem TierBook.of_nil {L : TopicPartition → Set Extent} {K' : Set Nat} {tiering : Tiering}
    (h : TierBook cfg objects L tp [] K tiering) : TierBook cfg objects L tp recs K' tiering := by
  have hgroups : ∀ {groups : List Group},
      (∀ g ∈ groups, g.topicPartition = tp → GroupOk [] K g.records) →
      ∀ g ∈ groups, g.topicPartition = tp → GroupOk recs K' g.records :=
    fun hall g hg htp => absurd (hall g hg htp) not_groupOk_nil
  have hsegment : ∀ {seg : ColdSegment},
      (seg.topicPartition = tp → SegmentOk cfg objects L tp [] K seg) →
      seg.topicPartition = tp → SegmentOk cfg objects L tp recs K' seg := by
    intro seg hall htp
    obtain ⟨r, hr, -⟩ := (hall htp).ends
    cases hr
  cases tiering with
  | idle | cycle | panicked => exact trivial
  | group task groups => exact hgroups h
  | uploaded | registered => exact ⟨hgroups h.1, hsegment h.2⟩

namespace Engine

def appended (cfg : StoreConfig) (e : Engine) (r : WalRecord) : Engine :=
  { e with store := e.store.append cfg r .ok }

section

variable (cfg : StoreConfig) (e : Engine) (r : WalRecord) (tp : TopicPartition)

theorem cold_appended : (e.appended cfg r).store.index.cold tp = e.store.index.cold tp :=
  cold_insertHot _ _ _ _ _ _

theorem coldExtents_appended :
    coldExtents (e.appended cfg r).store.index tp = coldExtents e.store.index tp :=
  coldExtents_congr (e.cold_appended cfg r) tp

theorem get?_hot_appended (k : Nat) : ((e.appended cfg r).store.index.hot tp).get? k =
      if tp = r.topicPartition ∧ k = r.offset then some ⟨r, memSize cfg r⟩
      else (e.store.index.hot tp).get? k :=
  get?_hot_insertHot ..

end

theorem Ranges.appended (h : e.Ranges) (r : WalRecord) : (e.appended cfg r).Ranges :=
  Store.Ranges.of_cold_eq h (e.cold_appended cfg r)

namespace Agrees

variable {e : Engine}

theorem append_other (h : e.Agrees cfg tp recs K) (hr : tp ≠ r.topicPartition) :
    (e.appended cfg r).Agrees cfg tp recs K := by
  have hbook := h.book.of_index (h.book.keyed.congr (e.cold_appended cfg r))
    (e.coldExtents_appended cfg r tp) ((hot_appendHot cfg e.store r tp).trans (if_neg hr))
  refine ⟨hbook.of_log, ⟨h.log.segments, fun hne => ?_⟩, h.tier, h.compaction⟩
  have hactive : recordsOf tp (e.store.wal.active ++ [r]) = recordsOf tp e.store.wal.active := by
    rw [recordsOf_append, recordsOf_singleton_of_ne hr, append_nil]
  have hne' : recordsOf tp (e.store.wal.active ++ [r]) ≠ [] := hne
  rw [hactive] at hne'
  show GroupOk recs K (recordsOf tp (e.store.wal.active ++ [r]))
  rw [hactive]
  exact h.log.active hne'

theorem append_first (h : e.Agrees cfg r.topicPartition [] K) (hidle : e.compaction = .idle)
    (hr : Readable r) : (e.appended cfg r).Agrees cfg r.topicPartition [r] {r.offset} := by
  have hcold : coldExtents (e.appended cfg r).store.index r.topicPartition = ∅ := by
    rw [coldExtents_appended]
    refine Set.eq_empty_of_forall_notMem fun I hI => ?_
    obtain ⟨⟨a, ha, -⟩, -⟩ := h.book.cold I hI
    cases ha
  have hhot : ∀ k, ((e.appended cfg r).store.index.hot r.topicPartition).get? k =
      if k = r.offset then some ⟨r, memSize cfg r⟩ else none := by
    intro k
    rw [get?_hot_appended]
    by_cases hk : k = r.offset
    · rw [if_pos ⟨rfl, hk⟩, if_pos hk]
    · rw [if_neg fun h => hk h.2, if_neg hk]
      cases hget : (e.store.index.hot r.topicPartition).get? k with
      | none => rfl
      | some entry => cases (h.book.hot k entry hget).1
  refine ⟨⟨pairwise_singleton _ _, ?_, ?_, ?_, h.book.keyed.congr (e.cold_appended cfg r), ?_,
    ?_, ?_⟩, ⟨fun seq xs hget hne => ?_, fun _ => ?_⟩, h.tier.of_nil, ?_⟩
  · intro a ha
    rw [mem_singleton.mp ha]
    exact ⟨rfl, hr⟩
  · ext k
    rw [reach, hcold]
    constructor
    · rintro (hget | ⟨I, hI, -⟩)
      · rw [hhot] at hget
        split at hget
        · assumption
        · cases hget
      · cases hI
    · intro hk
      refine .inl ?_
      rw [hhot, if_pos (Set.mem_singleton_iff.mp hk)]
      rfl
  · rw [hcold]
    exact ⟨fun I hI => absurd hI (Set.notMem_empty I), fun I hI => absurd hI (Set.notMem_empty I)⟩
  · intro k entry hget
    rw [hhot] at hget
    split at hget
    · rename_i hk
      cases hget
      exact ⟨mem_singleton_self _, hk.symm⟩
    · cases hget
  · intro I hI
    rw [hcold] at hI
    cases hI
  · intro o rs hcached
    have hbatch := h.book.cache o rs hcached
    exact absurd (prefix_nil.mp hbatch.run) hbatch.nonempty
  · exact absurd (h.log.segments seq xs hget hne) not_groupOk_nil
  · have hnil : recordsOf r.topicPartition e.store.wal.active = [] := by
      by_contra hne
      exact not_groupOk_nil (h.log.active hne)
    show GroupOk [r] {r.offset} (recordsOf r.topicPartition (e.store.wal.active ++ [r]))
    rw [recordsOf_append, hnil, recordsOf_singleton_self]
    exact groupOk_singleton r
  · show CompactionBook cfg _ _ _ e.compaction
    rw [hidle]
    exact trivial

end Agrees

end Engine

theorem Engine.agrees_empty (cfg : StoreConfig) (tp : TopicPartition) :
    (Engine.boot .empty).Agrees cfg tp [] ∅ := by
  have hcold : coldExtents (Engine.boot .empty).store.index tp = ∅ := intervals_empty
  refine ⟨⟨Pairwise.nil, ?_, ?_, ?_, ?_, ?_, ?_, ?_⟩, ⟨?_, ?_⟩, trivial, trivial⟩
  · intro r hr
    cases hr
  · refine Set.eq_empty_of_forall_notMem fun k hk => ?_
    rw [Store.reach, hcold] at hk
    rcases hk with hget | ⟨I, hI, -⟩
    · cases hget
    · cases hI
  · rw [hcold]
    exact ⟨fun I hI => absurd hI (Set.notMem_empty I), fun I hI => absurd hI (Set.notMem_empty I)⟩
  · intro tp start range hget
    cases hget
  · intro k entry hget
    cases hget
  · intro I hI
    rw [hcold] at hI
    cases hI
  · intro o rs hcached
    cases hcached
  · intro seq xs hget
    cases hget
  · intro hne
    exact absurd rfl hne

/-! ## Whole runs -/

/-- A step of one of the two tasks, with ranges that fit and uploads that are stored whole. -/
def Transparent (cfg : StoreConfig) (e : Engine) : Label → Prop
  | .client _ | .restart _ _ => False
  | .tier label => KeepsObjects cfg e (.tier label)
  | .compact label => KeepsObjects cfg e (.compact label)

instance (cfg : StoreConfig) (e : Engine) (label) : Decidable (Transparent cfg e label) := by
  induction label using Label.casesOn <;> dsimp only [Transparent] <;> infer_instance

theorem Engine.Agrees.step {e' : Engine} {label : Label} (h : e.Ranges ∧ e.Agrees cfg tp recs K)
    (hsafe : Transparent cfg e label) (hstep : e.step cfg label = some e') :
    e'.Ranges ∧ e'.Agrees cfg tp recs K := by
  obtain ⟨hranges, hagrees⟩ := h
  cases Engine.step_cases hstep with
  | client | restart => exact absurd hsafe id
  | tier htier =>
    refine ⟨hranges.step hsafe.1 hstep, hagrees.tierStep hranges (fun heq => ?_) (fun heq => ?_)
      htier⟩
    · subst heq
      exact hsafe.1
    · subst heq
      exact hsafe.2
  | compact hcompact =>
    refine ⟨hranges.step hsafe.1 hstep, hagrees.compactStep hranges (fun heq => ?_) hcompact⟩
    subst heq
    exact hsafe.2

/-- **Tiering and compaction are transparent to readers**: a scan returns the same records before
and after any run of the two tasks. -/
theorem scan_unchanged (cfg : StoreConfig) (e e' : Engine) (tp : TopicPartition)
    (recs : List WalRecord) (K : Set Nat) (background : List Label) (hranges : e.Ranges)
    (hagrees : e.Agrees cfg tp recs K)
    (hsafe : Along (Engine.step cfg) (Transparent cfg) e background)
    (hexec : exec (Engine.step cfg) e background = some e') (o : Nat) (sizes : List Nat)
    (hsizes : recs.length < sizes.length) :
    scan cfg tp e.store o sizes = some (.ok (readable recs K o)) ∧
      scan cfg tp e'.store o sizes = some (.ok (readable recs K o)) := by
  have hafter := exec_invariant (I := fun e => e.Ranges ∧ e.Agrees cfg tp recs K)
    (fun _ _ _ h hP => Engine.Agrees.step h hP) ⟨hranges, hagrees⟩ hsafe hexec
  have hlen : (recs.filter fun r => o ≤ r.offset).length < sizes.length :=
    lt_of_le_of_lt (length_filter_le _ _) hsizes
  exact ⟨hagrees.book.scan o sizes hlen, hafter.2.book.scan o sizes hlen⟩

def oneHot : Engine :=
  .boot (PartitionStore.empty.append plainConfig ⟨⟨"a", 0⟩, 0, ⟨none, [1], [], 0⟩, 0⟩ .ok)

theorem ranges_oneHot : oneHot.Ranges := by
  have hempty : (Engine.boot .empty).Ranges := Store.Ranges.empty
  exact hempty.appended _

theorem agrees_oneHot : oneHot.Agrees plainConfig ⟨"a", 0⟩
    [⟨⟨"a", 0⟩, 0, ⟨none, [1], [], 0⟩, 0⟩] {0} := by
  have hempty := Engine.agrees_empty plainConfig ⟨"a", 0⟩
  exact hempty.append_first rfl readable_appended

def tieredAway : List Label :=
  [.tier .sealActive, .tier .start, .tier (.segment [⟨"a", 0⟩]), .tier .advance, .tier .advance,
    .tier .advance, .tier .advance, .tier .advance]

theorem scan_unchanged_tieredAway :
    ∃ e', exec (Engine.step plainConfig) oneHot tieredAway = some e' ∧
      scan plainConfig ⟨"a", 0⟩ oneHot.store 0 [0, 0] =
        scan plainConfig ⟨"a", 0⟩ e'.store 0 [0, 0] := by
  have hsome : (exec (Engine.step plainConfig) oneHot tieredAway).isSome = true := by
    decide +kernel
  obtain ⟨e', he'⟩ := Option.isSome_iff_exists.mp hsome
  obtain ⟨hbefore, hafter⟩ := scan_unchanged plainConfig oneHot e' ⟨"a", 0⟩ _ {0} tieredAway
    ranges_oneHot agrees_oneHot (by decide +kernel) he' 0 [0, 0] (by decide)
  exact ⟨e', he', hbefore.trans hafter.symm⟩

def failedAppend : List Label :=
  [.client (.appendHot ⟨⟨"a", 0⟩, 0, ⟨none, [1], [], 0⟩, 0⟩),
    .client (.appendWal ⟨⟨"a", 0⟩, 0, ⟨none, [1], [], 0⟩, 0⟩ (.fail true))]

/-- Before tiering a scan finds nothing; after it, it returns the record whose append failed. -/
theorem failed_append_readable :
    (exec (Engine.step plainConfig) (.boot .empty) failedAppend).map (fun e =>
        scan plainConfig ⟨"a", 0⟩ e.store 0 [1024, 1024]) = some (some (.ok [])) ∧
      (exec (Engine.step plainConfig) (.boot .empty) (failedAppend ++ tieredAway)).map
        (fun e => scan plainConfig ⟨"a", 0⟩ e.store 0 [1024, 1024]) =
      some (some (.ok [⟨⟨"a", 0⟩, 0, ⟨none, [1], [], 0⟩, 0⟩])) := by
  decide +kernel

end RustMq.Store
