import RustMq.Broker.Fetch

/-!
# Polling several partitions

`MessageConsumer::poll` (`src/broker/core.rs`) fetches from every assigned partition at its
position and collects the records of all of them in one vector. It then advances the position by
the length of that vector, not by what came from the partition. So a partition that is fetched
after another one has delivered is moved on too far, and what it has left beyond one fetch is
skipped (`second_partition_skips`).
-/

namespace RustMq.Broker

open Lib Store List PartitionStore

/-! ## The consumer -/

structure ConsumeRecord where
  topicPartition : TopicPartition
  offset : Nat
  key : Option Bytes
  value : Bytes
  headers : List Header
  timestamp : Int
  deriving DecidableEq

def ConsumeRecord.of (tp : TopicPartition) (offset : Nat) (r : Record) : ConsumeRecord :=
  ⟨tp, offset, r.key, r.value, r.headers, r.timestamp⟩

def pollMaxBytes : Nat := 1024 * 1024

/-- The loop of `poll` over `partition_offsets` in the map's iteration order, with the records
collected so far. -/
def poll (cfg : StoreConfig) : State → List (TopicPartition × Nat) → List ConsumeRecord →
    Except RustMqError (List ConsumeRecord) × State × List (TopicPartition × Nat)
  | s, [], records => (.ok records, s, [])
  | s, (tp, currentOffset) :: rest, records =>
    match fetchRecords cfg s tp currentOffset pollMaxBytes with
    | (.ok fetched, s') =>
      let records := records ++ fetched.mapIdx fun i r => .of tp (currentOffset + i) r
      let result := poll cfg s' rest records
      (result.1, result.2.1, (tp, currentOffset + records.length) :: result.2.2)
    | (.error (.offsetOutOfRange _), s') =>
      let result := poll cfg s' rest records
      (result.1, result.2.1, (tp, currentOffset) :: result.2.2)
    | (.error e, s') => (.error e, s', (tp, currentOffset) :: rest)

variable {cfg : StoreConfig} {records rs : List WalRecord} {o polls : Nat}
  {content : TopicPartition → List WalRecord} {polled out : List ConsumeRecord}
  {now starts : List (TopicPartition × Nat)} {tp : TopicPartition}

theorem poll_cons {s s' : State} {currentOffset : Nat} {fetched : List Record}
    (h : fetchRecords cfg s tp currentOffset pollMaxBytes = (.ok fetched, s'))
    (rest : List (TopicPartition × Nat)) (records : List ConsumeRecord) :
    poll cfg s ((tp, currentOffset) :: rest) records =
      let records := records ++ fetched.mapIdx fun i r => .of tp (currentOffset + i) r
      let result := poll cfg s' rest records
      (result.1, result.2.1, (tp, currentOffset + records.length) :: result.2.2) := by
  rw [poll, h]

structure Consumer where
  broker : State
  partitionOffsets : List (TopicPartition × Nat)
  polled : List ConsumeRecord

def Consumer.step (cfg : StoreConfig) (c : Consumer) (_ : Unit) : Option Consumer :=
  let result := poll cfg c.broker c.partitionOffsets []
  some ⟨result.2.1, result.2.2, c.polled ++ result.1.toOption.getD []⟩

def polledFrom (tp : TopicPartition) (records : List ConsumeRecord) : List ConsumeRecord :=
  records.filter fun r => r.topicPartition = tp

/-! ## What the store holds of a partition -/

/-- The records of the partition, at the offsets from 0 on, are where a read looks for them. -/
structure Holds (cfg : StoreConfig) (s : PartitionStore) (tp : TopicPartition)
    (records : List WalRecord) : Prop where
  offset : ∀ (i : Nat) r, records[i]? = some r → r.offset = i
  fits : ∀ r ∈ records, walRecordFields.Fits r
  hot : ∀ k e, (s.index.hot tp).get? k = some e → records[k]? = some e.record
  coldEnd : ∀ k range, (s.index.cold tp).get? k = some range → range.endOffset ≤ records.length
  /-- Every offset is in the hot tier or in a cold range whose object has the records of the
  range. -/
  found : ∀ o < records.length, ((s.index.hot tp).get? o).isSome = true ∨
    ∃ start range segment, (s.index.cold tp).floor? o = some (start, range) ∧
      o < range.endOffset ∧ downloadSegment cfg.storage s.objects range.objectKey = .ok segment ∧
      deserializeRecords segment.data = .ok ((records.take range.endOffset).drop start)
  cache : ∀ o rs, PartitionStore.cached s.cache (cacheKey tp o) = some rs →
    rs <+: records.drop o ∧ rs ≠ []

theorem filter_offset_drop (hoffset : ∀ (i : Nat) r, records[i]? = some r → r.offset = i)
    {start : Nat} (h : start ≤ o) :
    (records.drop start).filter (fun r => o ≤ r.offset) = records.drop o := by
  have hsplit : records.drop start = (records.drop start).take (o - start) ++ records.drop o := by
    have hd : records.drop o = (records.drop start).drop (o - start) := by
      rw [drop_drop, Nat.add_sub_cancel' h]
    rw [hd, take_append_drop]
  rw [hsplit, filter_append]
  have hbefore : ((records.drop start).take (o - start)).filter (fun r => o ≤ r.offset) = [] := by
    rw [filter_eq_nil_iff]
    intro r hr
    obtain ⟨i, hi⟩ := mem_iff_getElem?.mp hr
    rw [getElem?_take] at hi
    split at hi
    · rw [getElem?_drop] at hi
      have := hoffset _ r hi
      rw [decide_eq_true_eq]
      omega
    · cases hi
  have hafter : (records.drop o).filter (fun r => o ≤ r.offset) = records.drop o := by
    rw [filter_eq_self]
    intro r hr
    obtain ⟨i, hi⟩ := mem_iff_getElem?.mp hr
    rw [getElem?_drop] at hi
    have := hoffset _ r hi
    rw [decide_eq_true_eq]
    omega
  rw [hbefore, hafter, nil_append]

theorem hotFrom_run {hot : SMap Nat HotEntry}
    (hhot : ∀ k e, hot.get? k = some e → records[k]? = some e.record) :
    ∀ {cur : Nat}, PartitionIndex.HotFrom hot cur rs → rs <+: records.drop cur := by
  induction rs with
  | nil => exact fun _ => nil_prefix
  | cons r rs ih =>
    intro cur h
    obtain ⟨⟨size, hget⟩, hrest⟩ := h
    obtain ⟨hlt, heq⟩ := List.getElem?_eq_some_iff.mp (hhot cur _ hget)
    rw [drop_eq_getElem_cons hlt, heq]
    exact cons_prefix_cons.mpr ⟨rfl, ih hrest⟩

namespace Holds

variable {s : PartitionStore}

def Caches (cache cache' : Objects) (tp : TopicPartition) (o : Nat) (rs : List WalRecord) : Prop :=
  cache' = cache ∨ rs ≠ [] ∧ ∃ bytes, serializeRecords rs = .ok bytes ∧
    cache' = cache.put (cacheKey tp o) bytes

/-- **A read returns a run of the partition's records from the offset on**, and at least one if
there is one. -/
theorem read (h : Holds cfg s tp records) (o maxBytes : Nat) :
    ∃ rs cache', s.read cfg tp o maxBytes = (.ok rs, cache') ∧ rs <+: records.drop o ∧
      (o < records.length → rs ≠ []) ∧ Caches s.cache cache' tp o rs := by
  by_cases hhot : ((s.index.hot tp).get? o).isSome = true
  · obtain ⟨e, he⟩ := Option.isSome_iff_exists.mp hhot
    obtain ⟨rest, hread, hfrom⟩ := read_of_hot cfg s he maxBytes
    exact ⟨_, _, hread, hotFrom_run h.hot hfrom, fun _ hnil => (nomatch hnil), .inl rfl⟩
  · by_cases hlt : o < records.length
    · obtain ⟨start, range, segment, hfloor, hend, hdown, hdec⟩ :=
        (h.found o hlt).resolve_left hhot
      have hle := (SMap.floor?_eq_some_iff.mp hfloor).2.1
      cases hcached : PartitionStore.cached s.cache (cacheKey tp o) with
      | some rs =>
        obtain ⟨hpre, hne⟩ := h.cache o rs hcached
        exact ⟨rs, s.cache, read_of_cached (Bool.eq_false_iff.mpr hhot) hfloor hend hcached maxBytes,
          hpre, fun _ => hne, .inl rfl⟩
      | none =>
        have htake : ∀ (i : Nat) r, (records.take range.endOffset)[i]? = some r → r.offset = i := by
          intro i r hi
          rw [getElem?_take] at hi
          split at hi
          · exact h.offset i r hi
          · cases hi
        obtain ⟨taken, cache, hread, hpre, hne, hcache⟩ := read_of_cold (Bool.eq_false_iff.mpr hhot)
          hfloor hend hdown hdec hcached maxBytes
        rw [filter_offset_drop htake hle] at hpre hne
        have hleft : (records.take range.endOffset).drop o ≠ [] := by
          intro hnil
          have hlen := congrArg length hnil
          rw [length_drop, length_take, length_nil] at hlen
          omega
        refine ⟨taken, cache, hread, hpre.trans (IsPrefix.drop ( take_prefix _ _) o),
          fun _ => hne hleft, ?_⟩
        exact hcache.imp_right fun hput => ⟨hne hleft, hput⟩
    · refine ⟨[], s.cache, read_of_none (Bool.eq_false_iff.mpr hhot) (fun start range hfloor => ?_)
        maxBytes, nil_prefix, fun hlt' => absurd hlt' hlt, .inl rfl⟩
      have := h.coldEnd start range (SMap.floor?_eq_some_iff.mp hfloor).1
      omega

theorem of_caches {tp' : TopicPartition} {records' : List WalRecord} (h : Holds cfg s tp records)
    (h' : Holds cfg s tp' records') (hsame : tp' = tp → records' = records) {cache : Objects}
    (hrun : rs <+: records.drop o) (hcache : Caches s.cache cache tp o rs) :
    Holds cfg { s with cache := cache } tp' records' := by
  refine { h' with cache := ?_ }
  rcases hcache with rfl | ⟨hne, bytes, hser, rfl⟩
  · exact h'.cache
  · intro o' rs' hrs'
    rw [PartitionStore.cached_put] at hrs'
    split at hrs'
    · rename_i hkey
      obtain ⟨htp, rfl⟩ := cacheKey_inj hkey
      have hfits : ∀ r ∈ rs, walRecordFields.Fits r :=
        fun r hr => h.fits r (mem_of_mem_drop (hrun.subset hr))
      rw [deserializeRecords_of_serializeRecords hfits hser] at hrs'
      cases hrs'
      rw [hsame htp]
      exact ⟨hrun, hne⟩
    · exact h'.cache o' rs' hrs'

end Holds

/-! ## One poll -/

/-- What is left of the partition at the position comes in one fetch: it is one record, or it is all
in the hot tier or all in one tiered object, and no more than a fetch may return. -/
inductive OneFetch (cfg : StoreConfig) (s : PartitionStore) (tp : TopicPartition)
    (records : List WalRecord) (position : Nat) : Prop
  | last (h : records.length ≤ position + 1)
  | hot (hhot : ∀ i r, (records.drop position)[i]? = some r → ∃ e,
      (s.index.hot tp).get? (position + i) = some e ∧ e.size = memSize cfg r)
      (hsize : ((records.drop position).map (memSize cfg)).sum ≤ pollMaxBytes)
  | cold {start : Nat} {range : ObjectRange} (hhot : ((s.index.hot tp).get? position).isSome = false)
      (hfloor : (s.index.cold tp).floor? position = some (start, range))
      (hend : range.endOffset = records.length)
      (hcached : PartitionStore.cached s.cache (cacheKey tp position) = none)
      (hsize : ((records.drop position).map (memSize cfg)).sum ≤ pollMaxBytes)

theorem hotRun_all {hot : SMap Nat HotEntry} {maxBytes fuel cur bytes : Nat} {out : List WalRecord}
    (hhot : ∀ i r, rs[i]? = some r → ∃ e, hot.get? (cur + i) = some e ∧ e.size = memSize cfg r)
    (hsize : bytes + (rs.map (memSize cfg)).sum ≤ maxBytes) (hfuel : rs.length ≤ fuel) :
    out.length + rs.length ≤ (PartitionIndex.hotRun hot maxBytes fuel cur bytes out).length := by
  induction rs generalizing fuel cur bytes out with
  | nil =>
    obtain ⟨more, hmore, -⟩ := PartitionIndex.hotRun_spec hot maxBytes fuel cur bytes out
    rw [hmore, length_append]
    exact Nat.add_le_add_left (Nat.zero_le _) _
  | cons r rs ih =>
    obtain ⟨fuel, rfl⟩ : ∃ n, fuel = n + 1 :=
      Nat.exists_eq_add_of_le' (le_trans (Nat.le_add_left 1 _) hfuel)
    rw [length_cons] at hfuel
    obtain ⟨e, he, hesize⟩ := hhot 0 r rfl
    rw [map_cons, sum_cons] at hsize
    rw [length_cons, PartitionIndex.hotRun, show hot.get? cur = some e from he]
    dsimp only
    rw [if_neg (by omega), hesize]
    have hrest := @ih fuel (cur + 1) (bytes + memSize cfg r) (out ++ [e.record])
      (fun i r hr => by rw [Nat.add_right_comm, Nat.add_assoc]; exact hhot (i + 1) r hr)
      (by omega) (by omega)
    rw [length_append, length_singleton] at hrest
    omega

/-- **The fetch returns all that is left.** -/
theorem OneFetch.read {s : PartitionStore} {position : Nat} (h : OneFetch cfg s tp records position)
    (hholds : Holds cfg s tp records) {cache : Objects}
    (hread : s.read cfg tp position pollMaxBytes = (.ok rs, cache))
    (hne : position < records.length → rs ≠ []) : records.length ≤ position + rs.length := by
  by_cases hlt : position < records.length
  swap
  · omega
  cases h with
  | last h =>
    have := length_pos_iff.mpr (hne hlt)
    omega
  | hot hhot hsize =>
    obtain ⟨e, he, -⟩ := hhot 0 records[position]
      (by rw [getElem?_drop, Nat.add_zero, getElem?_eq_getElem hlt])
    rw [Nat.add_zero] at he
    have hplan : s.index.readPlan tp position pollMaxBytes =
        .hot (PartitionIndex.hotRun (s.index.hot tp) pollMaxBytes
          ((s.index.hot tp).entries.length + records.length) position 0 []) := by
      rw [PartitionIndex.readPlan_eq, if_pos (Option.isSome_iff_exists.mpr ⟨e, he⟩),
        PartitionIndex.hotRun_fuel]
    unfold PartitionStore.read readOnce at hread
    rw [hplan] at hread
    cases hread
    have hall := @hotRun_all cfg _ _ pollMaxBytes
      ((s.index.hot tp).entries.length + records.length) position 0 [] hhot
      (by rwa [Nat.zero_add]) (by rw [length_drop]; omega)
    rw [length_drop, length_nil] at hall
    omega
  | @cold start range hhot hfloor hend hcached hsize =>
    obtain ⟨start', range', segment, hfloor', -, hdown, hdec⟩ :=
      (hholds.found position hlt).resolve_left (by rw [hhot]; decide)
    cases hfloor.symm.trans hfloor'
    have hle := (SMap.floor?_eq_some_iff.mp hfloor).2.1
    rw [hend, take_length] at hdec
    have hfirst : (s.read cfg tp position pollMaxBytes).1 = .ok (records.drop position) := by
      unfold PartitionStore.read readOnce
      rw [PartitionIndex.readPlan_eq, if_neg (by rw [hhot]; decide), hfloor]
      simp only [if_pos (hend ▸ hlt), hcached, hdown, hdec, filter_offset_drop hholds.offset hle,
        @takeBytes_all cfg pollMaxBytes 0 [] _ (by rwa [Nat.zero_add]), nil_append]
      cases serializeRecords (records.drop position) with
      | ok bytes => rfl
      | error e => rfl
    rw [hread] at hfirst
    cases hfirst
    rw [length_drop]
    omega

theorem OneFetch.of_caches {s : PartitionStore} {position o : Nat} {tp' : TopicPartition}
    (h : OneFetch cfg s tp records position) {cache : Objects} (hne : tp ≠ tp')
    (hcache : Holds.Caches s.cache cache tp' o rs) :
    OneFetch cfg { s with cache := cache } tp records position := by
  cases h with
  | last h => exact .last h
  | hot hhot hsize => exact .hot hhot hsize
  | cold hhot hfloor hend hcached hsize =>
    refine .cold hhot hfloor hend ?_ hsize
    rcases hcache with rfl | ⟨-, bytes, -, rfl⟩
    · exact hcached
    · rw [PartitionStore.cached_put, if_neg fun heq => hne (cacheKey_inj heq).1]
      exact hcached

/-- Where a partition's turn comes after one that has records left, everything it has left comes in
one fetch. -/
def PollSafe (cfg : StoreConfig) (content : TopicPartition → List WalRecord) (s : PartitionStore) :
    List (TopicPartition × Nat) → (earlier : Bool) → Prop
  | [], _ => True
  | (tp, position) :: rest, earlier =>
    (earlier = true → OneFetch cfg s tp (content tp) position) ∧
      PollSafe cfg content s rest (earlier || position < (content tp).length)

theorem PollSafe.of_caches {s : PartitionStore} {positions : List (TopicPartition × Nat)}
    {earlier : Bool} (h : PollSafe cfg content s positions earlier) {cache : Objects}
    (hne : tp ∉ positions.map Prod.fst) (hcache : Holds.Caches s.cache cache tp o rs) :
    PollSafe cfg content { s with cache := cache } positions earlier := by
  induction positions generalizing earlier with
  | nil => trivial
  | cons p rest ih =>
    rw [map_cons, mem_cons, not_or] at hne
    exact ⟨fun hearlier => (h.1 hearlier).of_caches (Ne.symm hne.1) hcache, ih h.2 hne.2⟩

def consumed (tp : TopicPartition) (r : WalRecord) : ConsumeRecord := .of tp r.offset r.record

/-- What happened to a partition's position: it is past the records that were returned, and moved
if there were any. -/
structure Delivers (content : TopicPartition → List WalRecord) (out : List ConsumeRecord)
    (before after : TopicPartition × Nat) : Prop where
  partition : after.1 = before.1
  le : before.2 ≤ after.2
  moves : before.2 < (content before.1).length → before.2 < after.2
  records : polledFrom before.1 out =
    (((content before.1).drop before.2).take (after.2 - before.2)).map (consumed before.1)

theorem mapIdx_of_run (tp : TopicPartition)
    (hoffset : ∀ (i : Nat) r, records[i]? = some r → r.offset = i) (hrun : rs <+: records.drop o) :
    (rs.map WalRecord.record).mapIdx (fun i r => ConsumeRecord.of tp (o + i) r) =
      rs.map (consumed tp) := by
  refine ext_getElem? fun i => ?_
  rw [getElem?_mapIdx, getElem?_map, getElem?_map, Option.map_map]
  cases hr : rs[i]? with
  | none => rfl
  | some r =>
    obtain ⟨rest, hrest⟩ := hrun
    have hlt := (List.getElem?_eq_some_iff.mp hr).1
    have hget : records[o + i]? = some r := by
      rw [← getElem?_drop, ← hrest, getElem?_append_left hlt, hr]
    show some (ConsumeRecord.of tp (o + i) r.record) = some (consumed tp r)
    rw [consumed, hoffset _ r hget]

theorem polledFrom_append (tp : TopicPartition) (xs ys : List ConsumeRecord) :
    polledFrom tp (xs ++ ys) = polledFrom tp xs ++ polledFrom tp ys :=
  filter_append ..

theorem polledFrom_map_consumed (tp tp' : TopicPartition) (rs : List WalRecord) :
    polledFrom tp (rs.map (consumed tp')) = if tp' = tp then rs.map (consumed tp') else [] := by
  unfold polledFrom
  split
  · rename_i h
    rw [filter_eq_self]
    intro r hr
    obtain ⟨w, -, rfl⟩ := mem_map.mp hr
    exact decide_eq_true h
  · rename_i h
    rw [filter_eq_nil_iff]
    intro r hr
    obtain ⟨w, -, rfl⟩ := mem_map.mp hr
    exact mt of_decide_eq_true h

theorem run_eq_take {position extra : Nat} (hrun : rs <+: records.drop position)
    (hall : extra ≠ 0 → records.length ≤ position + rs.length) :
    rs = (records.drop position).take (extra + rs.length) := by
  obtain ⟨rest, hrest⟩ := hrun
  rw [← hrest]
  by_cases hz : extra = 0
  · rw [hz, Nat.zero_add, take_left]
  · have hlen := congrArg length hrest
    rw [length_append, length_drop] at hlen
    have := hall hz
    have hnil : rest = [] := length_eq_zero_iff.mp (by omega)
    rw [hnil, append_nil, take_of_length_le (by omega)]

/-- **One poll delivers a run of every partition**, each from its position. -/
theorem poll_spec (positions : List (TopicPartition × Nat)) :
    ∀ (s : State) (records : List ConsumeRecord) (earlier : Bool),
      (∀ p ∈ positions, Holds cfg s.store p.1 (content p.1)) → (positions.map Prod.fst).Nodup →
      PollSafe cfg content s.store positions earlier → (records ≠ [] → earlier = true) →
      ∃ out s' positions', poll cfg s positions records = (.ok (records ++ out), s', positions') ∧
        (∀ tp, Holds cfg s.store tp (content tp) → Holds cfg s'.store tp (content tp)) ∧
        List.Forall₂ (Delivers content out) positions positions' ∧
        ∀ tp ∉ positions.map Prod.fst, polledFrom tp out = [] := by
  induction positions with
  | nil =>
    intro s records earlier _ _ _ _
    exact ⟨[], s, [], by rw [append_nil]; rfl, fun _ h => h, .nil, fun _ _ => rfl⟩
  | cons p rest ih =>
    obtain ⟨tp, position⟩ := p
    intro s records earlier hholds hnodup hsafe hearlier
    have hhead := hholds (tp, position) mem_cons_self
    obtain ⟨rs, cache, hread, hrun, hne, hcaches⟩ := hhead.read position pollMaxBytes
    have hfetch : fetchRecords cfg s tp position pollMaxBytes =
        (.ok (rs.map WalRecord.record), { s with store := { s.store with cache := cache } }) := by
      unfold fetchRecords
      rw [hread]
      rfl
    have hkeep : ∀ tp', Holds cfg s.store tp' (content tp') →
        Holds cfg { s.store with cache := cache } tp' (content tp') :=
      fun tp' h' => hhead.of_caches h' (fun heq => by rw [heq]) hrun hcaches
    have hfirst : records ≠ [] → (content tp).length ≤ position + rs.length :=
      fun hrecords => (hsafe.1 (hearlier hrecords)).read hhead hread hne
    have hmap := mapIdx_of_run tp hhead.offset hrun
    rw [map_cons, nodup_cons] at hnodup
    have hleft : records ++ rs.map (consumed tp) ≠ [] →
        (earlier || decide (position < (content tp).length)) = true := by
      -- a fetch that returns records found the partition with some left
      intro hany
      rw [Bool.or_eq_true, decide_eq_true_eq]
      refine or_iff_not_imp_left.mpr fun hnone => ?_
      have hrecords : records = [] := not_not.mp (mt hearlier hnone)
      by_contra hend
      rw [drop_of_length_le (not_lt.mp hend), prefix_nil] at hrun
      exact hany (by rw [hrecords, hrun]; rfl)
    obtain ⟨out, s', positions', hpoll, hkeep', hdel, hnone⟩ := ih
      { s with store := { s.store with cache := cache } } (records ++ rs.map (consumed tp)) _
      (fun p hp => hkeep p.1 (hholds p (mem_cons_of_mem _ hp))) hnodup.2
      (hsafe.2.of_caches hnodup.1 hcaches) hleft
    refine ⟨rs.map (consumed tp) ++ out, s',
      (tp, position + (records.length + rs.length)) :: positions', ?_,
      fun tp' h' => hkeep' tp' (hkeep tp' h'), ?_, ?_⟩
    · rw [poll_cons hfetch]
      simp only [hmap, hpoll, length_append, length_map, append_assoc]
    · refine .cons ⟨rfl, Nat.le_add_right _ _, fun hlt => ?_, ?_⟩ ?_
      · have := length_pos_iff.mpr (hne hlt)
        show position < position + (records.length + rs.length)
        omega
      · show polledFrom tp _ = (((content tp).drop position).take
          (position + (records.length + rs.length) - position)).map (consumed tp)
        rw [polledFrom_append, hnone tp hnodup.1, polledFrom_map_consumed, if_pos rfl,
          append_nil, Nat.add_sub_cancel_left]
        congr 1
        exact run_eq_take hrun fun hz => hfirst fun hnil => hz (by rw [hnil]; rfl)
      · have hother : ∀ p ∈ rest, p.1 ≠ tp := by
          intro p hp heq
          have hmem := mem_map_of_mem (f := Prod.fst) hp
          rw [heq] at hmem
          exact hnodup.1 hmem
        refine ((forall₂_and_left _ _).mpr ⟨hother, hdel⟩).imp fun a b hab => ?_
        refine ⟨hab.2.partition, hab.2.le, hab.2.moves, ?_⟩
        rw [polledFrom_append, polledFrom_map_consumed, if_neg (Ne.symm hab.1), nil_append]
        exact hab.2.records
    · intro tp' htp'
      rw [map_cons, mem_cons, not_or] at htp'
      rw [polledFrom_append, hnone tp' htp'.2, polledFrom_map_consumed,
        if_neg (Ne.symm htp'.1), append_nil]

/-! ## Whole sequences of polls -/

def ConsumerSafe (cfg : StoreConfig) (content : TopicPartition → List WalRecord) (c : Consumer)
    (_ : Unit) : Prop :=
  PollSafe cfg content c.broker.store c.partitionOffsets false

/-- A partition after some polls: the consumer has what is before the position, and every poll
has moved the position on unless everything was delivered. -/
structure Progress (content : TopicPartition → List WalRecord) (polled : List ConsumeRecord)
    (polls : Nat) (start now : TopicPartition × Nat) : Prop where
  partition : now.1 = start.1
  le : start.2 ≤ now.2
  records : polledFrom start.1 polled =
    (((content start.1).drop start.2).take (now.2 - start.2)).map (consumed start.1)
  polls : start.2 + polls ≤ now.2 ∨ (content start.1).length ≤ now.2

structure ConsumerInv (cfg : StoreConfig) (content : TopicPartition → List WalRecord)
    (starts : List (TopicPartition × Nat)) (polls : Nat) (c : Consumer) : Prop where
  holds : ∀ p ∈ starts, Holds cfg c.broker.store p.1 (content p.1)
  positions : List.Forall₂ (Progress content c.polled polls) starts c.partitionOffsets

theorem Progress.trans {start now next : TopicPartition × Nat}
    (h : Progress content polled polls start now) (hdel : Delivers content out now next) :
    Progress content (polled ++ out) (polls + 1) start next := by
  obtain ⟨htp, hle, hmoves, hrecords⟩ := hdel
  rw [h.partition] at hmoves hrecords
  refine ⟨htp.trans h.partition, h.le.trans hle, ?_, ?_⟩
  · have hsplit : next.2 - start.2 = (now.2 - start.2) + (next.2 - now.2) := by
      have := h.le
      omega
    rw [polledFrom_append, h.records, hrecords, hsplit, take_add, map_append,
      drop_drop, Nat.add_sub_cancel' h.le]
  · rcases h.polls with hpolls | hall
    · by_cases hlt : now.2 < (content start.1).length
      · have := hmoves hlt
        exact .inl (by omega)
      · exact .inr (by omega)
    · exact .inr (hall.trans hle)

section

variable (h : List.Forall₂ (Progress content polled polls) starts now)
include h

theorem forall₂_progress {next : List (TopicPartition × Nat)}
    (hdel : List.Forall₂ (Delivers content out) now next) :
    List.Forall₂ (Progress content (polled ++ out) (polls + 1)) starts next := by
  induction h generalizing next with
  | nil =>
    cases hdel
    exact .nil
  | cons hp _ ih =>
    cases hdel with
    | cons hd hdel => exact .cons (hp.trans hd) (ih hdel)

theorem map_fst_of_progress : now.map Prod.fst = starts.map Prod.fst := by
  induction h with
  | nil => rfl
  | cons hp _ ih => rw [map_cons, map_cons, ih, hp.partition]

theorem progress_of_mem {p : TopicPartition × Nat} (hp : p ∈ starts) :
    ∃ position, Progress content polled polls p position := by
  induction h with
  | nil => cases hp
  | cons hprogress _ ih =>
    rcases mem_cons.mp hp with rfl | hp
    · exact ⟨_, hprogress⟩
    · exact ih hp

end

theorem ConsumerInv.step (hnodup : (starts.map Prod.fst).Nodup) {c c' : Consumer} {l : Unit}
    (h : ConsumerInv cfg content starts polls c) (hsafe : ConsumerSafe cfg content c l)
    (hstep : c.step cfg l = some c') : ConsumerInv cfg content starts (polls + 1) c' := by
  have hkeys := map_fst_of_progress h.positions
  have hholds : ∀ p ∈ c.partitionOffsets, Holds cfg c.broker.store p.1 (content p.1) := by
    intro p hp
    have hmem : p.1 ∈ starts.map Prod.fst := hkeys ▸ mem_map_of_mem hp
    obtain ⟨q, hq, heq⟩ := mem_map.mp hmem
    rw [← heq]
    exact h.holds q hq
  obtain ⟨out, s', positions', hpoll, hkeep, hdel, -⟩ :=
    poll_spec c.partitionOffsets c.broker [] false hholds (hkeys ▸ hnodup) hsafe
      fun h => absurd rfl h
  cases hstep
  rw [nil_append] at hpoll
  simp only [hpoll]
  exact ⟨fun p hp => hkeep p.1 (h.holds p hp), forall₂_progress h.positions hdel⟩

/-- **A consumer sees every record exactly once**: what it polls is a run of the partition's
records, and after enough polls all of them. -/
theorem polled_exactly_once (cfg : StoreConfig) (content : TopicPartition → List WalRecord)
    (broker : State) (starts : List (TopicPartition × Nat)) (hnodup : (starts.map Prod.fst).Nodup)
    (hholds : ∀ p ∈ starts, Holds cfg broker.store p.1 (content p.1)) {polls : List Unit}
    {c : Consumer}
    (hsafe : Along (Consumer.step cfg) (ConsumerSafe cfg content) ⟨broker, starts, []⟩ polls)
    (hexec : exec (Consumer.step cfg) ⟨broker, starts, []⟩ polls = some c) :
    ∀ p ∈ starts, ∃ n, polledFrom p.1 c.polled =
        (((content p.1).drop p.2).take n).map (consumed p.1) ∧
      ((content p.1).length ≤ p.2 + polls.length →
        polledFrom p.1 c.polled = ((content p.1).drop p.2).map (consumed p.1)) := by
  have hstart : ConsumerInv cfg content starts 0 ⟨broker, starts, []⟩ := by
    refine ⟨hholds, forall₂_same.mpr fun p _ => ?_⟩
    refine ⟨rfl, le_rfl, ?_, .inl le_rfl⟩
    rw [Nat.sub_self]
    rfl
  have hinv := exec_induction (I := fun hist c => ConsumerInv cfg content starts hist.length c)
    (fun hist c l c' h hP hs => by
      rw [length_append, length_singleton]
      exact h.step hnodup hP hs)
    [] hstart hsafe hexec
  rw [nil_append] at hinv
  intro p hp
  obtain ⟨now, hprogress⟩ := progress_of_mem hinv.positions hp
  refine ⟨_, hprogress.records, fun hall => ?_⟩
  rw [hprogress.records, take_of_length_le]
  rw [length_drop]
  have := hprogress.polls
  omega

/-! ## Two partitions -/

theorem oneByte_fits (b : UInt8) (offset : Nat) (hoffset : offset < 2 ^ 64) (topic : String)
    (htopic : topic.toUTF8.data.toList.length < 256 ^ 8) :
    walRecordFields.Fits ⟨⟨topic, 0⟩, offset, oneByte b, 0⟩ := by
  have hvalue : 1 < 256 ^ 8 := by decide
  exact walRecordFields_fits_value htopic hoffset hvalue

theorem Holds.of_hot {s : PartitionStore}
    (hoffset : ∀ (i : Nat) r, records[i]? = some r → r.offset = i)
    (hfits : ∀ r ∈ records, walRecordFields.Fits r)
    (hhot : ∀ k, ((s.index.hot tp).get? k).map HotEntry.record = records[k]?)
    (hcold : s.index.cold tp = .empty) (hcache : s.cache = fun _ => none) :
    Holds cfg s tp records where
  offset := hoffset
  fits := hfits
  hot k e he := by rw [← hhot k, he]; rfl
  coldEnd k range hget := by rw [hcold] at hget; cases hget
  found o ho := by
    left
    have h := hhot o
    rw [getElem?_eq_getElem ho] at h
    obtain ⟨e, he, -⟩ := Option.map_eq_some_iff.mp h
    rw [he]
    rfl
  cache o rs h := by rw [hcache] at h; cases h

def audit : TopicPartition := ⟨"audit", 0⟩

def payments : TopicPartition := ⟨"payments", 0⟩

def oneEach : State where
  store := ((PartitionStore.empty.append plainConfig ⟨audit, 0, oneByte 1, 0⟩ .ok).append
    plainConfig ⟨payments, 0, oneByte 2, 0⟩ .ok)
  partitions _ := none
  calls _ := none

def oneEachContent (tp : TopicPartition) : List WalRecord :=
  if tp = audit then [⟨audit, 0, oneByte 1, 0⟩] else [⟨payments, 0, oneByte 2, 0⟩]

theorem polled_exactly_once_oneEach :
    ∃ c, exec (Consumer.step plainConfig) ⟨oneEach, [(audit, 0), (payments, 0)], []⟩ [()] =
        some c ∧ ∀ p ∈ [(audit, 0), (payments, 0)],
          polledFrom p.1 c.polled = ((oneEachContent p.1).drop p.2).map (consumed p.1) := by
  have hhot : ∀ tp, tp = audit ∨ tp = payments → ∀ k,
      ((oneEach.store.index.hot tp).get? k).map HotEntry.record = (oneEachContent tp)[k]? := by
    rintro tp (rfl | rfl) k
    · cases k with
      | zero | succ => rfl
    · cases k with
      | zero | succ => rfl
  have hholds : ∀ p ∈ [(audit, 0), (payments, 0)],
      Holds plainConfig oneEach.store p.1 (oneEachContent p.1) := by
    intro p hp
    have hp' : p.1 = audit ∨ p.1 = payments := by
      rcases mem_cons.mp hp with rfl | hp
      · exact .inl rfl
      · exact .inr (congrArg Prod.fst (mem_singleton.mp hp))
    have hone : ∃ r, oneEachContent p.1 = [r] ∧ r.offset = 0 ∧ walRecordFields.Fits r := by
      rcases hp' with h | h
      · exact ⟨_, by rw [h]; rfl, rfl, oneByte_fits 1 0 (by decide) "audit" (by decide)⟩
      · exact ⟨_, by rw [h]; rfl, rfl, oneByte_fits 2 0 (by decide) "payments" (by decide)⟩
    obtain ⟨r, hr, hoffset, hfits⟩ := hone
    refine .of_hot ?_ ?_ (hhot p.1 hp') ?_ rfl
    · rw [hr]
      intro i r' hi
      cases i with
      | zero =>
        cases hi
        exact hoffset
      | succ i => cases hi
    · rw [hr]
      intro r' hr'
      rw [mem_singleton.mp hr']
      exact hfits
    · rcases hp' with h | h
      · rw [h]
        rfl
      · rw [h]
        rfl
  refine ⟨_, rfl, fun p hp => ?_⟩
  obtain ⟨n, -, hall⟩ := polled_exactly_once plainConfig oneEachContent oneEach
    [(audit, 0), (payments, 0)] (by decide) hholds
    (show Along _ (ConsumerSafe plainConfig oneEachContent) _ [()] from
      ⟨⟨fun h => (nomatch h), fun _ => .last (by decide), trivial⟩, fun _ _ => trivial⟩) rfl p hp
  exact hall (by revert p; decide)

def tieredFirst : PartitionStore :=
  let data := walRecordsCodec.enc [⟨payments, 0, oneByte 1, 0⟩]
  let s := PartitionStore.empty.append plainConfig ⟨payments, 0, oneByte 1, 0⟩ .ok
  let upload := uploadSegment plainConfig.storage s.objects ⟨0, 1, data.length, data, payments⟩
  let s := { s with
    objects := upload.1
    index := (s.index.flipToCold payments 0 1 upload.2 data.length).getD .new }
  (s.append plainConfig ⟨payments, 1, oneByte 2, 0⟩ .ok).append plainConfig
    ⟨audit, 0, oneByte 3, 0⟩ .ok

theorem read_tieredFirst : ∃ cache, tieredFirst.read plainConfig payments 0 pollMaxBytes =
    (.ok [⟨payments, 0, oneByte 1, 0⟩], cache) := by
  have hdown : downloadSegment plainConfig.storage tieredFirst.objects (objectKey payments 0 1) =
      .ok ⟨0, 1, _, walRecordsCodec.enc [⟨payments, 0, oneByte 1, 0⟩], payments⟩ :=
    downloadSegment_of_stored rfl (parseObjectKey_objectKey (by decide) (by decide) (by decide)
      (by decide))
  have hdec : deserializeRecords (walRecordsCodec.enc [⟨payments, 0, oneByte 1, 0⟩]) =
      .ok [⟨payments, 0, oneByte 1, 0⟩] := by
    decide +kernel
  have hhot : ((tieredFirst.index.hot payments).get? 0).isSome = false := rfl
  have hfloor : (tieredFirst.index.cold payments).floor? 0 = some (0, ⟨1, objectKey payments 0 1,
      (walRecordsCodec.enc [⟨payments, 0, oneByte 1, 0⟩]).length⟩) := rfl
  obtain ⟨taken, cache, hread, hpre, hne, -⟩ := read_of_cold hhot hfloor Nat.zero_lt_one hdown hdec
    rfl pollMaxBytes
  rcases prefix_cons_iff.mp hpre with rfl | ⟨rest, rfl, hrest⟩
  · exact absurd rfl (hne (cons_ne_nil _ _))
  · rw [prefix_nil.mp hrest] at hread
    exact ⟨cache, hread⟩

/-- After `audit` has delivered, `payments` is moved over the record it has not delivered, which
the store still has; every further poll returns nothing and changes nothing. -/
theorem second_partition_skips : ∃ c, Consumer.step plainConfig
        ⟨⟨tieredFirst, fun _ => none, fun _ => none⟩, [(audit, 0), (payments, 0)], []⟩ () = some c ∧
      polledFrom payments c.polled = [.of payments 0 (oneByte 1)] ∧
      (c.broker.store.read plainConfig payments 1 pollMaxBytes).1 =
        .ok [⟨payments, 1, oneByte 2, 0⟩] ∧
      c.partitionOffsets = [(audit, 1), (payments, 2)] ∧
      Consumer.step plainConfig c () = some c := by
  obtain ⟨cache, hread⟩ := read_tieredFirst
  let after : State := ⟨{ tieredFirst with cache := cache }, fun _ => none, fun _ => none⟩
  have haudit : fetchRecords plainConfig ⟨tieredFirst, fun _ => none, fun _ => none⟩ audit 0
      pollMaxBytes = (.ok [oneByte 3], ⟨tieredFirst, fun _ => none, fun _ => none⟩) := rfl
  have hpayments : fetchRecords plainConfig ⟨tieredFirst, fun _ => none, fun _ => none⟩ payments
      0 pollMaxBytes = (.ok [oneByte 1], after) := by
    unfold fetchRecords
    simp only [hread]
    rfl
  have haudit' : fetchRecords plainConfig after audit 1 pollMaxBytes = (.ok [], after) := rfl
  have hpayments' : fetchRecords plainConfig after payments 2 pollMaxBytes = (.ok [], after) := rfl
  have hpoll : poll plainConfig ⟨tieredFirst, fun _ => none, fun _ => none⟩
      [(audit, 0), (payments, 0)] [] =
      (.ok [.of audit 0 (oneByte 3), .of payments 0 (oneByte 1)], after,
        [(audit, 1), (payments, 2)]) := by
    simp only [poll_cons haudit, poll_cons hpayments]
    rfl
  have hagain : poll plainConfig after [(audit, 1), (payments, 2)] [] =
      (.ok [], after, [(audit, 1), (payments, 2)]) := by
    simp only [poll_cons haudit', poll_cons hpayments']
    rfl
  refine ⟨⟨after, [(audit, 1), (payments, 2)],
    [.of audit 0 (oneByte 3), .of payments 0 (oneByte 1)]⟩, ?_, rfl, rfl, rfl, ?_⟩
  · simp only [Consumer.step, hpoll]
    rfl
  · simp only [Consumer.step, hagain]
    rfl

end RustMq.Broker
