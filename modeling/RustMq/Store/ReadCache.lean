import RustMq.Store.Engine

/-!
# What a read returns, whatever was read before

A cold read leaves its answer in the download cache, under the partition and the offset, and the
next read there returns it. The answer depends on more than that: on `max_bytes`, which cut it, and
on the object, which compaction may have replaced meanwhile. So the reads of an offset have one
answer whatever was read before exactly if there is nothing to cut and nothing stale is cached.
-/

namespace RustMq.Store

open Lib List PartitionIndex

variable {index : PartitionIndex} {tp : TopicPartition} {offset maxBytes : Nat}
  {records : List WalRecord}

theorem PartitionIndex.hotRun_of_readPlan (h : index.readPlan tp offset maxBytes = .hot records) :
    ∃ fuel, records = hotRun (index.hot tp) maxBytes fuel offset 0 [] := by
  rw [readPlan_eq] at h
  split at h
  · cases h
    exact ⟨_, rfl⟩
  · split at h
    · cases h
    · split at h
      · cases h
      · cases h

namespace PartitionStore

/-! ## Reading without a cache -/

variable {key : String} {a b : Nat}

section fresh

variable (cfg : StoreConfig) (s : PartitionStore)

/-- What the object holds from the offset on. -/
def recordsFrom (key : String) (offset : Nat) : Except RustMqError (List WalRecord) :=
  match downloadSegment cfg.storage s.objects key with
  | .error e => .error e
  | .ok segment =>
    match deserializeRecords segment.data with
    | .error _ => .error (.storage ("failed to decode cold segment " ++ key))
    | .ok all => .ok (all.filter fun r => offset ≤ r.offset)

def coldRead (key : String) (offset maxBytes : Nat) : Except RustMqError (List WalRecord) :=
  match downloadSegment cfg.storage s.objects key with
  | .error e => .error e
  | .ok segment =>
    match deserializeRecords segment.data with
    | .error _ => .error (.storage ("failed to decode cold segment " ++ key))
    | .ok all => .ok (takeBytes cfg maxBytes 0 [] (all.filter fun r => offset ≤ r.offset))

def fresh (tp : TopicPartition) (offset maxBytes : Nat) : Except RustMqError (List WalRecord) :=
  match s.index.readPlan tp offset maxBytes with
  | .hot records => .ok records
  | .empty => .ok []
  | .cold key _ _ => coldRead cfg s key offset maxBytes

def kept (cache : Objects) (key : String) : Except RustMqError (List WalRecord) → Objects
  | .error _ => cache
  | .ok out =>
    match serializeRecords out with
    | .ok bytes => cache.put key bytes
    | .error _ => cache

theorem readOnce_of_miss {cache : Objects} {a b : Nat}
    (hplan : s.index.readPlan tp offset maxBytes = .cold key a b)
    (hmiss : cached cache (cacheKey tp offset) = none) :
    readOnce cfg s cache tp offset maxBytes = (coldRead cfg s key offset maxBytes,
        kept cache (cacheKey tp offset) (coldRead cfg s key offset maxBytes)) := by
  unfold readOnce coldRead
  simp only [hplan, hmiss]
  cases downloadSegment cfg.storage s.objects key with
  | error e => rfl
  | ok segment =>
    cases hdec : deserializeRecords segment.data with
    | error e => simp only [hdec]; rfl
    | ok all =>
      simp only [hdec, kept]
      cases serializeRecords (takeBytes cfg maxBytes 0 []
        (all.filter fun r => decide (offset ≤ r.offset))) with
      | error e => rfl
      | ok bytes => rfl

theorem kept_cases (cache : Objects) (key : String) (answer : Except RustMqError (List WalRecord)) :
    kept cache key answer = cache ∨ ∃ out bytes, answer = .ok out ∧
      serializeRecords out = .ok bytes ∧ kept cache key answer = cache.put key bytes := by
  cases answer with
  | error e => exact .inl rfl
  | ok out =>
    cases hser : serializeRecords out with
    | error e => exact .inl (by rw [kept, hser])
    | ok bytes => exact .inr ⟨out, bytes, rfl, hser, by rw [kept, hser]⟩

variable {cfg s}

theorem recordsFrom_of_download {segment : WalSegment} {all : List WalRecord}
    (hdown : downloadSegment cfg.storage s.objects key = .ok segment)
    (hdec : deserializeRecords segment.data = .ok all) (offset : Nat) :
    recordsFrom cfg s key offset = .ok (all.filter fun r => offset ≤ r.offset) := by
  unfold recordsFrom
  rw [hdown]
  simp only [hdec]

theorem coldRead_eq (cfg : StoreConfig) (s : PartitionStore) (key : String)
    (offset maxBytes : Nat) : coldRead cfg s key offset maxBytes =
      (recordsFrom cfg s key offset).map (takeBytes cfg maxBytes 0 []) := by
  unfold coldRead recordsFrom
  cases downloadSegment cfg.storage s.objects key with
  | error e => rfl
  | ok segment =>
    dsimp only
    cases deserializeRecords segment.data with
    | error e => rfl
    | ok all => rfl

theorem fits_of_coldRead {out : List WalRecord} (h : coldRead cfg s key offset maxBytes = .ok out) :
    ∀ r ∈ out, walRecordFields.Fits r := by
  unfold coldRead at h
  split at h
  · cases h
  · split at h
    · cases h
    · rename_i segment _ all hdec
      cases h
      have hall : ∀ r ∈ all, walRecordFields.Fits r := by
        unfold deserializeRecords at hdec
        split at hdec
        · rename_i records hrecords
          cases hdec
          obtain ⟨⟨records, rest⟩, hdecoded, rfl⟩ := Option.map_eq_some_iff.mp hrecords
          exact (walRecordFields_decFits.list hdecoded).2
        · cases hdec
      obtain ⟨taken, hrun, heq, -⟩ := takeBytes_run cfg maxBytes
        (all.filter fun r => offset ≤ r.offset) 0 []
      intro r hr
      rw [heq, nil_append] at hr
      exact hall r (mem_filter.mp (hrun.subset hr)).1

end fresh

/-! ## A cache that agrees -/

theorem cached_delete (cache : Objects) (key key' : String) :
    cached (cache.delete key) key' = if key' = key then none else cached cache key' := by
  unfold cached Objects.delete
  rw [Function.update_apply]
  split <;> rfl

/-- Where a read would ask the cache, it finds nothing or what the object gives. -/
def Agrees (cfg : StoreConfig) (s : PartitionStore) (tp : TopicPartition) (offset maxBytes : Nat)
    (cache : Objects) : Prop :=
  ∀ key a b, s.index.readPlan tp offset maxBytes = .cold key a b →
    ∀ records, cached cache (cacheKey tp offset) = some records →
      coldRead cfg s key offset maxBytes = .ok records

/-- The cold read of the offset does not depend on `max_bytes`. -/
def Uncut (cfg : StoreConfig) (s : PartitionStore) (tp : TopicPartition) (offset maxBytes : Nat) :
    Prop :=
  ∀ key a b, s.index.readPlan tp offset maxBytes = .cold key a b → ∀ maxBytes',
    coldRead cfg s key offset maxBytes' = coldRead cfg s key offset maxBytes

theorem readPlan_cold (h : index.readPlan tp offset maxBytes = .cold key a b) (maxBytes' : Nat) :
    index.readPlan tp offset maxBytes' = .cold key a b := by
  rw [readPlan_eq] at h ⊢
  split at h
  · cases h
  · rename_i hhot
    rw [if_neg hhot]
    exact h

namespace Agrees

variable {cfg : StoreConfig} {s : PartitionStore} {cache : Objects}

theorem of_miss (h : cached cache (cacheKey tp offset) = none) :
    Agrees cfg s tp offset maxBytes cache := by
  intro key a b _ records hrecords
  rw [h] at hrecords
  cases hrecords

theorem delete (h : Agrees cfg s tp offset maxBytes cache) (key : String) :
    Agrees cfg s tp offset maxBytes (cache.delete key) := by
  intro key' a b hplan records hrecords
  rw [cached_delete] at hrecords
  split at hrecords
  · cases hrecords
  · exact h key' a b hplan records hrecords

/-- **One pass returns the fresh answer.** -/
theorem readOnce_fst (h : Agrees cfg s tp offset maxBytes cache) :
    (readOnce cfg s cache tp offset maxBytes).1 = fresh cfg s tp offset maxBytes := by
  unfold fresh
  cases hplan : s.index.readPlan tp offset maxBytes with
  | hot | empty => rw [readOnce, hplan]
  | cold key a b =>
    cases hcached : cached cache (cacheKey tp offset) with
    | none => rw [readOnce_of_miss cfg s hplan hcached]
    | some records =>
      rw [readOnce, hplan]
      simp only [hcached]
      exact (h key a b hplan records hcached).symm

theorem read_fst (h : Agrees cfg s tp offset maxBytes s.cache) :
    (s.read cfg tp offset maxBytes).1 = fresh cfg s tp offset maxBytes := by
  have hfirst := h.readOnce_fst
  unfold read
  split
  · have hmiss : ∀ cache : Objects,
        cached (cache.delete (cacheKey tp offset)) (cacheKey tp offset) = none := fun cache => by
      rw [cached_delete, if_pos rfl]
    exact (of_miss (hmiss _)).readOnce_fst
  · exact hfirst

theorem readOnce_snd (h : Agrees cfg s tp offset maxBytes cache)
    (huncut : Uncut cfg s tp offset maxBytes) (tp' : TopicPartition) (offset' maxBytes' : Nat) :
    Agrees cfg s tp offset maxBytes (readOnce cfg s cache tp' offset' maxBytes').2 := by
  cases hplan : s.index.readPlan tp' offset' maxBytes' with
  | hot | empty => rwa [readOnce, hplan]
  | cold key a b =>
    cases hcached : cached cache (cacheKey tp' offset') with
    | some records =>
      rw [readOnce, hplan]
      simpa only [hcached] using h
    | none =>
      rw [readOnce_of_miss cfg s hplan hcached]
      rcases kept_cases cache (cacheKey tp' offset') (coldRead cfg s key offset' maxBytes') with
        hkept | ⟨out, bytes, hcold, hser, hkept⟩
      · rwa [hkept]
      · rw [hkept]
        intro key' a' b' hplan' records hrecords
        rw [cached_put] at hrecords
        split at hrecords
        · rename_i hkey
          obtain ⟨rfl, rfl⟩ := cacheKey_inj hkey
          rw [deserializeRecords_of_serializeRecords (fits_of_coldRead hcold) hser] at hrecords
          cases hrecords
          have hsame := readPlan_cold hplan' maxBytes'
          rw [hplan] at hsame
          cases hsame
          exact (huncut _ _ _ hplan' maxBytes').symm.trans hcold
        · exact h key' a' b' hplan' records hrecords

theorem read_snd (h : Agrees cfg s tp offset maxBytes s.cache)
    (huncut : Uncut cfg s tp offset maxBytes) (tp' : TopicPartition) (offset' maxBytes' : Nat) :
    Agrees cfg s tp offset maxBytes (s.read cfg tp' offset' maxBytes').2 := by
  have hfirst := h.readOnce_snd huncut tp' offset' maxBytes'
  unfold read
  split
  · rename_i message cache heq
    rw [heq] at hfirst
    exact (hfirst.delete _).readOnce_snd huncut tp' offset' maxBytes'
  · exact hfirst

end Agrees

/-! ## Earlier reads -/

/-- What may have happened to the cache: reads, and entries that were dropped. -/
inductive Access where
  | read (tp : TopicPartition) (offset maxBytes : Nat)
  | evict (key : String)

def access (cfg : StoreConfig) (s : PartitionStore) : Access → PartitionStore
  | .read tp offset maxBytes => { s with cache := (s.read cfg tp offset maxBytes).2 }
  | .evict key => { s with cache := s.cache.delete key }

def after (cfg : StoreConfig) (s : PartitionStore) (history : List Access) : PartitionStore :=
  history.foldl (access cfg) s

section history

variable {cfg : StoreConfig} {s : PartitionStore}

theorem Agrees.access (h : Agrees cfg s tp offset maxBytes s.cache)
    (huncut : Uncut cfg s tp offset maxBytes) (a : Access) :
    Agrees cfg (s.access cfg a) tp offset maxBytes (s.access cfg a).cache := by
  cases a with
  | read tp' offset' maxBytes' => exact h.read_snd huncut tp' offset' maxBytes'
  | evict key => exact h.delete key

theorem fresh_access (cfg : StoreConfig) (s : PartitionStore) (a : Access) (tp : TopicPartition)
    (offset maxBytes : Nat) :
    fresh cfg (s.access cfg a) tp offset maxBytes = fresh cfg s tp offset maxBytes := by
  cases a with
  | read | evict => rfl

/-- **A read returns the fresh answer after any history** where nothing is cut. -/
theorem Agrees.read_after (h : Agrees cfg s tp offset maxBytes s.cache)
    (huncut : Uncut cfg s tp offset maxBytes) (history : List Access) :
    ((s.after cfg history).read cfg tp offset maxBytes).1 = fresh cfg s tp offset maxBytes := by
  induction history generalizing s with
  | nil => exact h.read_fst
  | cons a history ih =>
    rw [← fresh_access cfg s a]
    have huncut' : Uncut cfg (s.access cfg a) tp offset maxBytes := by
      cases a with
      | read | evict => exact huncut
    exact ih (h.access huncut a) huncut'

end history

variable {cfg : StoreConfig} {out : List WalRecord} {s : PartitionStore}

/-- **A cold read decides what the next reads of the offset return**, whatever `max_bytes` they
have. -/
theorem read_after_read {bytes : Bytes}
    (hplan : s.index.readPlan tp offset maxBytes = .cold key a b)
    (hmiss : cached s.cache (cacheKey tp offset) = none)
    (hcold : coldRead cfg s key offset maxBytes = .ok out) (hser : serializeRecords out = .ok bytes)
    (maxBytes' : Nat) :
    ((s.after cfg [.read tp offset maxBytes]).read cfg tp offset maxBytes').1 = .ok out := by
  have hfirst : s.read cfg tp offset maxBytes =
      (.ok out, s.cache.put (cacheKey tp offset) bytes) := by
    unfold read
    rw [readOnce_of_miss cfg s hplan hmiss, hcold, kept, hser]
  have hhit : cached (s.cache.put (cacheKey tp offset) bytes) (cacheKey tp offset) = some out := by
    rw [cached_put, if_pos rfl,
      deserializeRecords_of_serializeRecords (fits_of_coldRead hcold) hser]
    rfl
  show (read cfg { s with cache := (s.read cfg tp offset maxBytes).2 } tp offset maxBytes').1 = _
  rw [hfirst]
  unfold read readOnce
  rw [readPlan_cold hplan maxBytes']
  simp only [hhit]

/-! ## How much is returned -/

/-- At most one record, or what the estimates allow. -/
def Cut (cfg : StoreConfig) (maxBytes : Nat) (records : List WalRecord) : Prop :=
  records.length ≤ 1 ∨ (records.map (memSize cfg)).sum ≤ maxBytes

theorem sum_concat (cfg : StoreConfig) (out : List WalRecord) (r : WalRecord) :
    ((out ++ [r]).map (memSize cfg)).sum = (out.map (memSize cfg)).sum + memSize cfg r := by
  rw [map_append, sum_append, map_singleton, sum_singleton]

theorem Cut.concat {r : WalRecord}
    (h : ¬ (out ≠ [] ∧ (out.map (memSize cfg)).sum + memSize cfg r > maxBytes)) :
    Cut cfg maxBytes (out ++ [r]) := by
  by_cases hout : out = []
  · subst hout
    exact .inl le_rfl
  · refine .inr ?_
    rw [sum_concat]
    exact not_lt.mp fun hgt => h ⟨hout, hgt⟩

theorem cut_hotRun {hot : SMap Nat HotEntry}
    (hsize : ∀ k e, hot.get? k = some e → e.size = memSize cfg e.record) (maxBytes : Nat)
    (hout : Cut cfg maxBytes out) (fuel cur : Nat) :
    Cut cfg maxBytes
      (PartitionIndex.hotRun hot maxBytes fuel cur (out.map (memSize cfg)).sum out) := by
  induction fuel generalizing cur out with
  | zero => exact hout
  | succ fuel ih =>
    unfold PartitionIndex.hotRun
    split
    · exact hout
    · rename_i e hget
      rw [hsize cur e hget]
      split
      · exact hout
      · rename_i htake
        rw [← sum_concat]
        exact ih (Cut.concat htake) (cur + 1)

theorem sum_le_of_hotFrom {hot : SMap Nat HotEntry} {f g : WalRecord → Nat} {cur : Nat}
    (hle : ∀ k e, cur ≤ k → hot.get? k = some e → f e.record ≤ g e.record)
    (h : HotFrom hot cur records) : (records.map f).sum ≤ (records.map g).sum := by
  induction records generalizing cur with
  | nil => exact le_rfl
  | cons r records ih =>
    obtain ⟨⟨size, hget⟩, hrest⟩ := h
    rw [map_cons, map_cons, sum_cons, sum_cons]
    exact Nat.add_le_add (hle cur _ le_rfl hget)
      (ih (fun k e hk => hle k e (by omega)) hrest)

/-! ## Two histories -/

def encodedSize (r : WalRecord) : Nat := (walRecordFields.enc r).length

/-- Where a read of the offset goes to an object: the object has at most one record from there on,
and an entry that is cached for the offset is what the object has. -/
def OneAnswer (cfg : StoreConfig) (s : PartitionStore) (tp : TopicPartition) (offset : Nat) : Prop :=
  ((s.index.hot tp).get? offset).isSome = false → ∀ start range,
    (s.index.cold tp).floor? offset = some (start, range) → offset < range.endOffset →
      (∀ records, recordsFrom cfg s range.objectKey offset = .ok records → records.length ≤ 1) ∧
      ∀ records, cached s.cache (cacheKey tp offset) = some records →
        recordsFrom cfg s range.objectKey offset = .ok records

/-- The sizes of the records do not wrap around to zero, and the records can be written again. -/
def Ordinary (cfg : StoreConfig) (records : List WalRecord) : Prop :=
  (∀ r ∈ records, 0 < memSize cfg r) ∧ ∀ n, ∃ bytes, serializeRecords (records.take n) = .ok bytes

theorem takeBytes_short (cfg : StoreConfig) (maxBytes : Nat) (h : records.length ≤ 1) :
    takeBytes cfg maxBytes 0 [] records = records := by
  rcases records with _ | ⟨r, _ | ⟨r', rest⟩⟩
  · rfl
  · rfl
  · simp at h

theorem takeBytes_zero (h : ∀ r ∈ records, 0 < memSize cfg r) :
    takeBytes cfg 0 0 [] records = records.take 1 := by
  rcases records with _ | ⟨r, _ | ⟨r', rest⟩⟩
  · rfl
  · rfl
  · have hpos := h r' (mem_cons_of_mem _ mem_cons_self)
    rw [takeBytes, if_neg fun hand => hand.1 rfl, takeBytes,
      if_pos ⟨cons_ne_nil r [], by omega⟩]
    rfl

theorem OneAnswer.plan (h : OneAnswer cfg s tp offset)
    (hplan : s.index.readPlan tp offset maxBytes = .cold key a b) :
    (∀ records, recordsFrom cfg s key offset = .ok records → records.length ≤ 1) ∧
      ∀ records, cached s.cache (cacheKey tp offset) = some records →
        recordsFrom cfg s key offset = .ok records := by
  rw [readPlan_eq] at hplan
  split at hplan
  · cases hplan
  · rename_i hhot
    split at hplan
    · cases hplan
    · rename_i hfloor
      split at hplan
      · rename_i hlt
        cases hplan
        exact h (Bool.eq_false_iff.mpr hhot) _ _ hfloor hlt
      · cases hplan

theorem OneAnswer.uncut (h : OneAnswer cfg s tp offset) : Uncut cfg s tp offset maxBytes := by
  intro key a b hplan maxBytes'
  have hshort := (h.plan hplan).1
  rw [coldRead_eq, coldRead_eq]
  cases hrecords : recordsFrom cfg s key offset with
  | error e => rfl
  | ok records =>
    have := hshort records hrecords
    simp only [Except.map, takeBytes_short cfg _ this]

theorem OneAnswer.agrees (h : OneAnswer cfg s tp offset) :
    Agrees cfg s tp offset maxBytes s.cache := by
  intro key a b hplan records hcached
  obtain ⟨hshort, hentry⟩ := h.plan hplan
  have hrecords := hentry records hcached
  rw [coldRead_eq, hrecords, Except.map, takeBytes_short cfg _ (hshort records hrecords)]

/-- The two reads that tell: with no bytes allowed, and with as many as the object has. -/
theorem length_le_one_of_same (hplan : s.index.readPlan tp offset maxBytes = .cold key a b)
    (hmiss : cached s.cache (cacheKey tp offset) = none)
    (hrecords : recordsFrom cfg s key offset = .ok records) (hordinary : Ordinary cfg records)
    (hsame : ∀ m m', ((s.after cfg [.read tp offset m]).read cfg tp offset maxBytes).1 =
      ((s.after cfg [.read tp offset m']).read cfg tp offset maxBytes).1) :
    records.length ≤ 1 := by
  have hcold : ∀ m, coldRead cfg s key offset m = .ok (takeBytes cfg m 0 [] records) := fun m => by
    rw [coldRead_eq, hrecords]
    rfl
  obtain ⟨bytes, hbytes⟩ := hordinary.2 1
  obtain ⟨bytes', hbytes'⟩ := hordinary.2 records.length
  rw [take_length] at hbytes'
  have hfew := read_after_read (readPlan_cold hplan 0) hmiss
    ((hcold 0).trans (congrArg _ (takeBytes_zero hordinary.1))) hbytes maxBytes
  have hall := read_after_read (readPlan_cold hplan (records.map (memSize cfg)).sum) hmiss
    ((hcold _).trans (congrArg _ (takeBytes_all (Nat.zero_add _).le))) hbytes' maxBytes
  have heq := Except.ok.inj (hfew.symm.trans ((hsame _ _).trans hall))
  rw [nil_append] at heq
  have hlength := congrArg length heq
  rw [length_take] at hlength
  omega

def valueAt (offset : Nat) (headers : List Header) : WalRecord :=
  ⟨⟨"a", 0⟩, offset, ⟨none, [1], headers, 0⟩, 0⟩

def coldPair : List WalRecord := [valueAt 0 [], valueAt 1 []]

def twoCold : PartitionStore :=
  { PartitionStore.empty with
    index := PartitionIndex.new.insertCold ⟨"a", 0⟩ 0 2 (objectKey ⟨"a", 0⟩ 0 2) 110
    objects := (uploadSegment plainConfig.storage (fun _ => none)
      ⟨0, 2, 110, walRecordsCodec.enc coldPair, ⟨"a", 0⟩⟩).1 }

theorem fits_coldPair : ∀ r ∈ coldPair, walRecordFields.Fits r := by
  have hfits : ∀ offset, offset < 256 ^ 8 → walRecordFields.Fits (valueAt offset []) :=
    fun offset hoffset => walRecordFields_fits_value (by decide) hoffset (by decide)
  exact forall_mem_cons.mpr ⟨hfits 0 (by decide),
    forall_mem_cons.mpr ⟨hfits 1 (by decide), fun _ hr => nomatch hr⟩⟩

theorem serialize_coldPair : serializeRecords coldPair = .ok (walRecordsCodec.enc coldPair) :=
  if_pos (by decide +kernel)

theorem stored_twoCold : twoCold.objects (objectKey ⟨"a", 0⟩ 0 2) =
    some (dataWithCrc plainConfig.storage (walRecordsCodec.enc coldPair)) := by
  have hsmall : isMultipart plainConfig.storage (walRecordsCodec.enc coldPair) = false := by
    decide +kernel
  show (uploadSegment plainConfig.storage (fun _ => none)
    ⟨0, 2, 110, walRecordsCodec.enc coldPair, ⟨"a", 0⟩⟩).1 (objectKey ⟨"a", 0⟩ 0 2) = _
  rw [uploadSegment_objects, if_pos ⟨hsmall, rfl, rfl, rfl⟩]

theorem recordsFrom_twoCold (offset : Nat) :
    recordsFrom plainConfig twoCold (objectKey ⟨"a", 0⟩ 0 2) offset =
      .ok (coldPair.filter fun r => offset ≤ r.offset) := by
  have hparse : parseObjectKey (objectKey ⟨"a", 0⟩ 0 2) = .ok (⟨"a", 0⟩, 0, 2) :=
    parseObjectKey_objectKey (by decide) (by decide) (by decide) (by decide)
  exact recordsFrom_of_download (downloadSegment_of_stored stored_twoCold hparse)
    (deserializeRecords_of_serializeRecords fits_coldPair serialize_coldPair) offset

theorem coldRead_twoCold (maxBytes : Nat) :
    coldRead plainConfig twoCold (objectKey ⟨"a", 0⟩ 0 2) 0 maxBytes =
      .ok (takeBytes plainConfig maxBytes 0 [] coldPair) := by
  have hall : coldPair.filter (fun r => 0 ≤ r.offset) = coldPair := rfl
  rw [coldRead_eq, recordsFrom_twoCold, hall]
  rfl

theorem plan_twoCold (maxBytes : Nat) : twoCold.index.readPlan ⟨"a", 0⟩ 0 maxBytes =
    .cold (objectKey ⟨"a", 0⟩ 0 2) 0 2 :=
  have hzero : twoCold.index.readPlan ⟨"a", 0⟩ 0 0 = .cold (objectKey ⟨"a", 0⟩ 0 2) 0 2 := by
    decide +kernel
  readPlan_cold hzero maxBytes

theorem fresh_twoCold (maxBytes : Nat) : fresh plainConfig twoCold ⟨"a", 0⟩ 0 maxBytes =
    .ok (takeBytes plainConfig maxBytes 0 [] coldPair) := by
  rw [fresh, plan_twoCold]
  exact coldRead_twoCold maxBytes

end PartitionStore
end RustMq.Store
