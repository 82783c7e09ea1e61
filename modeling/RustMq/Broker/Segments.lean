import RustMq.Broker.Offsets

/-!
# Offsets in the sealed segments

`tier_segment` takes the records of a partition in a sealed segment for a contiguous run of offsets.
The broker does not keep that up. A call that replicates writes every record twice, the second time
through the replication manager (`replicated_batch_is_doubled`), and a batch that fails after its
first record leaves records whose offsets the next call uses again.
-/

namespace RustMq.Broker

open Lib Store PartitionStore List Function

def Consecutive (recs : List WalRecord) : Prop :=
  ∃ start, recs.map WalRecord.offset = List.range' start recs.length

/-- The range `tier_segment` computes for a group is not empty, and the group has one record for
every offset of it. -/
def Tierable (recs : List WalRecord) : Prop :=
  recs ≠ [] → groupStart recs < groupEnd recs ∧
    ∀ o, groupStart recs ≤ o → o < groupEnd recs →
      (recs.filter fun r => r.offset = o).length = 1

theorem Consecutive.tierable {recs : List WalRecord} (h : Consecutive recs) : Tierable recs := by
  intro hne
  obtain ⟨start, hmap⟩ := h
  have hpos : 0 < recs.length := length_pos_iff.mpr hne
  have hhead : groupStart recs = start := by
    unfold groupStart
    rw [← head?_map, hmap, head?_range', if_neg hpos.ne']
    rfl
  have hlast : groupEnd recs = start + recs.length := by
    have hmapLast : recs.getLast?.map (fun r => r.offset + 1) =
        (recs.map WalRecord.offset).getLast?.map (· + 1) := by
      rw [getLast?_map, Option.map_map]
      rfl
    unfold groupEnd
    rw [hmapLast, hmap, getLast?_range', if_neg hpos.ne']
    show start + recs.length - 1 + 1 = _
    omega
  rw [hhead, hlast]
  refine ⟨by omega, fun o hlo hhi => ?_⟩
  have hcount : (recs.filter fun r => r.offset = o).length =
      (recs.map WalRecord.offset).count o := by
    rw [count, countP_map, countP_eq_length_filter]
    congr 1
  have hmem : o ∈ range' start recs.length := mem_range'_1.mpr ⟨hlo, hhi⟩
  rw [hcount, hmap]
  exact count_eq_one_of_mem nodup_range' hmem

/-! ## Orderly runs -/

/-- The step overlaps no call in progress on `tp`, starts no call that would replicate, and is no
failed write but one that leaves nothing in the log. -/
def Orderly (tp : TopicPartition) (s : State) (l : Label) : Prop :=
  Serialized tp s l ∧
    (∀ id records acks, l = .spawn id tp records acks → acks.replicates = true → records = []) ∧
    ∀ id left c pass base i, l = .call id (.fail left) → s.calls id = some c →
      c.topicPartition = tp → c.phase = .append pass base i true → i = 0 ∧ left = false

def Phase.cursor (n : Nat) : Phase → Nat
  | .append .own base i _ => base + min i n
  | .append .replica base _ _ | .advance base => base + n
  | .snapshot | .done _ => 0

def Phase.inReplica : Phase → Bool
  | .append .replica _ _ _ => true
  | _ => false

/-- The run of offsets in the log may end at `k`: the cursor of a call in progress, or the high
watermark when there is none. -/
structure AtCursor (tp : TopicPartition) (s : State) (k : Nat) : Prop where
  busy : ∀ id c, s.calls id = some c → c.topicPartition = tp → c.phase.inProgress = true →
    k = c.phase.cursor c.records.length
  idle : (∀ id c, s.calls id = some c → c.topicPartition = tp → c.phase.inProgress = false) →
    ∀ m, s.partitions tp = some m → k = m.highWatermark

structure SegInv (tp : TopicPartition) (s : State) : Prop where
  sealedRuns : ∀ seq xs, s.store.wal.sealedSegs.get? seq = some xs →
    Consecutive (recordsOf tp xs)
  activeRun : ∃ start, (recordsOf tp s.store.wal.active).map WalRecord.offset =
      List.range' start (recordsOf tp s.store.wal.active).length ∧
    (recordsOf tp s.store.wal.active ≠ [] →
      AtCursor tp s (start + (recordsOf tp s.store.wal.active).length))
  quiet : ∀ id c, s.calls id = some c → c.topicPartition = tp →
    c.acks.replicates = true ∨ c.phase.inReplica = true → c.records = []

/-! ## Every step keeps it -/

variable {cfg : StoreConfig} {s : State} {c : Call} {store : PartitionStore}
  {partitions : TopicPartition → Option PartitionMetadata} {phase : Phase}

section

variable {id : Nat}

theorem atCursor_move {k : Nat} (halone : ∀ id' c', id' ≠ id → s.calls id' = some c' →
      c'.topicPartition = c.topicPartition → c'.phase.inProgress = false)
    (hbusy : phase.inProgress = true → k = phase.cursor c.records.length)
    (hidle : phase.inProgress = false →
      ∀ m, partitions c.topicPartition = some m → k = m.highWatermark) :
    AtCursor c.topicPartition
      ⟨store, partitions, Function.update s.calls id (some { c with phase := phase })⟩ k := by
  constructor
  · intro id' c' hid' htp' hprog
    rcases of_update_eq_some hid' with ⟨-, rfl⟩ | ⟨hne, hold⟩
    · exact hbusy hprog
    · rw [halone id' c' hne hold htp'] at hprog
      cases hprog
  · intro hnone
    exact hidle (hnone id _ (update_self ..) rfl)

theorem quiet_move (h : SegInv c.topicPartition s) (hid : s.calls id = some c)
    (hreplica : phase.inReplica = true → c.records = []) (id' : Nat) (c' : Call)
    (hid' : Function.update s.calls id (some { c with phase := phase }) id' = some c')
    (htp' : c'.topicPartition = c.topicPartition)
    (hrep : c'.acks.replicates = true ∨ c'.phase.inReplica = true) : c'.records = [] := by
  rcases of_update_eq_some hid' with ⟨-, rfl⟩ | ⟨-, hold⟩
  · rcases hrep with hrep | hrep
    · exact h.quiet id c hid rfl (.inl hrep)
    · exact hreplica hrep
  · exact h.quiet id' c' hold htp' hrep

variable (h : SegInv c.topicPartition s) (hid : s.calls id = some c)
  (halone : ∀ id' c', id' ≠ id → s.calls id' = some c' →
    c'.topicPartition = c.topicPartition → c'.phase.inProgress = false)
  (hreplica : phase.inReplica = true → c.records = [])
include h hid halone hreplica

theorem SegInv.move (hwal : store.wal = s.store.wal) (hcursor : ∀ k, AtCursor c.topicPartition s k →
      (phase.inProgress = true → k = phase.cursor c.records.length) ∧
      (phase.inProgress = false →
        ∀ m, partitions c.topicPartition = some m → k = m.highWatermark)) :
    SegInv c.topicPartition
      ⟨store, partitions, Function.update s.calls id (some { c with phase := phase })⟩ := by
  obtain ⟨start, hmap, hat⟩ := h.activeRun
  refine ⟨?_, ⟨start, ?_, ?_⟩, quiet_move h hid hreplica⟩
  · rw [hwal]
    exact h.sealedRuns
  · rw [hwal]
    exact hmap
  · rw [hwal]
    intro hne
    obtain ⟨hbusy, hidle⟩ := hcursor _ (hat hne)
    exact atCursor_move halone hbusy hidle

theorem SegInv.append {r : WalRecord} (htp : r.topicPartition = c.topicPartition)
    (hcursor : ∀ k, AtCursor c.topicPartition s k → k = r.offset) (hprog : phase.inProgress = true)
    (hnext : phase.cursor c.records.length = r.offset + 1) :
    SegInv c.topicPartition ⟨s.store.appendWal r .ok, partitions,
        Function.update s.calls id (some { c with phase := phase })⟩ := by
  obtain ⟨start, hmap, hat⟩ := h.activeRun
  have hrecs : recordsOf c.topicPartition (s.store.appendWal r .ok).wal.active =
      recordsOf c.topicPartition s.store.wal.active ++ [r] := by
    show recordsOf c.topicPartition (s.store.wal.active ++ [r]) = _
    rw [recordsOf_append, ← htp, recordsOf_singleton_self]
  -- the run ends at the record's offset, or has not begun
  obtain ⟨start', hmap', hend⟩ : ∃ start', (recordsOf c.topicPartition s.store.wal.active).map
      WalRecord.offset = range' start' (recordsOf c.topicPartition s.store.wal.active).length ∧
      start' + (recordsOf c.topicPartition s.store.wal.active).length = r.offset := by
    by_cases hne : recordsOf c.topicPartition s.store.wal.active = []
    · rw [hne]
      exact ⟨r.offset, rfl, rfl⟩
    · exact ⟨start, hmap, hcursor _ (hat hne)⟩
  refine ⟨h.sealedRuns, ⟨start', ?_, fun _ => ?_⟩, quiet_move h hid hreplica⟩
  · rw [hrecs, map_append, hmap', length_append, length_singleton, range'_concat, Nat.one_mul, hend]
    rfl
  · refine atCursor_move halone (fun _ => ?_) (fun hidle => ?_)
    · rw [hrecs, length_append, length_singleton, hnext]
      omega
    · rw [hprog] at hidle
      cases hidle

end

variable {tp : TopicPartition} {s' : State}

section

variable {outcome : AppendOutcome}

theorem SegInv.callStep {id : Nat} (h : SegInv c.topicPartition s) (hinv : Inv c.topicPartition s)
    (hid : s.calls id = some c) (horderly : Orderly c.topicPartition s (.call id outcome))
    (hstep : CallStep cfg s c outcome store partitions phase) :
    SegInv c.topicPartition
      ⟨store, partitions, Function.update s.calls id (some { c with phase := phase })⟩ := by
  obtain ⟨hserial, -, hfail⟩ := horderly
  have halone := hinv.alone hid hserial hstep
  -- where the run ends before the move
  have hbusy : ∀ k, AtCursor c.topicPartition s k → c.phase.inProgress = true →
      k = c.phase.cursor c.records.length := fun k hk => hk.busy id c hid rfl
  have hidle : ∀ k, AtCursor c.topicPartition s k → c.phase.inProgress = false →
      ∀ m, s.partitions c.topicPartition = some m → k = m.highWatermark := by
    intro k hk hprog
    refine hk.idle fun id' c' hid' htp' => ?_
    by_cases heq : id' = id
    · rw [heq, hid] at hid'
      cases hid'
      exact hprog
    · exact halone id' c' heq hid' htp'
  -- the replication loop has no records
  have hown : ∀ {pass base i indexed r}, c.phase = .append pass base i indexed →
      c.records[i]? = some r → pass = .own := by
    intro pass base i indexed r hphase hr
    cases pass with
    | own => rfl
    | replica =>
      rw [h.quiet id c hid rfl (.inr (by rw [hphase]; rfl))] at hr
      cases hr
  cases hstep with
  | refused e hphase =>
    refine h.move hid halone (fun hr => nomatch hr) rfl
      fun k hk => ⟨fun hp => (nomatch hp), fun _ => ?_⟩
    exact hidle k hk (by rw [hphase]; rfl)
  | snapshot m hphase hm =>
    refine h.move hid halone (fun hr => nomatch hr) rfl
      fun k hk => ⟨fun _ => ?_, fun hp => nomatch hp⟩
    rw [hidle k hk (by rw [hphase]; rfl) m hm]
    show m.highWatermark = m.highWatermark + min 0 _
    omega
  | index pass base i r hphase hr =>
    cases hown hphase hr
    refine h.move hid halone (fun hr => nomatch hr) rfl
      fun k hk => ⟨fun _ => ?_, fun hp => nomatch hp⟩
    rw [hbusy k hk (by rw [hphase]; rfl), hphase]
    rfl
  | loopEnd pass base i hphase hr =>
    have hlen : c.records.length ≤ i := getElem?_eq_none_iff.mp hr
    have hend : c.phase.cursor c.records.length = base + c.records.length := by
      rw [hphase]
      cases pass with
      | own => show base + min i _ = _; omega
      | replica => rfl
    have hcursor : ∀ k, AtCursor c.topicPartition s k → k = base + c.records.length := by
      intro k hk
      rw [hbusy k hk (by rw [hphase]; rfl), hend]
    rcases c.afterPass_cases base pass with heq | ⟨hrep, heq⟩
    · rw [heq]
      exact h.move hid halone (fun hr => nomatch hr) rfl
        fun k hk => ⟨fun _ => hcursor k hk, fun hp => nomatch hp⟩
    · rw [heq]
      exact h.move hid halone (fun _ => h.quiet id c hid rfl (.inl hrep)) rfl
        fun k hk => ⟨fun _ => hcursor k hk, fun hp => nomatch hp⟩
  | written pass base i r hphase hr =>
    cases hown hphase hr
    have hlt : i < c.records.length := (List.getElem?_eq_some_iff.mp hr).1
    refine h.append hid halone (by intro hr; exact nomatch hr) rfl (fun k hk => ?_) rfl ?_
    · rw [hbusy k hk (by rw [hphase]; rfl), hphase]
      show base + min i _ = base + i
      omega
    · show base + min (i + 1) _ = base + i + 1
      omega
  | failed pass base i r left hphase hr houtcome =>
    cases hown hphase hr
    obtain ⟨hi, hleft⟩ := hfail id left c .own base i (by rw [houtcome]) hid rfl hphase
    have hwal : (s.store.appendWal (c.walRecord base i r) (.fail left)).wal = s.store.wal := by
      rw [hleft]
      rfl
    refine h.move hid halone (fun hr => nomatch hr) hwal fun k hk => ⟨fun hp => (nomatch hp), ?_⟩
    intro _ m hm
    obtain ⟨⟨m', hm', hbase⟩, -⟩ := hinv.current id c base hid rfl (by rw [hphase]; rfl)
    rw [hm] at hm'
    cases hm'
    rw [hbusy k hk (by rw [hphase]; rfl), hphase, hi, hbase]
    show base + min 0 _ = base
    omega
  | finish base hphase =>
    refine h.move hid halone (fun hr => nomatch hr) rfl fun k hk => ⟨fun hp => (nomatch hp), ?_⟩
    intro _ m hm
    rw [update_self] at hm
    obtain ⟨m', hm', rfl⟩ := Option.map_eq_some_iff.mp hm
    rw [hbusy k hk (by rw [hphase]; rfl), hphase]
    rfl

theorem CallStep.wal_other (h : CallStep cfg s c outcome store partitions phase)
    (hne : tp ≠ c.topicPartition) :
    store.wal.sealedSegs = s.store.wal.sealedSegs ∧
      recordsOf tp store.wal.active = recordsOf tp s.store.wal.active := by
  have happend : ∀ base i r, recordsOf tp (s.store.wal.active ++ [c.walRecord base i r]) =
      recordsOf tp s.store.wal.active := by
    intro base i r
    rw [recordsOf_append, recordsOf_singleton_of_ne hne, append_nil]
  cases h with
  | refused | snapshot | index | loopEnd | finish => exact ⟨rfl, rfl⟩
  | written pass base i r hphase hr => exact ⟨rfl, happend base i r⟩
  | failed pass base i r left hphase hr houtcome =>
    cases left with
    | false => exact ⟨rfl, rfl⟩
    | true => exact ⟨rfl, happend base i r⟩

end

theorem AtCursor.congr {k : Nat} (h : AtCursor tp s k)
    (hcalls : ∀ id c, c.topicPartition = tp → c.phase.inProgress = true →
      (s'.calls id = some c ↔ s.calls id = some c)) (hpart : s'.partitions tp = s.partitions tp) :
    AtCursor tp s' k := by
  refine ⟨fun id c hid htp hprog => ?_, fun hnone m hm => ?_⟩
  · exact h.busy id c ((hcalls id c htp hprog).mp hid) htp hprog
  · refine h.idle (fun id c hid htp => ?_) m (hpart ▸ hm)
    cases hprog : c.phase.inProgress with
    | false => rfl
    | true =>
      rw [hnone id c ((hcalls id c htp hprog).mpr hid) htp] at hprog
      cases hprog

theorem SegInv.step {l : Label} (h : SegInv tp s) (hinv : Inv tp s) (horderly : Orderly tp s l)
    (hstep : Broker.step cfg s l = some s') : SegInv tp s' := by
  rcases step_cases hstep with ⟨id, tp', records, acks, rfl, hnone, rfl⟩ |
    ⟨id, outcome, c, store, partitions, phase, rfl, hid, hcall, rfl⟩ | ⟨-, rfl⟩
  · -- a new call: nothing in progress changes
    obtain ⟨start, hmap, hat⟩ := h.activeRun
    refine ⟨h.sealedRuns, ⟨start, hmap, fun hne => (hat hne).congr ?_ rfl⟩, ?_⟩
    · intro id' c' _ hprog
      show update s.calls id _ id' = some c' ↔ _
      by_cases heq : id' = id
      · rw [heq, update_self, hnone]
        refine iff_of_false (fun hc => ?_) (fun hc => nomatch hc)
        cases hc
        cases hprog
      · rw [update_of_ne heq]
    · intro id' c' hid' htp' hrep
      rcases of_update_eq_some hid' with ⟨-, rfl⟩ | ⟨-, hold⟩
      · rcases hrep with hrep | hrep
        · have htp' : tp' = tp := htp'
          exact horderly.2.1 id records acks (by rw [htp']) hrep
        · cases hrep
      · exact h.quiet id' c' hold htp' hrep
  · have hmove := Call.step_cases hcall
    by_cases htp : tp = c.topicPartition
    · subst htp
      exact h.callStep hinv hid horderly hmove
    · obtain ⟨-, hpart⟩ := hmove.other htp
      obtain ⟨hsealed, hactive⟩ := hmove.wal_other htp
      obtain ⟨start, hmap, hat⟩ := h.activeRun
      have hcalls : ∀ id' c', c'.topicPartition = tp →
          (update s.calls id (some { c with phase := phase }) id' = some c' ↔
            s.calls id' = some c') := by
        intro id' c' htp'
        by_cases heq : id' = id
        · rw [heq, update_self, hid]
          refine iff_of_false (fun hc => ?_) (fun hc => ?_)
          · cases hc
            exact htp htp'.symm
          · cases hc
            exact htp htp'.symm
        · rw [update_of_ne heq]
      refine ⟨?_, ⟨start, ?_, ?_⟩, ?_⟩
      · rw [hsealed]
        exact h.sealedRuns
      · rw [hactive]
        exact hmap
      · rw [hactive]
        exact fun hne => (hat hne).congr (fun id' c' htp' _ => hcalls id' c' htp') hpart
      · exact fun id' c' hid' htp' => h.quiet id' c' ((hcalls id' c' htp').mp hid') htp'
  · -- the active run becomes a sealed one
    obtain ⟨start, hmap, -⟩ := h.activeRun
    refine ⟨?_, ⟨0, rfl, fun hne => absurd rfl hne⟩, h.quiet⟩
    intro seq xs hxs
    rcases SMap.of_get?_insert hxs with ⟨-, rfl⟩ | ⟨-, hxs⟩
    · exact ⟨start, hmap⟩
    · exact h.sealedRuns seq xs (SMap.of_get?_erase hxs)

/-! ## The law and its failure -/

/-- **Sealed segments of orderly runs hold consecutive offsets**, and so make a group that tiering
can take for a range. -/
theorem sealed_consecutive (cfg : StoreConfig) (tp : TopicPartition) {s s' : State}
    {ls : List Label} (hnew : ∀ id, s.calls id = none)
    (hactive : recordsOf tp s.store.wal.active = [])
    (hsealed : ∀ seq xs, s.store.wal.sealedSegs.get? seq = some xs → Consecutive (recordsOf tp xs))
    (horderly : Along (step cfg) (Orderly tp) s ls) (hrun : exec (step cfg) s ls = some s') :
    ∀ seq xs, s'.store.wal.sealedSegs.get? seq = some xs →
      Consecutive (recordsOf tp xs) ∧ Tierable (recordsOf tp xs) := by
  have hinit : Inv tp s ∧ SegInv tp s := by
    refine ⟨Inv.of_no_calls hnew, hsealed, ⟨0, ?_, fun hne => absurd hactive hne⟩, ?_⟩
    · rw [hactive]
      rfl
    · intro id c hid
      rw [hnew id] at hid
      cases hid
  have hinv : Inv tp s' ∧ SegInv tp s' := by
    refine exec_invariant (I := fun s => Inv tp s ∧ SegInv tp s) (fun s l s' hinv hP hstep => ?_)
      hinit horderly hrun
    exact ⟨hinv.1.step hP.1 hstep, hinv.2.step hinv.1 hP hstep⟩
  intro seq xs hxs
  have hcons := hinv.2.sealedRuns seq xs hxs
  exact ⟨hcons, hcons.tierable⟩

theorem sealed_consecutive_oneProducer :
    ∃ s' xs, exec (step plainConfig) leading (oneProducer ++ [.sealActive]) = some s' ∧
      s'.store.wal.sealedSegs.get? 0 = some xs ∧ xs.length = 2 ∧
      Consecutive (recordsOf ⟨"orders", 0⟩ xs) ∧ Tierable (recordsOf ⟨"orders", 0⟩ xs) := by
  have horderly : Along (step plainConfig) (Orderly ⟨"orders", 0⟩) leading
      (oneProducer ++ [.sealActive]) := by
    refine ⟨⟨fun _ _ _ hl => (nomatch hl), fun _ _ _ hl hrep => ?_, fun _ _ _ _ _ _ hl =>
      (nomatch hl)⟩, fun s₁ h₁ => ?_⟩
    · cases hl
      cases hrep
    cases h₁
    refine along_of_solo 0 (fun s l hsolo hl => ⟨hsolo.serialized, ?_, ?_⟩) (by simp) ?_
    · intro id records acks hspawn
      rw [hspawn] at hl
      exact absurd hl (by simp)
    · intro id left c pass base i hcall
      rw [hcall] at hl
      exact absurd hl (by simp)
    · exact fun id' hne => update_of_ne hne _ _
  have hrun : ∃ s' xs, exec (step plainConfig) leading (oneProducer ++ [.sealActive]) = some s' ∧
      s'.store.wal.sealedSegs.get? 0 = some xs ∧ xs.length = 2 := ⟨_, _, rfl, rfl, rfl⟩
  obtain ⟨s', xs, hrun, hxs, hlen⟩ := hrun
  have hsealed : ∀ seq xs, leading.store.wal.sealedSegs.get? seq = some xs →
      Consecutive (recordsOf ⟨"orders", 0⟩ xs) := fun _ _ h => nomatch h
  exact ⟨s', xs, hrun, hxs, hlen, sealed_consecutive plainConfig ⟨"orders", 0⟩ (fun _ => rfl) rfl
    hsealed horderly hrun 0 xs hxs⟩

/-- **A replicated batch is in the log twice**, so the object of the range `[0, 1)` would have two
records. -/
theorem replicated_batch_is_doubled : ∃ s' xs, exec (step plainConfig) leading
        [.spawn 0 ⟨"orders", 0⟩ [oneByte 1] .all, .call 0 .ok, .call 0 .ok, .call 0 .ok, .call 0 .ok,
          .call 0 .ok, .call 0 .ok, .call 0 .ok, .call 0 .ok, .sealActive] = some s' ∧
      s'.store.wal.sealedSegs.get? 0 = some xs ∧
      (recordsOf ⟨"orders", 0⟩ xs).map WalRecord.offset = [0, 0] :=
  ⟨_, _, rfl, rfl, rfl⟩

end RustMq.Broker
