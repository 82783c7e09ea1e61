import RustMq.Broker.Offsets

/-!
# Fetching between the batches of one caller

`fetch_records` (`src/broker/core.rs`) reads the store and does not look at the high watermark. A
batch that fails after its first record leaves the records before the failure in the hot tier, at
offsets that the watermark has not reached, and the next batch gives the same offsets to its own
records. So two fetches can return different records there (`fetched_then_replaced`).
-/

namespace RustMq.Broker

open Lib Store List Function PartitionIndex

def fetchRecords (cfg : StoreConfig) (s : State) (tp : TopicPartition)
    (fetchOffset maxBytes : Nat) : Except RustMqError (List Record) × State :=
  let result := s.store.read cfg tp fetchOffset maxBytes
  (result.1.map (List.map WalRecord.record),
    { s with store := { s.store with cache := result.2 } })

/-! ## One caller -/

/-- What a fetch returned, with the offsets of its records, and the watermark at the call. -/
structure Fetch where
  highWatermark : Nat
  records : List WalRecord

structure Session where
  broker : State
  calls : Nat
  fetches : List Fetch

inductive SessionLabel where
  | appendRecords (records : List Record) (acks : AcknowledgmentLevel)
  | call (outcome : AppendOutcome)
  | fetchRecords (fetchOffset maxBytes : Nat)
  | sealActive

def Phase.isDone : Phase → Bool
  | .done _ => true
  | _ => false

def highWatermarkOf (partitions : TopicPartition → Option PartitionMetadata)
    (tp : TopicPartition) : Nat :=
  ((partitions tp).map PartitionMetadata.highWatermark).getD 0

theorem highWatermarkOf_of_some {partitions : TopicPartition → Option PartitionMetadata}
    {tp : TopicPartition} {m : PartitionMetadata} (hm : partitions tp = some m) :
    highWatermarkOf partitions tp = m.highWatermark := by
  rw [highWatermarkOf, hm]
  rfl

namespace Session

def last (s : Session) : Option Call := if s.calls = 0 then none else s.broker.calls (s.calls - 1)

def idle (s : Session) : Prop := ∀ c ∈ s.last, c.phase.isDone = true

instance (s : Session) : Decidable s.idle := inferInstanceAs (Decidable (∀ c ∈ s.last, _))

def step (cfg : StoreConfig) (tp : TopicPartition) (s : Session) : SessionLabel → Option Session
  | .appendRecords records acks =>
    if s.idle then
      (Broker.step cfg s.broker (.spawn s.calls tp records acks)).map fun broker =>
        { s with broker := broker, calls := s.calls + 1 }
    else none
  | .call outcome =>
    if s.calls = 0 then none
    else (Broker.step cfg s.broker (.call (s.calls - 1) outcome)).map fun broker =>
      { s with broker := broker }
  | .fetchRecords fetchOffset maxBytes =>
    if s.idle then
      let records := (s.broker.store.read cfg tp fetchOffset maxBytes).1.toOption.getD []
      some { s with
        broker := (fetchRecords cfg s.broker tp fetchOffset maxBytes).2
        fetches := s.fetches ++ [⟨highWatermarkOf s.broker.partitions tp, records⟩] }
    else none
  | .sealActive => (Broker.step cfg s.broker .sealActive).map fun broker =>
      { s with broker := broker }

def start (partitions : TopicPartition → Option PartitionMetadata) : Session where
  broker := ⟨.empty, partitions, fun _ => none⟩
  calls := 0
  fetches := []

end Session

/-! ## The condition -/

/-- The place of a call where a failed write to the log leaves no record of the batch behind: at
the first record of the call's own loop, or in a batch of one record. -/
def Call.failsClean (c : Call) : Prop :=
  match c.phase with
  | .append .own _ 0 true => True
  | .append _ _ _ true => c.records.length = 1
  | _ => True

instance (c : Call) : Decidable c.failsClean := by
  unfold Call.failsClean
  split <;> infer_instance

def FailsClean (s : Session) : SessionLabel → Prop
  | .call (.fail _) => ∀ c ∈ s.last, c.failsClean
  | _ => True

instance (s : Session) (l) : Decidable (FailsClean s l) := by
  unfold FailsClean
  split <;> infer_instance

/-! ## Reads without a cold tier -/

variable {hot : SMap Nat HotEntry} {limit limit' n : Nat}
  {partitions : TopicPartition → Option PartitionMetadata} {tp : TopicPartition}
  {outcome : AppendOutcome} {store : PartitionStore} {phase : Phase}

theorem mem_hotFrom {cur : Nat} {rs : List WalRecord} (h : PartitionIndex.HotFrom hot cur rs)
    {r : WalRecord} (hr : r ∈ rs) : ∃ k size, hot.get? k = some ⟨r, size⟩ := by
  induction rs generalizing cur with
  | nil => cases hr
  | cons x rs ih =>
    rcases mem_cons.mp hr with rfl | hr
    · exact ⟨cur, h.1⟩
    · exact ih h.2 hr

theorem read_of_no_cold (cfg : StoreConfig) (s : PartitionStore) (hcold : s.index.cold tp = .empty)
    (offset maxBytes : Nat) :
    ∃ rs, s.read cfg tp offset maxBytes = (.ok rs, s.cache) ∧
      PartitionIndex.HotFrom (s.index.hot tp) offset rs := by
  have hfloor : (s.index.cold tp).floor? offset = none := by
    rw [hcold]
    rfl
  unfold PartitionStore.read PartitionStore.readOnce
  rw [readPlan_eq, hfloor]
  by_cases hhot : ((s.index.hot tp).get? offset).isSome = true
  · rw [if_pos hhot]
    obtain ⟨rs, hrun, hfrom, -⟩ := hotRun_spec (s.index.hot tp) maxBytes
      (s.index.hot tp).entries.length offset 0 []
    exact ⟨rs, by rw [hrun]; rfl, hfrom⟩
  · rw [if_neg hhot]
    exact ⟨[], rfl, trivial⟩

/-! ## What a move of a call does to the hot tier -/

def HotBelow (hot : SMap Nat HotEntry) (limit : Nat) : Prop :=
  ∀ k e, hot.get? k = some e → e.record.offset = k ∧ k < limit

theorem HotBelow.mono (h : HotBelow hot limit) (hle : limit ≤ limit') : HotBelow hot limit' :=
  fun k e he => ⟨(h k e he).1, (h k e he).2.trans_le hle⟩

theorem HotBelow.insert (h : HotBelow hot limit) (hle : limit ≤ limit') (r : WalRecord)
    (hr : r.offset < limit') (size : Nat) :
    HotBelow (hot.insert r.offset ⟨r, size⟩) limit' := by
  intro k e he
  rcases SMap.of_get?_insert he with ⟨hk, rfl⟩ | ⟨-, he⟩
  · exact ⟨hk.symm, hk ▸ hr⟩
  · exact h.mono hle k e he

theorem HotBelow.erase (h : HotBelow hot (limit + 1)) : HotBelow (hot.erase limit) limit := by
  intro k e he
  rw [SMap.get?_erase] at he
  split at he
  · cases he
  · have := h k e he
    exact ⟨this.1, by omega⟩

/-- The call's place and the hot tier fit together: the offsets of the call start at the
watermark, and nothing is above what the call has indexed. -/
structure CallFits (tp : TopicPartition) (store : PartitionStore)
    (partitions : TopicPartition → Option PartitionMetadata) (n : Nat) (phase : Phase) : Prop where
  base : ∀ b, phase.base? = some b → ∃ m, partitions tp = some m ∧ m.highWatermark = b
  held_le : phase.held n ≤ n
  hot : HotBelow (store.index.hot tp) (highWatermarkOf partitions tp + phase.held n)
  cold : store.index.cold tp = .empty

/-- A call changes no entry below the watermark, which does not fall. -/
structure Keeps (tp : TopicPartition) (s : State) (store : PartitionStore)
    (partitions : TopicPartition → Option PartitionMetadata) : Prop where
  watermark : highWatermarkOf s.partitions tp ≤ highWatermarkOf partitions tp
  hot : ∀ k < highWatermarkOf s.partitions tp,
    (store.index.hot tp).get? k = (s.store.index.hot tp).get? k

theorem Keeps.refl (tp : TopicPartition) (s : State) : Keeps tp s s.store s.partitions :=
  ⟨le_rfl, fun _ _ => rfl⟩

theorem CallStep.fits {cfg : StoreConfig} {s : State} {c : Call}
    (hmove : CallStep cfg s c outcome store partitions phase)
    (hclean : ∀ left, outcome = .fail left → c.failsClean)
    (h : CallFits c.topicPartition s.store s.partitions c.records.length c.phase) :
    CallFits c.topicPartition store partitions c.records.length phase ∧
      Keeps c.topicPartition s store partitions := by
  cases hmove with
  | refused e hphase =>
    have hhot := h.hot
    rw [hphase] at hhot
    exact ⟨⟨fun _ hb => (nomatch hb), Nat.zero_le _, hhot, h.cold⟩, .refl _ s⟩
  | snapshot m hphase hm =>
    have hhot := h.hot
    rw [hphase] at hhot
    refine ⟨⟨fun b hb => ?_, Nat.zero_le _, hhot, h.cold⟩, .refl _ s⟩
    cases hb
    exact ⟨m, hm, rfl⟩
  | index pass base i r hphase hr =>
    obtain ⟨m, hm, rfl⟩ := h.base base (by rw [hphase]; rfl)
    obtain ⟨-, hheld, hhot, hcold⟩ := h
    have hlt : i < c.records.length := (List.getElem?_eq_some_iff.mp hr).1
    rw [hphase] at hhot
    refine ⟨⟨fun b hb => ?_, ?_, ?_, ?_⟩, le_rfl, fun k hk => ?_⟩
    · cases hb
      exact ⟨m, hm, rfl⟩
    · cases pass with
      | own => exact hlt
      | replica => exact le_rfl
    · rw [c.hot_appendHot]
      rw [highWatermarkOf_of_some hm] at hhot ⊢
      cases pass with
      | own =>
        exact hhot.insert (Nat.add_le_add_left (Nat.le_succ i) _) (c.walRecord m.highWatermark i r)
          (Nat.add_lt_add_left (Nat.lt_succ_self i) _) _
      | replica =>
        exact hhot.insert le_rfl (c.walRecord m.highWatermark i r) (Nat.add_lt_add_left hlt _) _
    · exact (cold_insertHot ..).trans hcold
    · rw [c.hot_appendHot, SMap.get?_insert, if_neg]
      rw [highWatermarkOf_of_some hm] at hk
      omega
  | loopEnd pass base i hphase hr =>
    have hbase := h.base base (by rw [hphase]; rfl)
    obtain ⟨-, hheld, hhot, hcold⟩ := h
    have hlen : c.records.length ≤ i := getElem?_eq_none_iff.mp hr
    have hall : HotBelow (s.store.index.hot c.topicPartition)
        (highWatermarkOf s.partitions c.topicPartition + c.records.length) := by
      rw [hphase] at hheld hhot
      cases pass with
      | own => exact hhot.mono (Nat.add_le_add_left hheld _)
      | replica => exact hhot
    rcases c.afterPass_cases base pass with heq | ⟨-, heq⟩
    all_goals
      rw [heq]
      refine ⟨⟨fun b hb => ?_, le_rfl, hall, hcold⟩, .refl _ s⟩
      cases hb
      exact hbase
  | written pass base i r hphase hr hok =>
    have hbase := h.base base (by rw [hphase]; rfl)
    obtain ⟨-, hheld, hhot, hcold⟩ := h
    rw [hphase] at hheld hhot
    refine ⟨⟨fun b hb => ?_, ?_, ?_, hcold⟩, le_rfl, fun _ _ => rfl⟩
    · cases hb
      exact hbase
    · cases pass with
      | own | replica => exact hheld
    · cases pass with
      | own | replica => exact hhot
  | failed pass base i r left hphase hr hfail =>
    obtain ⟨m, hm, rfl⟩ := h.base base (by rw [hphase]; rfl)
    obtain ⟨-, hheld, hhot, hcold⟩ := h
    have hlt : i < c.records.length := (List.getElem?_eq_some_iff.mp hr).1
    have hone : i = 0 ∧ c.phase.held c.records.length = 1 := by
      have hc := hclean left hfail
      unfold Call.failsClean at hc
      rw [hphase] at hc ⊢
      cases pass with
      | own =>
        cases i with
        | zero => exact ⟨rfl, rfl⟩
        | succ i =>
          have hlen : c.records.length = 1 := hc
          omega
      | replica =>
        have hlen : c.records.length = 1 := hc
        exact ⟨by omega, hlen⟩
    rw [hone.2, highWatermarkOf_of_some hm] at hhot
    refine ⟨⟨fun b hb => (nomatch hb), Nat.zero_le _, ?_, ?_⟩, le_rfl, fun k hk => ?_⟩
    · rw [c.hot_appendWal_fail, hone.1, highWatermarkOf_of_some hm]
      exact hhot.erase
    · exact (cold_removeHot ..).trans hcold
    · rw [c.hot_appendWal_fail, SMap.get?_erase, if_neg]
      rw [highWatermarkOf_of_some hm] at hk
      omega
  | finish base hphase =>
    obtain ⟨m, hm, rfl⟩ := h.base base (by rw [hphase]; rfl)
    obtain ⟨-, hheld, hhot, hcold⟩ := h
    have hnew := highWatermarkOf_of_some
      (partitions_advance hm (m.highWatermark + c.records.length))
    rw [hphase, highWatermarkOf_of_some hm] at hhot
    refine ⟨⟨fun b hb => (nomatch hb), Nat.zero_le _, ?_, hcold⟩, ?_, fun _ _ => rfl⟩
    · rw [hnew]
      exact hhot
    · rw [hnew, highWatermarkOf_of_some hm]
      exact Nat.le_add_right _ _

/-! ## The invariant -/

structure SessionInv (tp : TopicPartition) (s : Session) : Prop where
  fresh : ∀ id, s.calls ≤ id → s.broker.calls id = none
  call : ∀ c, s.last = some c → c.topicPartition = tp ∧
    CallFits tp s.broker.store s.broker.partitions c.records.length c.phase
  cold : s.broker.store.index.cold tp = .empty
  idle : s.idle → HotBelow (s.broker.store.index.hot tp) (highWatermarkOf s.broker.partitions tp)
  fetched : ∀ f ∈ s.fetches, ∀ r ∈ f.records, r.offset < f.highWatermark ∧
    r.offset < highWatermarkOf s.broker.partitions tp ∧
    ∃ size, (s.broker.store.index.hot tp).get? r.offset = some ⟨r, size⟩

theorem Session.last_succ {s : Session} (h : s.calls = n + 1) : s.last = s.broker.calls n := by
  rw [last, h, if_neg (Nat.succ_ne_zero n), Nat.add_sub_cancel]

theorem CallFits.done (h : CallFits tp store partitions n phase) (hdone : phase.isDone = true) :
    HotBelow (store.index.hot tp) (highWatermarkOf partitions tp) := by
  have hhot := h.hot
  cases phase with
  | done result => exact hhot
  | _ => cases hdone

namespace SessionInv

variable {cfg : StoreConfig} {s s' : Session}

theorem start (tp : TopicPartition) (partitions : TopicPartition → Option PartitionMetadata) :
    SessionInv tp (.start partitions) where
  fresh _ _ := rfl
  call _ h := nomatch h
  cold := rfl
  idle _ _ _ h := nomatch h
  fetched _ h := nomatch h

variable (h : SessionInv tp s)
include h

theorem appendRecords (hidle : s.idle) (records : List Record) (acks : AcknowledgmentLevel) :
    SessionInv tp { s with
      broker := { s.broker with calls := Function.update s.broker.calls s.calls
                                  (some ⟨tp, records, acks, .snapshot⟩) }
      calls := s.calls + 1 } := by
  refine ⟨fun id hid => ?_, fun c hc => ?_, h.cold, fun hidle' => ?_, h.fetched⟩
  · show update s.broker.calls s.calls _ id = none
    have hle : s.calls + 1 ≤ id := hid
    rw [update_of_ne (by omega)]
    exact h.fresh id (by omega)
  · rw [Session.last_succ rfl] at hc
    have hself : update s.broker.calls s.calls (some ⟨tp, records, acks, .snapshot⟩)
      s.calls = some c := hc
    rw [update_self] at hself
    cases hself
    exact ⟨rfl, fun _ hb => (nomatch hb), Nat.zero_le _, h.idle hidle, h.cold⟩
  · exact h.idle hidle

theorem callStep (hn : s.calls = n + 1) (hclean : FailsClean s (.call outcome)) {c : Call}
    (hc : s.broker.calls n = some c)
    (hmove : CallStep cfg s.broker c outcome store partitions phase) :
    SessionInv tp { s with
      broker := ⟨store, partitions,
        Function.update s.broker.calls n (some { c with phase := phase })⟩ } := by
  have hlast : s.last = some c := (Session.last_succ hn).trans hc
  obtain ⟨rfl, hfits⟩ := h.call c hlast
  obtain ⟨hfits', hkeeps⟩ := hmove.fits (fun left hfail => by subst hfail; exact hclean c hlast) hfits
  have hlast' : ({ s with
      broker := ⟨store, partitions,
        update s.broker.calls n (some { c with phase := phase })⟩ } : Session).last =
      some { c with phase := phase } := by
    refine (Session.last_succ (by exact hn)).trans ?_
    exact update_self ..
  refine ⟨fun id hid => ?_, fun c' hc' => ?_, hfits'.cold, fun hidle => ?_, fun f hf r hr => ?_⟩
  · show update s.broker.calls n _ id = none
    have hle : n + 1 ≤ id := hn ▸ hid
    rw [update_of_ne (by omega)]
    exact h.fresh id hid
  · rw [hlast'] at hc'
    cases hc'
    exact ⟨rfl, hfits'⟩
  · exact hfits'.done (hidle _ hlast')
  · obtain ⟨hbelow, hwater, size, hget⟩ := h.fetched f hf r hr
    exact ⟨hbelow, hwater.trans_le hkeeps.watermark, size, (hkeeps.hot _ hwater).trans hget⟩

theorem fetch (hidle : s.idle) (fetchOffset maxBytes : Nat) : SessionInv tp { s with
      broker := (fetchRecords cfg s.broker tp fetchOffset maxBytes).2
      fetches := s.fetches ++ [⟨highWatermarkOf s.broker.partitions tp,
        (s.broker.store.read cfg tp fetchOffset maxBytes).1.toOption.getD []⟩] } := by
  refine ⟨h.fresh, fun c hc => ?_, h.cold, fun _ => h.idle hidle, fun f hf r hr => ?_⟩
  · obtain ⟨htp, hfits⟩ := h.call c hc
    exact ⟨htp, { hfits with }⟩
  · rcases mem_append.mp hf with hf | hf
    · exact h.fetched f hf r hr
    · cases mem_singleton.mp hf
      obtain ⟨rs, hread, hfrom⟩ := read_of_no_cold cfg s.broker.store h.cold fetchOffset maxBytes
      have hmem : r ∈ rs := by
        have hr' : r ∈ (s.broker.store.read cfg tp fetchOffset maxBytes).1.toOption.getD [] := hr
        rw [hread] at hr'
        exact hr'
      obtain ⟨k, size, hget⟩ := mem_hotFrom hfrom hmem
      obtain ⟨rfl, hlt⟩ := h.idle hidle k _ hget
      exact ⟨hlt, hlt, size, hget⟩

theorem step {l : SessionLabel} (hclean : FailsClean s l) (hstep : s.step cfg tp l = some s') :
    SessionInv tp s' := by
  cases l with
  | appendRecords records acks =>
    simp only [Session.step] at hstep
    split at hstep
    · rename_i hidle
      obtain ⟨broker, hbroker, rfl⟩ := Option.map_eq_some_iff.mp hstep
      rcases step_cases hbroker with ⟨id, tp', records', acks', heq, -, rfl⟩ |
        ⟨_, _, _, _, _, _, heq, -⟩ | ⟨heq, -⟩
      · cases heq
        exact h.appendRecords hidle records acks
      · cases heq
      · cases heq
    · cases hstep
  | call outcome =>
    simp only [Session.step] at hstep
    split at hstep
    · cases hstep
    · rename_i hcalls
      obtain ⟨n, hn⟩ := Nat.exists_eq_succ_of_ne_zero hcalls
      obtain ⟨broker, hbroker, rfl⟩ := Option.map_eq_some_iff.mp hstep
      rcases step_cases hbroker with ⟨_, _, _, _, heq, -⟩ |
        ⟨id, outcome', c, store, partitions, phase, heq, hc, hmove, rfl⟩ | ⟨heq, -⟩
      · cases heq
      · cases heq
        have hpred : s.calls - 1 = n := by omega
        rw [hpred] at hc ⊢
        exact h.callStep hn hclean hc (Call.step_cases hmove)
      · cases heq
  | fetchRecords fetchOffset maxBytes =>
    simp only [Session.step] at hstep
    split at hstep
    · rename_i hidle
      cases hstep
      exact h.fetch hidle fetchOffset maxBytes
    · cases hstep
  | sealActive =>
    cases hstep
    refine ⟨h.fresh, fun c hc => ?_, h.cold, h.idle, h.fetched⟩
    obtain ⟨htp, hfits⟩ := h.call c hc
    exact ⟨htp, { hfits with }⟩

end SessionInv

/-! ## The result -/

/-- **What a fetch has returned stays**, and was below the watermark at the time. -/
theorem fetched_immutable (cfg : StoreConfig) (tp : TopicPartition)
    (partitions : TopicPartition → Option PartitionMetadata) {labels : List SessionLabel}
    {s : Session} (hclean : Along (Session.step cfg tp) FailsClean (.start partitions) labels)
    (hexec : exec (Session.step cfg tp) (.start partitions) labels = some s) :
    (∀ f ∈ s.fetches, ∀ r ∈ f.records, r.offset < f.highWatermark) ∧
      ∀ f ∈ s.fetches, ∀ g ∈ s.fetches, ∀ r ∈ f.records, ∀ r' ∈ g.records,
        r.offset = r'.offset → r = r' := by
  have hinv := exec_invariant (I := SessionInv tp) (fun _ _ _ h hP hs => h.step hP hs)
    (.start tp partitions) hclean hexec
  refine ⟨fun f hf r hr => (hinv.fetched f hf r hr).1, ?_⟩
  intro f hf g hg r hr r' hr' hoffset
  obtain ⟨-, -, size, hget⟩ := hinv.fetched f hf r hr
  obtain ⟨-, -, size', hget'⟩ := hinv.fetched g hg r' hr'
  rw [hoffset, hget'] at hget
  cases hget
  rfl

def ordersLed (tp : TopicPartition) : Option PartitionMetadata :=
  if tp = ⟨"orders", 0⟩ then some ⟨0, true⟩ else none

def cleanSession : List SessionLabel :=
  [.appendRecords [oneByte 1] .leader, .call .ok, .call .ok, .call (.fail true),
    .appendRecords [oneByte 2] .leader, .call .ok, .call .ok, .call .ok, .call .ok, .call .ok,
    .fetchRecords 0 1024, .fetchRecords 0 1024]

theorem fetched_immutable_cleanSession :
    ∃ s, exec (Session.step plainConfig ⟨"orders", 0⟩) (.start ordersLed) cleanSession = some s ∧
      s.fetches.length = 2 ∧
      (∀ f ∈ s.fetches, ∀ r ∈ f.records, r.offset < f.highWatermark) ∧
      ∀ f ∈ s.fetches, ∀ g ∈ s.fetches, ∀ r ∈ f.records, ∀ r' ∈ g.records,
        r.offset = r'.offset → r = r' :=
  ⟨_, rfl, rfl, fetched_immutable plainConfig ⟨"orders", 0⟩ ordersLed
    (by decide +kernel : Along _ FailsClean _ cleanSession) rfl⟩

/-- The second record of a batch fails, a fetch returns the first; the next batch takes its
offset. -/
def dirtySession : List SessionLabel :=
  [.appendRecords [oneByte 1, oneByte 2] .leader, .call .ok, .call .ok, .call .ok, .call .ok,
    .call (.fail false), .fetchRecords 0 1024,
    .appendRecords [oneByte 3] .leader, .call .ok, .call .ok, .call .ok, .call .ok, .call .ok,
    .fetchRecords 0 1024]

theorem fetched_then_replaced :
    ∃ s, exec (Session.step plainConfig ⟨"orders", 0⟩) (.start ordersLed) dirtySession = some s ∧
      s.fetches = [⟨0, [⟨⟨"orders", 0⟩, 0, oneByte 1, 0⟩]⟩,
        ⟨1, [⟨⟨"orders", 0⟩, 0, oneByte 3, 0⟩]⟩] :=
  ⟨_, rfl, rfl⟩

end RustMq.Broker
