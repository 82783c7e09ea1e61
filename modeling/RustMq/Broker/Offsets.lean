import RustMq.Broker.Core

/-!
# Offsets of concurrent producers

The offsets of a call come from a snapshot of the high watermark, and the watermark moves only
when a call returns. So two calls that are in progress together take the same offsets, each
overwrites the other's records in the hot tier, and both return `Ok`
(`concurrent_calls_share_an_offset`).
-/

namespace RustMq.Broker

open Lib Store List Function PartitionStore

/-! ## The property -/

/-- Call `id` returned `Ok` and gave its record `r`, number `i` of the batch, this offset. -/
def Acked (s : State) (tp : TopicPartition) (id i offset : Nat) (r : Record) : Prop :=
  ∃ c offsets, s.calls id = some c ∧ c.topicPartition = tp ∧ c.phase = .done (.ok offsets) ∧
    offsets[i]? = some offset ∧ c.records[i]? = some r

/-- No call on `tp` takes its snapshot while another call on `tp` is in progress. -/
def Serialized (tp : TopicPartition) (s : State) (l : Label) : Prop :=
  ∀ id outcome c, l = .call id outcome → s.calls id = some c → c.topicPartition = tp →
    c.phase = .snapshot → ∀ id' c', s.calls id' = some c' → c'.topicPartition = tp →
      c'.phase.inProgress = false

/-! ## Records held in the hot tier -/

def Held (hot : SMap Nat HotEntry) (c : Call) (base n : Nat) : Prop :=
  ∀ j < n, ∀ r, c.records[j]? = some r →
    ∃ size, hot.get? (base + j) = some ⟨c.walRecord base j r, size⟩

variable {hot : SMap Nat HotEntry} {c : Call} {base n : Nat} {phase : Phase} {cfg : StoreConfig}
  {s : State} {outcome : AppendOutcome} {store : PartitionStore}
  {partitions : TopicPartition → Option PartitionMetadata} {tp : TopicPartition} {id : Nat}
  {l : Label}

section

variable (h : Held hot c base n) {r : Record}
include h

theorem Held.congr {hot' : SMap Nat HotEntry}
    (hsame : ∀ o, o < base + n → hot'.get? o = hot.get? o) : Held hot' c base n := by
  intro j hj r hr
  rw [hsame _ (by omega)]
  exact h j hj r hr

theorem Held.insert (e : HotEntry) : Held (hot.insert (base + n) e) c base n := by
  refine h.congr fun o ho => ?_
  rw [SMap.get?_insert, if_neg (by omega)]

theorem Held.succ (hr : c.records[n]? = some r) (size : Nat) :
    Held (hot.insert (base + n) ⟨c.walRecord base n r, size⟩) c base (n + 1) := by
  intro j hj r' hr'
  rcases Nat.lt_succ_iff_lt_or_eq.mp hj with hj | rfl
  · exact h.insert _ j hj r' hr'
  · rw [hr] at hr'
    cases hr'
    exact ⟨size, SMap.get?_insert_self _ _ _⟩

theorem Held.overwrite {i : Nat} (hr : c.records[i]? = some r) (size : Nat) :
    Held (hot.insert (base + i) ⟨c.walRecord base i r, size⟩) c base n := by
  intro j hj r' hr'
  rw [SMap.get?_insert]
  by_cases hij : base + j = base + i
  · have hji : j = i := Nat.add_left_cancel hij
    rw [hji, hr] at hr'
    cases hr'
    rw [hji, if_pos rfl]
    exact ⟨size, rfl⟩
  · rw [if_neg hij]
    exact h j hj r' hr'

theorem Held.mono {m : Nat} (hle : m ≤ n) : Held hot c base m :=
  fun j hj r hr => h j (lt_of_lt_of_le hj hle) r hr

end

/-! ## What a call does to the hot tier -/

def Phase.base? : Phase → Option Nat
  | .append _ base _ _ | .advance base => some base
  | .snapshot | .done _ => none

def Phase.held (n : Nat) : Phase → Nat
  | .append .own _ i false => i
  | .append .own _ i true => i + 1
  | .append .replica _ _ _ | .advance _ => n
  | .snapshot | .done _ => 0

theorem Phase.inProgress_of_base? (h : phase.base? = some base) : phase.inProgress = true := by
  cases phase with
  | snapshot | done => cases h
  | append | advance => rfl

theorem Call.hot_appendHot (c : Call) (base i : Nat) (r : Record) :
    (store.appendHot cfg (c.walRecord base i r)).index.hot c.topicPartition =
      (store.index.hot c.topicPartition).insert (base + i)
        ⟨c.walRecord base i r, memSize cfg (c.walRecord base i r)⟩ :=
  (PartitionStore.hot_appendHot ..).trans (if_pos rfl)

theorem Call.hot_appendWal_fail (c : Call) (base i : Nat) (r : Record) (left : Bool) :
    (store.appendWal (c.walRecord base i r) (.fail left)).index.hot c.topicPartition =
      (store.index.hot c.topicPartition).erase (base + i) :=
  (PartitionStore.hot_appendWal_fail ..).trans (if_pos rfl)

theorem partitions_advance {m : PartitionMetadata} (hm : partitions tp = some m) (n : Nat) :
    update partitions tp ((partitions tp).map fun m => { m with highWatermark := n }) tp =
      some { m with highWatermark := n } := by
  rw [update_self, hm]
  rfl

theorem CallStep.other (h : CallStep cfg s c outcome store partitions phase)
    (hne : tp ≠ c.topicPartition) :
    store.index.hot tp = s.store.index.hot tp ∧ partitions tp = s.partitions tp := by
  cases h with
  | refused | snapshot | loopEnd | written => exact ⟨rfl, rfl⟩
  | index => exact ⟨(hot_appendHot ..).trans (if_neg hne), rfl⟩
  | failed => exact ⟨(hot_appendWal_fail ..).trans (if_neg hne), rfl⟩
  | finish => exact ⟨rfl, update_of_ne hne _ _⟩

/-! ## The invariant -/

structure Inv (tp : TopicPartition) (s : State) : Prop where
  one : ∀ id c id' c', s.calls id = some c → s.calls id' = some c' → c.topicPartition = tp →
    c'.topicPartition = tp → c.phase.inProgress = true → c'.phase.inProgress = true → id = id'
  current : ∀ id c base, s.calls id = some c → c.topicPartition = tp →
    c.phase.base? = some base →
    (∃ m, s.partitions tp = some m ∧ m.highWatermark = base) ∧
      Held (s.store.index.hot tp) c base (c.phase.held c.records.length)
  returned : ∀ id c offsets, s.calls id = some c → c.topicPartition = tp →
    c.phase = .done (.ok offsets) →
    ∃ base m, offsets = List.range' base c.records.length ∧ s.partitions tp = some m ∧
      base + c.records.length ≤ m.highWatermark ∧
      Held (s.store.index.hot tp) c base c.records.length
  apart : ∀ id c offsets id' c' offsets', s.calls id = some c → s.calls id' = some c' →
    c.topicPartition = tp → c'.topicPartition = tp → c.phase = .done (.ok offsets) →
    c'.phase = .done (.ok offsets') → id ≠ id' → ∀ o ∈ offsets, o ∉ offsets'

/-- **One call of the partition moves** while no other is in progress. -/
theorem Inv.move (h : Inv c.topicPartition s) (hid : s.calls id = some c)
    (hbelow : ∀ m o, s.partitions c.topicPartition = some m → o < m.highWatermark →
      (store.index.hot c.topicPartition).get? o = (s.store.index.hot c.topicPartition).get? o)
    (hmark : ∀ m, s.partitions c.topicPartition = some m →
      ∃ m', partitions c.topicPartition = some m' ∧ m.highWatermark ≤ m'.highWatermark)
    (halone : ∀ id' c', id' ≠ id → s.calls id' = some c' →
      c'.topicPartition = c.topicPartition → c'.phase.inProgress = false)
    (hbase : ∀ base, phase.base? = some base →
      (∃ m, partitions c.topicPartition = some m ∧ m.highWatermark = base) ∧
        Held (store.index.hot c.topicPartition) c base (phase.held c.records.length))
    (hdone : ∀ offsets, phase = .done (.ok offsets) →
      ∃ base m m', offsets = List.range' base c.records.length ∧
        s.partitions c.topicPartition = some m ∧ m.highWatermark ≤ base ∧
        partitions c.topicPartition = some m' ∧
        base + c.records.length ≤ m'.highWatermark ∧
        Held (store.index.hot c.topicPartition) c base c.records.length) :
    Inv c.topicPartition
      ⟨store, partitions, Function.update s.calls id (some { c with phase := phase })⟩ := by
  constructor
  · intro id₁ c₁ id₂ c₂ h₁ h₂ htp₁ htp₂ hp₁ hp₂
    rcases of_update_eq_some h₁ with ⟨rfl, rfl⟩ | ⟨hne₁, hold₁⟩
    · rcases of_update_eq_some h₂ with ⟨rfl, -⟩ | ⟨hne₂, hold₂⟩
      · rfl
      · exact absurd hp₂ (by rw [halone id₂ c₂ hne₂ hold₂ htp₂]; decide)
    · rcases of_update_eq_some h₂ with ⟨rfl, rfl⟩ | ⟨-, hold₂⟩
      · exact absurd hp₁ (by rw [halone id₁ c₁ hne₁ hold₁ htp₁]; decide)
      · exact h.one id₁ c₁ id₂ c₂ hold₁ hold₂ htp₁ htp₂ hp₁ hp₂
  · intro id₁ c₁ base h₁ htp₁ hb₁
    rcases of_update_eq_some h₁ with ⟨rfl, rfl⟩ | ⟨hne₁, h₁⟩
    · exact hbase base hb₁
    · have hidle := halone id₁ c₁ hne₁ h₁ htp₁
      rw [Phase.inProgress_of_base? hb₁] at hidle
      cases hidle
  · intro id₁ c₁ offsets h₁ htp₁ hd₁
    rcases of_update_eq_some h₁ with ⟨rfl, rfl⟩ | ⟨hne₁, h₁⟩
    · obtain ⟨base, m, m', hoff, -, -, hm', hle, hheld⟩ := hdone offsets hd₁
      exact ⟨base, m', hoff, hm', hle, hheld⟩
    · obtain ⟨base, m, hoff, hm, hle, hheld⟩ := h.returned id₁ c₁ offsets h₁ htp₁ hd₁
      obtain ⟨m', hm', hmm'⟩ := hmark m hm
      refine ⟨base, m', hoff, hm', hle.trans hmm', hheld.congr fun o ho => ?_⟩
      exact hbelow m o hm (lt_of_lt_of_le ho hle)
  · intro id₁ c₁ offsets₁ id₂ c₂ offsets₂ h₁ h₂ htp₁ htp₂ hd₁ hd₂ hne o ho₁ ho₂
    -- what an old call returned lies below the watermark, what the moved one returns does not
    have hbelowMark : ∀ {id' c' offsets'}, s.calls id' = some c' →
        c'.topicPartition = c.topicPartition → c'.phase = .done (.ok offsets') →
        o ∈ offsets' → ∀ {offsets}, phase = .done (.ok offsets) → o ∉ offsets := by
      intro id' c' offsets' h' htp' hd' ho' offsets hd ho
      obtain ⟨base', m', hoff', hm', hle', -⟩ := h.returned id' c' offsets' h' htp' hd'
      obtain ⟨base, m, -, hoff, hm, hle, -⟩ := hdone offsets hd
      rw [hm] at hm'
      cases hm'
      rw [hoff', mem_range'_1] at ho'
      rw [hoff, mem_range'_1] at ho
      omega
    rcases of_update_eq_some h₁ with ⟨rfl, rfl⟩ | ⟨-, hold₁⟩
    · rcases of_update_eq_some h₂ with ⟨rfl, -⟩ | ⟨-, hold₂⟩
      · exact hne rfl
      · exact hbelowMark hold₂ htp₂ hd₂ ho₂ hd₁ ho₁
    · rcases of_update_eq_some h₂ with ⟨rfl, rfl⟩ | ⟨-, hold₂⟩
      · exact hbelowMark hold₁ htp₁ hd₁ ho₁ hd₂ ho₂
      · exact h.apart id₁ c₁ offsets₁ id₂ c₂ offsets₂ hold₁ hold₂ htp₁ htp₂ hd₁ hd₂ hne o ho₁ ho₂

/-! ## Every step keeps it -/

theorem Inv.other (h : Inv tp s) (htp : tp ≠ c.topicPartition)
    (hot : store.index.hot tp = s.store.index.hot tp) (hpart : partitions tp = s.partitions tp) :
    Inv tp ⟨store, partitions, Function.update s.calls id (some { c with phase := phase })⟩ := by
  have hcalls : ∀ {id' c'}, update s.calls id (some { c with phase := phase }) id' =
      some c' → c'.topicPartition = tp → s.calls id' = some c' := by
    intro id' c' hc' htp'
    rcases of_update_eq_some hc' with ⟨-, rfl⟩ | ⟨-, hold⟩
    · exact absurd htp'.symm htp
    · exact hold
  constructor
  · intro id₁ c₁ id₂ c₂ h₁ h₂ htp₁ htp₂
    exact h.one id₁ c₁ id₂ c₂ (hcalls h₁ htp₁) (hcalls h₂ htp₂) htp₁ htp₂
  · intro id₁ c₁ base h₁ htp₁ hb
    show (∃ m, partitions tp = some m ∧ _) ∧ Held (store.index.hot tp) c₁ base _
    rw [hot, hpart]
    exact h.current id₁ c₁ base (hcalls h₁ htp₁) htp₁ hb
  · intro id₁ c₁ offsets h₁ htp₁ hd
    show ∃ base m, _ ∧ partitions tp = some m ∧ _ ∧ Held (store.index.hot tp) c₁ base _
    rw [hot, hpart]
    exact h.returned id₁ c₁ offsets (hcalls h₁ htp₁) htp₁ hd
  · intro id₁ c₁ offsets₁ id₂ c₂ offsets₂ h₁ h₂ htp₁ htp₂
    exact h.apart id₁ c₁ offsets₁ id₂ c₂ offsets₂ (hcalls h₁ htp₁) (hcalls h₂ htp₂) htp₁ htp₂

section

variable {id : Nat} (h : Inv c.topicPartition s) (hid : s.calls id = some c)
  (hserial : Serialized c.topicPartition s (.call id outcome))
  (hstep : CallStep cfg s c outcome store partitions phase)
include h hid hserial hstep

theorem Inv.alone (id' : Nat) (c' : Call) (hne : id' ≠ id) (hid' : s.calls id' = some c')
    (htp' : c'.topicPartition = c.topicPartition) : c'.phase.inProgress = false := by
  have hmoving : c.phase = .snapshot ∨ c.phase.inProgress = true := by
    cases hstep with
    | refused e hphase | snapshot m hphase => exact .inl hphase
    | index pass base i r hphase | loopEnd pass base i hphase | written pass base i r hphase
    | failed pass base i r left hphase | finish base hphase => exact .inr (by rw [hphase]; rfl)
  rcases hmoving with hsnap | hprog
  · exact hserial id outcome c rfl hid rfl hsnap id' c' hid' htp'
  · cases hprog' : c'.phase.inProgress with
    | false => rfl
    | true => exact absurd (h.one id' c' id c hid' hid htp' rfl hprog' hprog) hne

theorem Inv.callStep : Inv c.topicPartition
      ⟨store, partitions, Function.update s.calls id (some { c with phase := phase })⟩ := by
  have halone := h.alone hid hserial hstep
  have hmark : ∀ m, s.partitions c.topicPartition = some m →
      ∃ m', s.partitions c.topicPartition = some m' ∧ m.highWatermark ≤ m'.highWatermark :=
    fun m hm => ⟨m, hm, le_rfl⟩
  cases hstep with
  | refused e hphase =>
    exact h.move hid (fun _ _ _ _ => rfl) hmark halone (fun _ hb => nomatch hb)
      (fun _ hd => nomatch hd)
  | snapshot m hphase hm =>
    refine h.move hid (fun _ _ _ _ => rfl) hmark halone (fun base hb => ?_) (fun _ hd => nomatch hd)
    cases hb
    exact ⟨⟨m, hm, rfl⟩, fun j hj => absurd hj (Nat.not_lt_zero j)⟩
  | index pass base i r hphase hr =>
    obtain ⟨⟨m, hm, hmb⟩, hheld⟩ := h.current id c base hid rfl (by rw [hphase]; rfl)
    refine h.move hid ?_ hmark halone (fun base' hb => ?_) (fun _ hd => nomatch hd)
    · intro m' o hm' ho
      rw [hm] at hm'
      cases hm'
      rw [c.hot_appendHot, SMap.get?_insert, if_neg (by omega)]
    · cases hb
      refine ⟨⟨m, hm, hmb⟩, ?_⟩
      rw [c.hot_appendHot]
      rw [hphase] at hheld
      cases pass with
      | own => exact hheld.succ hr _
      | replica => exact hheld.overwrite hr _
  | loopEnd pass base i hphase hr =>
    obtain ⟨hm, hheld⟩ := h.current id c base hid rfl (by rw [hphase]; rfl)
    have hlen : c.records.length ≤ i := getElem?_eq_none_iff.mp hr
    have hall : Held (s.store.index.hot c.topicPartition) c base c.records.length := by
      rw [hphase] at hheld
      cases pass with
      | own => exact hheld.mono hlen
      | replica => exact hheld
    -- the next loop or the watermark: either way the base stays and everything is held
    rcases c.afterPass_cases base pass with heq | ⟨-, heq⟩
    all_goals
      rw [heq]
      refine h.move hid (fun _ _ _ _ => rfl) hmark halone (fun base' hb => ?_)
        (fun _ hd => nomatch hd)
      cases hb
      exact ⟨hm, hall⟩
  | written pass base i r hphase hr =>
    obtain ⟨hm, hheld⟩ := h.current id c base hid rfl (by rw [hphase]; rfl)
    refine h.move hid (fun _ _ _ _ => rfl) hmark halone (fun base' hb => ?_)
      (fun _ hd => nomatch hd)
    cases hb
    refine ⟨hm, ?_⟩
    rw [hphase] at hheld
    cases pass with
    | own | replica => exact hheld
  | failed pass base i r left hphase hr houtcome =>
    obtain ⟨⟨m, hm, hmb⟩, -⟩ := h.current id c base hid rfl (by rw [hphase]; rfl)
    refine h.move hid ?_ hmark halone (fun _ hb => nomatch hb) (fun _ hd => nomatch hd)
    intro m' o hm' ho
    rw [hm] at hm'
    cases hm'
    rw [c.hot_appendWal_fail, SMap.get?_erase, if_neg (by omega)]
  | finish base hphase =>
    obtain ⟨⟨m, hm, hmb⟩, hheld⟩ := h.current id c base hid rfl (by rw [hphase]; rfl)
    have hpart := partitions_advance hm (base + c.records.length)
    rw [hphase] at hheld
    refine h.move hid (fun _ _ _ _ => rfl) (fun m' hm' => ?_) halone (fun _ hb => nomatch hb)
      (fun offsets hd => ?_)
    · rw [hm] at hm'
      cases hm'
      exact ⟨_, hpart, by show m.highWatermark ≤ base + _; omega⟩
    · cases hd
      exact ⟨base, m, _, rfl, hm, hmb.le, hpart, le_rfl, hheld⟩

end

theorem Inv.step {s' : State} (h : Inv tp s) (hserial : Serialized tp s l)
    (hstep : step cfg s l = some s') : Inv tp s' := by
  rcases step_cases hstep with ⟨id, tp', records, acks, -, hnone, rfl⟩ |
    ⟨id, outcome, c, store, partitions, phase, rfl, hid, hcall, rfl⟩ | ⟨-, rfl⟩
  · -- a new call is in no group
    constructor
    · intro id₁ c₁ id₂ c₂ h₁ h₂ htp₁ htp₂ hp₁ hp₂
      rcases of_update_eq_some h₁ with ⟨-, rfl⟩ | ⟨-, h₁⟩
      · cases hp₁
      rcases of_update_eq_some h₂ with ⟨-, rfl⟩ | ⟨-, h₂⟩
      · cases hp₂
      exact h.one id₁ c₁ id₂ c₂ h₁ h₂ htp₁ htp₂ hp₁ hp₂
    · intro id₁ c₁ base h₁ htp₁ hb
      rcases of_update_eq_some h₁ with ⟨-, rfl⟩ | ⟨-, h₁⟩
      · cases hb
      exact h.current id₁ c₁ base h₁ htp₁ hb
    · intro id₁ c₁ offsets h₁ htp₁ hd
      rcases of_update_eq_some h₁ with ⟨-, rfl⟩ | ⟨-, h₁⟩
      · cases hd
      exact h.returned id₁ c₁ offsets h₁ htp₁ hd
    · intro id₁ c₁ offsets₁ id₂ c₂ offsets₂ h₁ h₂ htp₁ htp₂ hd₁ hd₂
      rcases of_update_eq_some h₁ with ⟨-, rfl⟩ | ⟨-, h₁⟩
      · cases hd₁
      rcases of_update_eq_some h₂ with ⟨-, rfl⟩ | ⟨-, h₂⟩
      · cases hd₂
      exact h.apart id₁ c₁ offsets₁ id₂ c₂ offsets₂ h₁ h₂ htp₁ htp₂ hd₁ hd₂
  · have hmove := Call.step_cases hcall
    by_cases htp : tp = c.topicPartition
    · subst htp
      exact h.callStep hid hserial hmove
    · obtain ⟨hot, hpart⟩ := hmove.other htp
      exact h.other htp hot hpart
  · exact { h with }

theorem Inv.of_no_calls (hnew : ∀ id, s.calls id = none) : Inv tp s := by
  have hno : ∀ {id c}, s.calls id ≠ some c := by
    intro id c hid
    rw [hnew id] at hid
    cases hid
  exact ⟨fun _ _ _ _ hid => absurd hid hno, fun _ _ _ hid => absurd hid hno,
    fun _ _ _ hid => absurd hid hno, fun _ _ _ _ _ _ hid => absurd hid hno⟩

/-! ## The law and its failure -/

/-- **Acknowledged offsets of calls that do not overlap** are distinct, and a read at each begins
with the record it was given to. -/
theorem acked_offsets (cfg : StoreConfig) (tp : TopicPartition) {s s' : State} {ls : List Label}
    (hnew : ∀ id, s.calls id = none) (hserial : Along (step cfg) (Serialized tp) s ls)
    (hrun : exec (step cfg) s ls = some s') :
    (∀ id i id' i' offset r r', Acked s' tp id i offset r → Acked s' tp id' i' offset r' →
      id = id' ∧ i = i') ∧
    ∀ id i offset r maxBytes, Acked s' tp id i offset r →
      ∃ rest, (s'.store.read cfg tp offset maxBytes).1 = .ok (⟨tp, offset, r, 0⟩ :: rest) := by
  have h : Inv tp s' :=
    exec_invariant (fun _ _ _ hinv hP hstep => hinv.step hP hstep) (Inv.of_no_calls hnew) hserial
      hrun
  constructor
  · intro id i id' i' offset r r' ⟨c, offsets, hid, htp, hdone, hoff, _⟩
      ⟨c', offsets', hid', htp', hdone', hoff', _⟩
    have hsame : id = id' := by
      by_contra hne
      exact h.apart id c offsets id' c' offsets' hid hid' htp htp' hdone hdone' hne offset
        (mem_of_getElem? hoff) (mem_of_getElem? hoff')
    subst hsame
    rw [hid] at hid'
    cases hid'
    rw [hdone] at hdone'
    cases hdone'
    obtain ⟨base, m, rfl, -⟩ := h.returned id c offsets hid htp hdone
    obtain ⟨hi, hi'⟩ := List.getElem?_eq_some_iff.mp hoff
    obtain ⟨hj, hj'⟩ := List.getElem?_eq_some_iff.mp hoff'
    rw [List.getElem_range', Nat.one_mul] at hi' hj'
    exact ⟨rfl, by omega⟩
  · intro id i offset r maxBytes ⟨c, offsets, hid, htp, hdone, hoff, hr⟩
    obtain ⟨base, m, rfl, -, -, hheld⟩ := h.returned id c offsets hid htp hdone
    obtain ⟨hi, hi'⟩ := List.getElem?_eq_some_iff.mp hoff
    rw [getElem_range', Nat.one_mul] at hi'
    obtain ⟨size, hget⟩ := hheld i (by rwa [length_range'] at hi) r hr
    obtain ⟨rest, hread, -⟩ := read_of_hot cfg s'.store hget maxBytes
    refine ⟨rest, ?_⟩
    rw [← hi', hread, Call.walRecord, htp]

def Solo (id : Nat) (s : State) : Prop := ∀ id', id' ≠ id → s.calls id' = none

theorem Solo.serialized (h : Solo id s) : Serialized tp s l := by
  intro id₀ outcome c _ hid₀ _ hphase id' c' hid' _
  have honly : ∀ {i c}, s.calls i = some c → i = id := by
    intro i c hi
    by_contra hne
    rw [h i hne] at hi
    cases hi
  rw [honly hid₀] at hid₀
  rw [honly hid', hid₀] at hid'
  cases hid'
  rw [hphase]
  rfl

theorem along_of_solo {P : State → Label → Prop} (id : Nat) {ls : List Label}
    (hP : ∀ s l, Solo id s → l ∈ ls → P s l)
    (hls : ∀ l ∈ ls, ∀ i tp records acks, l ≠ .spawn i tp records acks) (h : Solo id s) :
    Along (step cfg) P s ls := by
  induction ls generalizing s with
  | nil => trivial
  | cons l ls ih =>
    refine ⟨hP s l h mem_cons_self, fun s' hstep => ?_⟩
    refine ih (fun s l hs hl => hP s l hs (mem_cons_of_mem _ hl))
      (fun l hl => hls l (mem_cons_of_mem _ hl)) fun id' hne => ?_
    rcases step_cases hstep with ⟨i, tp, records, acks, rfl, -⟩ |
      ⟨i, outcome, c, store, partitions, phase, rfl, hi, -, rfl⟩ | ⟨-, rfl⟩
    · exact absurd rfl (hls _ mem_cons_self i tp records acks)
    · have hid : i = id := by
        by_contra hi'
        rw [h i hi'] at hi
        cases hi
      exact (update_of_ne (hid ▸ hne) _ _).trans (h id' hne)
    · exact h id' hne

def leading : State where
  store := .empty
  partitions := fun tp => if tp = ⟨"orders", 0⟩ then some ⟨0, true⟩ else none
  calls := fun _ => none

def oneByte (b : UInt8) : Record := ⟨none, [b], [], 0⟩

def oneProducer : List Label :=
  .spawn 0 ⟨"orders", 0⟩ [oneByte 1, oneByte 2] .leader :: List.replicate 7 (.call 0 .ok)

theorem acked_offsets_oneProducer : ∃ s', exec (step plainConfig) leading oneProducer = some s' ∧
      Acked s' ⟨"orders", 0⟩ 0 1 1 (oneByte 2) ∧
      ∃ rest, (s'.store.read plainConfig ⟨"orders", 0⟩ 1 1024).1 =
        .ok (⟨⟨"orders", 0⟩, 1, oneByte 2, 0⟩ :: rest) := by
  have hserial : Along (step plainConfig) (Serialized ⟨"orders", 0⟩) leading oneProducer := by
    refine ⟨fun _ _ _ hl => (nomatch hl), fun s₁ h₁ => ?_⟩
    cases h₁
    refine along_of_solo 0 (fun _ _ hsolo _ => hsolo.serialized) (by simp) ?_
    exact fun id' hne => update_of_ne hne _ _
  have hacked : ∃ s', exec (step plainConfig) leading oneProducer = some s' ∧
      Acked s' ⟨"orders", 0⟩ 0 1 1 (oneByte 2) := ⟨_, rfl, _, _, rfl, rfl, rfl, rfl, rfl⟩
  obtain ⟨s', hrun, hacked⟩ := hacked
  exact ⟨s', hrun, hacked, (acked_offsets plainConfig ⟨"orders", 0⟩ (fun _ => rfl) hserial hrun).2
    0 1 1 (oneByte 2) 1024 hacked⟩

/-- Two producers, each taking its snapshot before the other returns. -/
def racingProducers : List Label :=
  [.spawn 0 ⟨"orders", 0⟩ [oneByte 1] .leader, .spawn 1 ⟨"orders", 0⟩ [oneByte 2] .leader,
    .call 0 .ok, .call 1 .ok, .call 0 .ok, .call 0 .ok, .call 0 .ok, .call 0 .ok, .call 1 .ok,
    .call 1 .ok, .call 1 .ok, .call 1 .ok]

/-- **Two producers share an offset**, and a read there returns the second one's record only. -/
theorem concurrent_calls_share_an_offset :
    ∃ s', exec (step plainConfig) leading racingProducers = some s' ∧
      Acked s' ⟨"orders", 0⟩ 0 0 0 (oneByte 1) ∧ Acked s' ⟨"orders", 0⟩ 1 0 0 (oneByte 2) ∧
      (s'.store.read plainConfig ⟨"orders", 0⟩ 0 1024).1 = .ok [⟨⟨"orders", 0⟩, 0, oneByte 2, 0⟩] :=
  ⟨_, rfl, ⟨_, _, rfl, rfl, rfl, rfl, rfl⟩, ⟨_, _, rfl, rfl, rfl, rfl, rfl⟩, rfl⟩

end RustMq.Broker
