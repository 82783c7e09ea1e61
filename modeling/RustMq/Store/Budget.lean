import RustMq.Store.Engine

/-!
# The memory budget

`append` waits in `await_capacity` until its record fits beside what is in memory, and then inserts
it. Nothing is reserved in between: the insert is a step of its own, and a producer that has passed
the check counts for nobody until it makes it. So the budget is kept up to the records of those who
passed the check together.
-/

namespace RustMq.Store

open Lib PartitionStore List Option

/-- `admitted` holds the records whose append has passed `await_capacity` and not yet inserted
them. -/
structure Producers where
  engine : Engine
  admitted : List WalRecord

inductive ProducerLabel where
  | pass (record : WalRecord)
  | insert (record : WalRecord)
  | finish (record : WalRecord) (outcome : AppendOutcome)
  | tier (label : TierLabel)
  | compact (label : CompactLabel)
  deriving DecidableEq

namespace Producers

variable (cfg : StoreConfig)

def hotBytes (s : Producers) : Nat := s.engine.store.index.hotBytes

def step (s : Producers) : ProducerLabel → Option Producers
  | .pass r =>
    if s.engine.store.hasCapacity cfg (memSize cfg r) then
      some { s with admitted := r :: s.admitted }
    else none
  | .insert r =>
    if r ∈ s.admitted then
      some
        { engine := { s.engine with
            store := s.engine.store.appendHot cfg r
            pending := r :: s.engine.pending }
          admitted := s.admitted.erase r }
    else none
  | .finish r outcome => (s.engine.step cfg (.client (.appendWal r outcome))).map
    fun engine => { s with engine := engine }
  | .tier label => (s.engine.step cfg (.tier label)).map fun engine => { s with engine := engine }
  | .compact label => (s.engine.step cfg (.compact label)).map
    fun engine => { s with engine := engine }

def admittedBytes (s : Producers) : Nat := (s.admitted.map (memSize cfg)).sum

end Producers

/-! ## What the steps do to the account -/

section account

variable {cfg : StoreConfig} {s s' : PartitionStore}

theorem hotBytes_appendHot_le (cfg : StoreConfig) (s : PartitionStore) (r : WalRecord) :
    (s.appendHot cfg r).index.hotBytes ≤ s.index.hotBytes + memSize cfg r :=
  Nat.add_le_add_right (Nat.sub_le _ _) _

theorem hotBytes_removeHot_le (index : PartitionIndex) (tp : TopicPartition) (offset : Nat) :
    (index.removeHot tp offset).hotBytes ≤ index.hotBytes := by
  unfold PartitionIndex.removeHot
  split
  · exact le_rfl
  · exact Nat.sub_le _ _

theorem hotBytes_appendWal_le (s : PartitionStore) (r : WalRecord) (outcome : AppendOutcome) :
    (s.appendWal r outcome).index.hotBytes ≤ s.index.hotBytes := by
  cases outcome with
  | ok => exact le_rfl
  | fail left => exact hotBytes_removeHot_le _ _ _

section

variable {index index' : PartitionIndex} {tp : TopicPartition} {startOffset endOffset : Nat}
  {objectKey : String} {sizeBytes : Nat}

theorem hotBytes_flipToCold_le
    (h : index.flipToCold tp startOffset endOffset objectKey sizeBytes = some index') :
    index'.hotBytes ≤ index.hotBytes := by
  obtain ⟨-, heq⟩ := ite_none_left_eq_some.mp h
  cases heq
  exact Nat.sub_le _ _

theorem hotBytes_replaceCold
    (h : index.replaceCold tp startOffset endOffset objectKey sizeBytes = some index') :
    index'.hotBytes = index.hotBytes := by
  obtain ⟨-, heq⟩ := ite_none_left_eq_some.mp h
  cases heq
  rfl

end

theorem TierStep.hotBytes_le {tiering tiering' : Tiering} {label : TierLabel}
    (h : TierStep cfg s tiering label s' tiering') : s'.index.hotBytes ≤ s.index.hotBytes := by
  rcases h.index_cases with hsame | ⟨segment, hflip⟩
  · rw [hsame]
  · exact hotBytes_flipToCold_le hflip

theorem CompactStep.hotBytes_eq {compaction compaction' : Compaction} {label : CompactLabel}
    (h : CompactStep cfg s compaction label s' compaction') :
    s'.index.hotBytes = s.index.hotBytes := by
  rcases h.index_cases with hsame | ⟨segment, hreplace⟩
  · rw [hsame]
  · exact hotBytes_replaceCold hreplace

end account

namespace Producers

variable {cfg : StoreConfig} {s s' t : Producers} {k m : Nat} {r : WalRecord}

/-- No more than `k + 1` producers are past the check at a time, and their records are smaller than
the budget and not larger than `m`. -/
def AtMost (cfg : StoreConfig) (k m : Nat) (s : Producers) : ProducerLabel → Prop
  | .pass r => s.admitted.length ≤ k ∧ memSize cfg r < cfg.hotCacheMaxBytes ∧ memSize cfg r ≤ m
  | _ => True

instance (cfg : StoreConfig) (k m : Nat) (s : Producers) (label) :
    Decidable (AtMost cfg k m s label) := by
  unfold AtMost
  split <;> infer_instance

structure Within (cfg : StoreConfig) (k m : Nat) (s : Producers) : Prop where
  bytes : s.hotBytes + s.admittedBytes cfg ≤ cfg.hotCacheMaxBytes + k * m
  size : ∀ r ∈ s.admitted, memSize cfg r ≤ m

theorem Within.engine (h : Within cfg k m s) {engine : Engine}
    (hle : engine.store.index.hotBytes ≤ s.hotBytes) : Within cfg k m { s with engine := engine } :=
  ⟨le_trans (Nat.add_le_add_right hle _) h.bytes, h.size⟩

theorem Within.pass (h : Within cfg k m s) (hbudget : 0 < cfg.hotCacheMaxBytes)
    (hatMost : AtMost cfg k m s (.pass r)) (hcap : s.engine.store.hasCapacity cfg (memSize cfg r)) :
    Within cfg k m { s with admitted := r :: s.admitted } := by
  obtain ⟨hlen, hsmall, hm⟩ := hatMost
  have hfits : s.hotBytes + memSize cfg r ≤ cfg.hotCacheMaxBytes := by
    rcases hcap with hzero | hlarge | hfits
    · exact absurd hzero hbudget.ne'
    · exact absurd hlarge (not_le.mpr hsmall)
    · exact hfits
  have hothers : s.admittedBytes cfg ≤ k * m :=
    calc s.admittedBytes cfg
        ≤ (s.admitted.map (memSize cfg)).length • m :=
          sum_le_card_nsmul _ m fun n hn => by
            obtain ⟨r, hr, rfl⟩ := mem_map.mp hn
            exact h.size r hr
      _ ≤ k * m := by
          rw [length_map, smul_eq_mul]
          exact Nat.mul_le_mul_right m hlen
  refine ⟨?_, forall_mem_cons.mpr ⟨hm, h.size⟩⟩
  show s.hotBytes + ((r :: s.admitted).map (memSize cfg)).sum ≤ _
  rw [map_cons, sum_cons, ← Nat.add_assoc]
  exact Nat.add_le_add hfits hothers

theorem Within.insert (h : Within cfg k m s) (hmem : r ∈ s.admitted) :
    Within cfg k m
      { engine := { s.engine with
          store := s.engine.store.appendHot cfg r
          pending := r :: s.engine.pending }
        admitted := s.admitted.erase r } := by
  have hsum : s.admittedBytes cfg = memSize cfg r + ((s.admitted.erase r).map (memSize cfg)).sum :=
    ((perm_cons_erase hmem).map (memSize cfg)).sum_eq
  refine ⟨?_, fun r' hr' => h.size r' (mem_of_mem_erase hr')⟩
  calc (s.engine.store.appendHot cfg r).index.hotBytes +
        ((s.admitted.erase r).map (memSize cfg)).sum
      ≤ s.hotBytes + memSize cfg r + ((s.admitted.erase r).map (memSize cfg)).sum :=
        Nat.add_le_add_right (hotBytes_appendHot_le cfg s.engine.store r) _
    _ = s.hotBytes + s.admittedBytes cfg := by rw [hsum, Nat.add_assoc]
    _ ≤ cfg.hotCacheMaxBytes + k * m := h.bytes

theorem Within.step (hbudget : 0 < cfg.hotCacheMaxBytes) (h : Within cfg k m s)
    {label : ProducerLabel} (hatMost : AtMost cfg k m s label)
    (hstep : s.step cfg label = some s') : Within cfg k m s' := by
  cases label with
  | pass r =>
    obtain ⟨hcap, heq⟩ := ite_none_right_eq_some.mp hstep
    cases heq
    exact h.pass hbudget hatMost hcap
  | insert r =>
    obtain ⟨hmem, heq⟩ := ite_none_right_eq_some.mp hstep
    cases heq
    exact h.insert hmem
  | finish r outcome =>
    obtain ⟨engine, hengine, rfl⟩ := map_eq_some_iff.mp hstep
    obtain ⟨hclient⟩ := Engine.step_cases hengine
    cases hclient
    exact h.engine (hotBytes_appendWal_le _ _ _)
  | tier label =>
    obtain ⟨engine, hengine, rfl⟩ := map_eq_some_iff.mp hstep
    cases Engine.step_cases hengine with
    | tier htier => exact h.engine htier.hotBytes_le
  | compact label =>
    obtain ⟨engine, hengine, rfl⟩ := map_eq_some_iff.mp hstep
    cases Engine.step_cases hengine with
    | compact hcompact => exact h.engine hcompact.hotBytes_eq.le

/-- **The budget is exceeded by at most `k` records** where no more than `k + 1` producers are past
the check at a time. -/
theorem within_of_exec (hbudget : 0 < cfg.hotCacheMaxBytes)
    (hstart : s.hotBytes ≤ cfg.hotCacheMaxBytes) (hnone : s.admitted = [])
    {labels : List ProducerLabel} (hatMost : Along (step cfg) (AtMost cfg k m) s labels)
    (hexec : exec (step cfg) s labels = some t) : Within cfg k m t := by
  have hinit : Within cfg k m s := by
    refine ⟨?_, fun r hr => ?_⟩
    · rw [admittedBytes, hnone]
      exact le_trans hstart (Nat.le_add_right _ _)
    · rw [hnone] at hr
      cases hr
  exact exec_invariant (fun _ _ _ h hP hs => h.step hbudget hP hs) hinit hatMost hexec

/-- **The hot tier exceeds its budget by at most one record** where no more than two producers are
past the check at a time. -/
theorem hotBytes_le_budget (cfg : StoreConfig) {s t : Producers} {m : Nat}
    {labels : List ProducerLabel} (hbudget : 0 < cfg.hotCacheMaxBytes)
    (hstart : s.hotBytes ≤ cfg.hotCacheMaxBytes) (hnone : s.admitted = [])
    (hatMost : Along (step cfg) (AtMost cfg 1 m) s labels)
    (hexec : exec (step cfg) s labels = some t) : t.hotBytes ≤ cfg.hotCacheMaxBytes + m := by
  have hwithin := within_of_exec hbudget hstart hnone hatMost hexec
  calc t.hotBytes
      ≤ t.hotBytes + t.admittedBytes cfg := Nat.le_add_right _ _
    _ ≤ cfg.hotCacheMaxBytes + 1 * m := hwithin.bytes
    _ = cfg.hotCacheMaxBytes + m := by rw [Nat.one_mul]

def smallBudget : StoreConfig := { plainConfig with hotCacheMaxBytes := 400 }

def newProducers : Producers := ⟨.boot .empty, []⟩

def byteAt (offset : Nat) : WalRecord := ⟨⟨"a", 0⟩, offset, ⟨none, [1], [], 0⟩, 0⟩

def twoAtOnce : List ProducerLabel :=
  [.pass (byteAt 0), .pass (byteAt 1), .insert (byteAt 0), .insert (byteAt 1),
    .finish (byteAt 0) .ok, .finish (byteAt 1) .ok, .tier .sealActive, .tier .start,
    .tier (.segment [⟨"a", 0⟩]), .tier .advance, .tier .advance, .tier .advance]

theorem two_producers_within :
    ∃ t, exec (step smallBudget) newProducers twoAtOnce = some t ∧ t.hotBytes ≤ 400 + 353 := by
  have hsome : (exec (step smallBudget) newProducers twoAtOnce).isSome = true := by
    decide +kernel
  obtain ⟨t, ht⟩ := isSome_iff_exists.mp hsome
  exact ⟨t, ht, hotBytes_le_budget smallBudget (by decide) (by decide) rfl (by decide +kernel) ht⟩

/-- Three producers pass the check while the hot tier is empty: 1059 bytes, where the budget is 400.
-/
theorem three_producers_exceed : (exec (step smallBudget) newProducers
        [.pass (byteAt 0), .pass (byteAt 1), .pass (byteAt 2), .insert (byteAt 0),
          .insert (byteAt 1), .insert (byteAt 2)]).map hotBytes = some 1059 ∧
      (∀ offset, memSize smallBudget (byteAt offset) = 353) ∧
      smallBudget.hotCacheMaxBytes = 400 ∧ 400 + 353 < 1059 := by
  refine ⟨by decide +kernel, fun offset => rfl, rfl, by decide⟩

end Producers

end RustMq.Store
