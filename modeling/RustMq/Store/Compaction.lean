import RustMq.Lib.Intervals
import RustMq.Store.PartitionStore

/-!
# Planning a compaction

`plan_partition_compaction` of `src/storage/compaction.rs`: one pass over the cold segments of a
partition, in offset order, that collects runs of small and contiguous segments. A run is closed by
a segment that is large or not contiguous, by reaching the target size, or by reaching the maximal
number of sources; only a run of at least two segments becomes a plan, except at the last of these
points.
-/

namespace RustMq.Store

open Lib List

structure CompactionPlan where
  topicPartition : TopicPartition
  sources : List ColdSegment
  deriving DecidableEq

def planLoop (tp : TopicPartition) (config : CompactionConfig) :
    (segments : List ColdSegment) → (plans : List CompactionPlan) →
    (currentRun : List ColdSegment) → (currentRunSize : Nat) → List CompactionPlan
  | [], plans, currentRun, _ =>
    if 2 ≤ currentRun.length then plans ++ [⟨tp, currentRun⟩] else plans
  | seg :: segments, plans, currentRun, currentRunSize =>
    let isSmall := seg.sizeBytes < config.smallThresholdBytes
    let isContiguous := ∀ last ∈ currentRun.getLast?, last.endOffset = seg.startOffset
    if ¬ isSmall ∨ ¬ isContiguous then
      let plans := if 2 ≤ currentRun.length then plans ++ [⟨tp, currentRun⟩] else plans
      if isSmall then planLoop tp config segments plans [seg] seg.sizeBytes
      else planLoop tp config segments plans [] 0
    else if config.targetBytes < currentRunSize + seg.sizeBytes ∧ 2 ≤ currentRun.length then
      planLoop tp config segments (plans ++ [⟨tp, currentRun⟩]) [seg] seg.sizeBytes
    else
      let currentRun := currentRun ++ [seg]
      if config.maxSources ≤ currentRun.length then
        planLoop tp config segments (plans ++ [⟨tp, currentRun⟩]) [] 0
      else planLoop tp config segments plans currentRun (currentRunSize + seg.sizeBytes)

def planPartitionCompaction (tp : TopicPartition) (segments : List ColdSegment)
    (config : CompactionConfig) : List CompactionPlan :=
  planLoop tp config segments [] [] 0

/-! ## What the plans share -/

/-- Each segment starts where the one before it ends. -/
def Contiguous (segments : List ColdSegment) : Prop :=
  segments.IsChain fun a b => a.endOffset = b.startOffset

theorem Contiguous.concat {run : List ColdSegment} {seg : ColdSegment} (h : Contiguous run)
    (hlast : ∀ last ∈ run.getLast?, last.endOffset = seg.startOffset) :
    Contiguous (run ++ [seg]) := by
  refine isChain_append.mpr ⟨h, isChain_singleton seg, ?_⟩
  intro last hl next hn
  cases hn
  exact hlast last hl

def allSources (plans : List CompactionPlan) : List ColdSegment :=
  plans.flatMap CompactionPlan.sources

def PlansOf (tp : TopicPartition) (plans : List CompactionPlan) : Prop :=
  ∀ plan ∈ plans, plan.topicPartition = tp ∧ Contiguous plan.sources

inductive Cut (P : List ColdSegment → Prop) (tp : TopicPartition) :
    List ColdSegment → List CompactionPlan → Prop
  | done (segments : List ColdSegment) : Cut P tp segments []
  | skip {segments : List ColdSegment} {plans : List CompactionPlan} (seg : ColdSegment) :
    Cut P tp segments plans → Cut P tp (seg :: segments) plans
  | take {run segments : List ColdSegment} {plans : List CompactionPlan} :
    P run → Cut P tp segments plans → Cut P tp (run ++ segments) (⟨tp, run⟩ :: plans)

theorem Cut.spec {P : List ColdSegment → Prop} {tp : TopicPartition} {segments : List ColdSegment}
    {plans : List CompactionPlan} (h : Cut P tp segments plans) :
    (∀ plan ∈ plans, plan.topicPartition = tp ∧ P plan.sources) ∧
      (allSources plans).Sublist segments := by
  induction h with
  | done segments => exact ⟨fun _ h => (nomatch h), nil_sublist segments⟩
  | skip seg _ ih => exact ⟨ih.1, ih.2.cons seg⟩
  | take hrun _ ih => exact ⟨forall_mem_cons.mpr ⟨⟨rfl, hrun⟩, ih.1⟩, ih.2.append_left _⟩

variable (config : CompactionConfig)

def Touching (a b : ColdSegment) : Prop :=
  a.sizeBytes < config.smallThresholdBytes ∧ b.sizeBytes < config.smallThresholdBytes ∧
    a.endOffset = b.startOffset

/-- Small and contiguous, and within the target from the third segment on. -/
structure Run (sources : List ColdSegment) : Prop where
  contiguous : Contiguous sources
  small : ∀ seg ∈ sources, seg.sizeBytes < config.smallThresholdBytes
  bounded : 2 < sources.length → (sources.map ColdSegment.sizeBytes).sum ≤ config.targetBytes

structure Sound (sources : List ColdSegment) : Prop extends Run config sources where
  nonempty : sources ≠ []
  count : 2 ≤ config.maxSources → 2 ≤ sources.length ∧ sources.length ≤ config.maxSources

structure Open (run : List ColdSegment) (size : Nat) : Prop extends Run config run where
  size_eq : size = (run.map ColdSegment.sizeBytes).sum
  room : 2 ≤ config.maxSources → run.length < config.maxSources

variable {config} {tp : TopicPartition} {run : List ColdSegment} {seg : ColdSegment}
  {segments : List ColdSegment} {size : Nat}

theorem Open.nil (config : CompactionConfig) : Open config [] 0 where
  contiguous := List.isChain_nil
  small _ h := nomatch h
  bounded h := absurd h (by decide)
  size_eq := rfl
  room h := by
    rw [length_nil]
    omega

theorem Open.singleton (hsmall : seg.sizeBytes < config.smallThresholdBytes) :
    Open config [seg] seg.sizeBytes where
  contiguous := List.isChain_singleton seg
  small s hs := by
    rw [mem_singleton.mp hs]
    exact hsmall
  bounded h := by
    rw [length_singleton] at h
    omega
  size_eq := rfl
  room h := h

theorem Open.concat (h : Open config run size) (hsmall : seg.sizeBytes < config.smallThresholdBytes)
    (hlast : ∀ last ∈ run.getLast?, last.endOffset = seg.startOffset)
    (hfits : ¬ (config.targetBytes < size + seg.sizeBytes ∧ 2 ≤ run.length)) :
    Run config (run ++ [seg]) ∧
      size + seg.sizeBytes = ((run ++ [seg]).map ColdSegment.sizeBytes).sum := by
  have hsize : size + seg.sizeBytes = ((run ++ [seg]).map ColdSegment.sizeBytes).sum := by
    rw [h.size_eq, map_append, sum_append, map_singleton, sum_singleton]
  refine ⟨⟨h.contiguous.concat hlast, fun s hs => ?_, fun hlen => ?_⟩, hsize⟩
  · rcases mem_append.mp hs with hs | hs
    · exact h.small s hs
    · rw [mem_singleton.mp hs]
      exact hsmall
  · rw [length_append, length_singleton] at hlen
    rw [← hsize]
    omega

theorem Open.sound (h : Open config run size) (htwo : 2 ≤ run.length) : Sound config run where
  toRun := h.toRun
  nonempty := List.ne_nil_of_length_pos (by omega)
  count hmax := ⟨htwo, (h.room hmax).le⟩

theorem Open.close (h : Open config run size) (plans : List CompactionPlan)
    {more : List CompactionPlan} (hcut : Cut (Sound config) tp segments more) :
    ∃ closed, (if 2 ≤ run.length then plans ++ [⟨tp, run⟩] else plans) = plans ++ closed ∧
      Cut (Sound config) tp (run ++ segments) (closed ++ more) ∧
      (closed = [] → run.length < 2) := by
  split
  · rename_i htwo
    exact ⟨_, rfl, .take (h.sound htwo) hcut, fun h => nomatch h⟩
  · rename_i htwo
    refine ⟨[], (append_nil _).symm, ?_, fun _ => not_le.mp htwo⟩
    clear htwo h
    induction run with
    | nil => exact hcut
    | cons s run ih => exact .skip s ih

theorem isChain_run_append {R : ColdSegment → ColdSegment → Prop} (hone : run.length < 2)
    (hlast : ∀ last ∈ run.getLast?, ∀ next ∈ segments.head?, R last next)
    (h : segments.IsChain R) : (run ++ segments).IsChain R := by
  refine isChain_append.mpr ⟨?_, h, hlast⟩
  match run, hone with
  | [], _ => exact isChain_nil
  | [s], _ => exact isChain_singleton s

section

variable (tp segments)

/-- **The loop** cuts its plans out of the current run and what follows it, and finds none only if
no two segments touch. -/
theorem planLoop_spec (plans : List CompactionPlan) (hopen : Open config run size) :
    ∃ more, planLoop tp config segments plans run size = plans ++ more ∧
      Cut (Sound config) tp (run ++ segments) more ∧
      (more = [] → (run ++ segments).IsChain fun a b => ¬ Touching config a b) := by
  induction segments generalizing plans run size with
  | nil =>
    obtain ⟨closed, heq, hcut, hone⟩ := hopen.close plans (.done [] : Cut (Sound config) tp [] [])
    rw [append_nil closed] at hcut
    refine ⟨closed, heq, hcut, fun hnil => ?_⟩
    exact isChain_run_append (hone hnil) (fun _ _ _ h => nomatch h) isChain_nil
  | cons seg segments ih =>
    unfold planLoop
    simp only
    split
    · -- the run ends before `seg`
      rename_i hends
      have hapart : ∀ last ∈ run.getLast?, ¬ Touching config last seg := by
        rintro last hlast ⟨-, hsmall, htouch⟩
        refine hends.elim (fun h => h hsmall) fun h => h fun last' hlast' => ?_
        rw [Option.mem_unique hlast' hlast]
        exact htouch
      have hfinish : ∀ more, Cut (Sound config) tp (seg :: segments) more →
          (more = [] → (seg :: segments).IsChain fun a b => ¬ Touching config a b) →
          ∃ closed, (if 2 ≤ run.length then plans ++ [⟨tp, run⟩] else plans) = plans ++ closed ∧
            Cut (Sound config) tp (run ++ seg :: segments) (closed ++ more) ∧
            (closed ++ more = [] →
              (run ++ seg :: segments).IsChain fun a b => ¬ Touching config a b) := by
        intro more hcut hchain
        obtain ⟨closed, heq, hcut, hone⟩ := hopen.close plans hcut
        refine ⟨closed, heq, hcut, fun hnil => ?_⟩
        obtain ⟨hclosed, hmore⟩ := append_eq_nil_iff.mp hnil
        refine isChain_run_append (hone hclosed) (fun last hlast next hnext => ?_) (hchain hmore)
        cases hnext
        exact hapart last hlast
      split
      · rename_i hsmall
        obtain ⟨more, hloop, hcut, hchain⟩ := ih
          (if 2 ≤ run.length then plans ++ [⟨tp, run⟩] else plans) (Open.singleton hsmall)
        obtain ⟨closed, heq, hall⟩ := hfinish more hcut hchain
        exact ⟨closed ++ more, by rw [hloop, heq, append_assoc], hall⟩
      · rename_i hlarge
        obtain ⟨more, hloop, hcut, hchain⟩ := ih
          (if 2 ≤ run.length then plans ++ [⟨tp, run⟩] else plans) (Open.nil config)
        obtain ⟨closed, heq, hall⟩ := hfinish more (.skip seg hcut) fun hnil =>
          isChain_cons.mpr ⟨fun _ _ h => hlarge h.1, hchain hnil⟩
        exact ⟨closed ++ more, by rw [hloop, heq, append_assoc], hall⟩
    · rename_i hsame
      obtain ⟨hsmall, hlast⟩ := not_or.mp hsame
      replace hsmall := not_not.mp hsmall
      replace hlast := not_not.mp hlast
      split
      · -- `seg` would take the run over the target
        rename_i hover
        obtain ⟨more, hloop, hcut, -⟩ := ih (plans ++ [⟨tp, run⟩]) (Open.singleton hsmall)
        refine ⟨⟨tp, run⟩ :: more, by rw [hloop, append_assoc]; rfl, ?_, fun h => nomatch h⟩
        exact .take (hopen.sound hover.2) hcut
      · rename_i hfits
        obtain ⟨hrun, hsize⟩ := hopen.concat hsmall hlast hfits
        have hlength : (run ++ [seg]).length = run.length + 1 := length_append
        split
        · rename_i hfull
          obtain ⟨more, hloop, hcut, -⟩ := ih (plans ++ [⟨tp, run ++ [seg]⟩]) (Open.nil config)
          refine ⟨⟨tp, run ++ [seg]⟩ :: more, by rw [hloop, append_assoc]; rfl, ?_,
            fun h => nomatch h⟩
          rw [append_cons]
          refine .take ⟨hrun, append_ne_nil_of_right_ne_nil run (cons_ne_nil seg []),
            fun hmax => ?_⟩ hcut
          have := hopen.room hmax
          omega
        · rename_i hfull
          rw [append_cons run seg segments]
          exact ih plans ⟨hrun, hsize, fun _ => not_le.mp hfull⟩

theorem cut_planPartitionCompaction (config : CompactionConfig) :
    Cut (Sound config) tp segments (planPartitionCompaction tp segments config) ∧
      (planPartitionCompaction tp segments config = [] →
        segments.IsChain fun a b => ¬ Touching config a b) := by
  obtain ⟨more, hloop, hspec⟩ := planLoop_spec tp segments [] (Open.nil config)
  rw [planPartitionCompaction, hloop]
  exact hspec

/-- **A plan's sources are contiguous, and the plans together take each segment at most once, in
order.** -/
theorem planPartitionCompaction_spec (config : CompactionConfig) :
    PlansOf tp (planPartitionCompaction tp segments config) ∧
      (allSources (planPartitionCompaction tp segments config)).Sublist segments := by
  obtain ⟨hsound, hsub⟩ := (cut_planPartitionCompaction tp segments config).1.spec
  exact ⟨fun plan hplan => (hsound plan hplan).imp_right fun h => h.contiguous, hsub⟩

end

theorem sources_ne_nil {plan : CompactionPlan}
    (h : plan ∈ planPartitionCompaction tp segments config) : plan.sources ≠ [] :=
  ((cut_planPartitionCompaction tp segments config).1.spec.1 plan h).2.nonempty

/-- **Compaction plans are sound and complete.** -/
theorem planPartitionCompaction_complete (tp : TopicPartition) (segments : List ColdSegment)
    (config : CompactionConfig) (hmax : 2 ≤ config.maxSources) :
    Cut (Sound config) tp segments (planPartitionCompaction tp segments config) ∧
      (∀ plan ∈ planPartitionCompaction tp segments config,
        2 ≤ plan.sources.length ∧ plan.sources.length ≤ config.maxSources) ∧
      ∀ a b, [a, b] <:+: segments → Touching config a b →
        planPartitionCompaction tp segments config ≠ [] := by
  obtain ⟨hcut, hchain⟩ := cut_planPartitionCompaction tp segments config
  refine ⟨hcut, fun plan hplan => (hcut.spec.1 plan hplan).2.count hmax, ?_⟩
  intro a b hinfix htouching hnil
  have hpair := IsChain.infix (hchain hnil) hinfix
  exact isChain_pair.mp hpair htouching

def pairsOnly : CompactionConfig := ⟨true, 10, 1, 2⟩

theorem planPartitionCompaction_complete_pairsOnly : planPartitionCompaction ⟨"t", 0⟩
      [⟨⟨"t", 0⟩, 0, 5, "a", 3⟩, ⟨⟨"t", 0⟩, 5, 9, "b", 4⟩] pairsOnly ≠ [] :=
  (planPartitionCompaction_complete ⟨"t", 0⟩ _ pairsOnly (by decide)).2.2 _ _ infix_rfl
    ⟨by decide, by decide, rfl⟩

end RustMq.Store
