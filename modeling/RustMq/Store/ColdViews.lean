import RustMq.Store.Ranges

/-!
# The cold index and its durable copy

`Ranges` compares the two catalogs of cold ranges as sets of intervals. Here they are compared
entry by entry: `coldView` is what the index has at a start offset, `liveView` what the fold of the
manifest has there, with its end, key and size.

Each task writes the manifest first and the index later, so the index lags: the manifest is the
index with the writes that are still to come already made. The compaction's is a merge. The
tiering's is an insertion, unless a merge that was recorded since has swallowed the range: then
the manifest does not have it any more, and the flip that is still to come would bring it back.
-/

namespace RustMq.Store

open Lib

/-! ## Views -/

def ColdSegment.range (seg : ColdSegment) : ObjectRange :=
  ⟨seg.endOffset, seg.objectKey, seg.sizeBytes⟩

abbrev View := TopicPartition → Nat → Option ObjectRange

def coldView (index : PartitionIndex) : View := fun tp start => (index.cold tp).get? start

def liveView (manifest : List ManifestRecord) : View := fun tp start =>
  (((foldState manifest).segments tp).get? start).map ColdSegment.range

variable {merged seg : ColdSegment} {cfg : StoreConfig} {index : PartitionIndex}
  {compaction : Compaction} {manifest : List ManifestRecord}

namespace View

def insert (V : View) (seg : ColdSegment) : View := fun tp start =>
  if tp = seg.topicPartition ∧ start = seg.startOffset then some seg.range else V tp start

def Covers (seg : ColdSegment) (tp : TopicPartition) (start : Nat) : Prop :=
  tp = seg.topicPartition ∧ inRange seg.startOffset seg.endOffset start = true

instance (seg : ColdSegment) (tp : TopicPartition) (start : Nat) :
    Decidable (Covers seg tp start) := inferInstanceAs (Decidable (_ ∧ _))

def merge (V : View) (seg : ColdSegment) : View := fun tp start =>
  if tp = seg.topicPartition ∧ start = seg.startOffset then some seg.range
  else if Covers seg tp start then none
  else V tp start

variable {load : LoadResult} {e : Engine}

theorem merge_insert_of_covers (V : View) (h : Covers merged seg.topicPartition seg.startOffset) :
    (V.insert seg).merge merged = V.merge merged := by
  funext tp start
  simp only [merge, insert]
  by_cases hat : tp = seg.topicPartition ∧ start = seg.startOffset
  · obtain ⟨rfl, rfl⟩ := hat
    simp only [if_pos h]
  · simp only [if_neg hat]

theorem merge_insert_of_not_covers (V : View) (hlt : merged.startOffset < merged.endOffset)
    (h : ¬ Covers merged seg.topicPartition seg.startOffset) :
    (V.insert seg).merge merged = (V.merge merged).insert seg := by
  funext tp start
  simp only [merge, insert]
  by_cases hat : tp = seg.topicPartition ∧ start = seg.startOffset
  · obtain ⟨rfl, rfl⟩ := hat
    have hstart : ¬ (seg.topicPartition = merged.topicPartition ∧
        seg.startOffset = merged.startOffset) := by
      rintro ⟨htp, heq⟩
      refine h ⟨htp, ?_⟩
      rw [heq, inRange]
      exact decide_eq_true ⟨le_refl _, hlt⟩
    simp only [if_neg h, if_neg hstart, and_self, if_true]
  · simp only [if_neg hat]

end View

variable {index' : PartitionIndex}

section views

theorem liveView_register :
    liveView (manifest ++ [.register seg]) = (liveView manifest).insert seg := by
  funext tp start
  simp only [liveView, View.insert, foldState_append, FoldState.segments_apply_register]
  by_cases htp : tp = seg.topicPartition
  · subst htp
    simp only [if_true, true_and, SMap.get?_insert]
    split
    · rfl
    · rfl
  · simp only [htp, false_and, if_false]

theorem liveView_compact (sources : List String) :
    liveView (manifest ++ [.compact seg sources]) = (liveView manifest).merge seg := by
  funext tp start
  simp only [liveView, View.merge, View.Covers, foldState_append, FoldState.segments_apply_compact]
  by_cases htp : tp = seg.topicPartition
  · subst htp
    simp only [if_true, true_and, SMap.get?_insert, SMap.get?_filterKeys]
    split
    · rfl
    · cases inRange seg.startOffset seg.endOffset start with
      | true | false => rfl
  · simp only [htp, false_and, if_false]

theorem coldView_flipToCold
    (h : index.flipToCold seg.topicPartition seg.startOffset seg.endOffset seg.objectKey
      seg.sizeBytes = some index') : coldView index' = (coldView index).insert seg := by
  funext tp start
  simp only [coldView, View.insert, cold_flipToCold h]
  by_cases htp : tp = seg.topicPartition
  · simp only [htp, if_true, true_and, SMap.get?_insert]
    rfl
  · simp only [htp, if_false, false_and]

theorem coldView_replaceCold
    (h : index.replaceCold seg.topicPartition seg.startOffset seg.endOffset seg.objectKey
      seg.sizeBytes = some index') : coldView index' = (coldView index).merge seg := by
  funext tp start
  simp only [coldView, View.merge, View.Covers, cold_replaceCold h]
  by_cases htp : tp = seg.topicPartition
  · simp only [htp, if_true, true_and, SMap.get?_insert, SMap.get?_filterKeys]
    split
    · rfl
    · cases inRange seg.startOffset seg.endOffset start with
      | true | false => rfl
  · simp only [htp, if_false, false_and]

theorem coldView_restart (hload : fold manifest = some load) (hkeyed : LiveKeyed manifest)
    (cfg : StoreConfig) (records : List WalRecord) :
    coldView (PartitionStore.indexHot cfg records (PartitionStore.indexCold load.live .new)) =
      liveView manifest := by
  funext tp start
  rw [coldView, cold_indexHot, liveView]
  cases hget : ((foldState manifest).segments tp).get? start with
  | some seg =>
    obtain ⟨rfl, rfl, -⟩ := hkeyed tp start seg hget
    refine cold_indexCold ((mem_live hload seg).mpr ⟨_, _, hget⟩) ?_
    intro seg' hseg' htp hstart
    obtain ⟨tp', start', hget'⟩ := (mem_live hload seg').mp hseg'
    obtain ⟨rfl, rfl, -⟩ := hkeyed tp' start' seg' hget'
    rw [htp, hstart, hget] at hget'
    exact (Option.some.inj hget').symm
  | none =>
    cases hcold : ((PartitionStore.indexCold load.live .new).cold tp).get? start with
    | none => rfl
    | some range =>
      obtain ⟨seg, hseg, rfl, rfl, -⟩ := mem_cold_indexCold hcold
      obtain ⟨tp', start', hget'⟩ := (mem_live hload seg).mp hseg
      obtain ⟨rfl, rfl, -⟩ := hkeyed tp' start' seg hget'
      rw [hget] at hget'
      cases hget'

end views

/-! ## The index lags behind the manifest -/

/-- The index with the compaction's write made. -/
def caughtUp (index : PartitionIndex) : Compaction → View
  | .recorded _ _ merged => (coldView index).merge merged
  | _ => coldView index

/-- The manifest is the index with the writes to come made, except for the flip of a range that has
been swallowed. -/
def Lags (manifest : List ManifestRecord) (index : PartitionIndex) (compaction : Compaction) :
    Tiering → Prop
  | .registered _ _ seg =>
    liveView manifest = (caughtUp index compaction).insert seg ∨
      Swallowed (liveExtents manifest seg.topicPartition) seg.extent ∧
        liveView manifest = caughtUp index compaction
  | _ => liveView manifest = caughtUp index compaction

namespace Lags

variable {tiering tiering' : Tiering} {compaction' : Compaction}

theorem of_caughtUp_eq (h : Lags manifest index compaction tiering)
    (hsame : caughtUp index' compaction' = caughtUp index compaction) :
    Lags manifest index' compaction' tiering := by
  cases tiering with
  | registered task groups seg =>
    rw [Lags, hsame]
    exact h
  | idle | cycle | group | uploaded | panicked => exact Eq.trans h hsame.symm

theorem caughtUp_of_cold_eq (hcold : ∀ tp, index'.cold tp = index.cold tp) :
    caughtUp index' compaction = caughtUp index compaction := by
  have hview : coldView index' = coldView index := by
    funext tp start
    rw [coldView, hcold, coldView]
  unfold caughtUp
  rw [hview]

theorem moveCompaction (h : Lags manifest index compaction tiering)
    (hbefore : caughtUp index compaction = coldView index)
    (hafter : caughtUp index compaction' = coldView index) :
    Lags manifest index compaction' tiering :=
  h.of_caughtUp_eq (hafter.trans hbefore.symm)

variable {task : SegmentTask} {groups : List Group}

theorem register (h : Lags manifest index compaction (.uploaded task groups seg)) :
    Lags (manifest ++ [.register seg]) index compaction (.registered task groups seg) := by
  left
  rw [liveView_register, show liveView manifest = caughtUp index compaction from h]

theorem not_covers_of_fits {plan : CompactionPlan} {plans : List CompactionPlan}
    (hranges : Ranges manifest index tiering (.recorded plan plans merged))
    (hlive : Compatible (liveExtents manifest seg.topicPartition) seg.extent)
    (hcold : Compatible (coldExtents index seg.topicPartition) seg.extent) :
    ¬ View.Covers merged seg.topicPartition seg.startOffset := by
  rintro ⟨htp, hin⟩
  obtain ⟨hexec, hmerged, hmem⟩ := hranges.compaction
  have hbounds : merged.startOffset ≤ seg.startOffset ∧ seg.startOffset < merged.endOffset :=
    of_decide_eq_true hin
  have hlt : seg.startOffset < seg.endOffset := hlive.1
  rw [htp] at hlive hcold
  rcases hlive.2 _ hmem with heq | happ | happ
  · -- a source lies inside, and the index still has it
    have hchain := hexec.planned.chain (hranges.cold_tiling _) hexec.length
    obtain ⟨I, hI⟩ := List.exists_mem_of_ne_nil _ (Planned.extents_ne_nil hexec.length)
    have hinside := hchain.inside (Planned.length_extents hexec.length) hI
    have hsource := hexec.planned.extents_mem I hI
    have hIlt := (hranges.cold_tiling _).nonempty I hsource
    rw [← hmerged.topicPartition] at hsource
    have hspan : plan.extent = seg.extent := hmerged.extent.symm.trans heq
    have hin : Extent.Inside I seg.extent := hspan ▸ hinside
    obtain ⟨h₁, h₂, hne⟩ := hin
    rcases hcold.2 I hsource with heqI | happ | happ
    · exact hne heqI
    · omega
    · omega
  · change merged.endOffset ≤ seg.startOffset at happ
    omega
  · change seg.endOffset ≤ merged.startOffset at happ
    omega

theorem flip (h : Lags manifest index compaction (.registered task groups seg))
    (hranges : Ranges manifest index (.registered task groups seg) compaction)
    (hlive : Compatible (liveExtents manifest seg.topicPartition) seg.extent)
    (hcold : Compatible (coldExtents index seg.topicPartition) seg.extent)
    (hflip : index.flipToCold seg.topicPartition seg.startOffset seg.endOffset seg.objectKey
      seg.sizeBytes = some index') :
    Lags manifest index' compaction (.group task groups) := by
  have hview : liveView manifest = (caughtUp index compaction).insert seg :=
    h.resolve_right fun hsw => hsw.1.not_compatible hlive
  have hindex := coldView_flipToCold hflip
  show liveView manifest = caughtUp index' compaction
  rw [hview]
  cases compaction with
  | recorded plan plans merged =>
    have hlt := hranges.compaction.1.lt (hranges.cold_tiling _) hranges.compaction.2.1
    simp only [caughtUp]
    rw [hindex, View.merge_insert_of_not_covers _ hlt (not_covers_of_fits hranges hlive hcold)]
  | idle | planning | cycle | downloading | uploaded | deleting | panicked => exact hindex.symm

variable {plan : CompactionPlan} {plans : List CompactionPlan}

theorem swallowed_of_covers
    (hranges : Ranges manifest index (.registered task groups seg) (.uploaded plan plans merged))
    (hcovers : View.Covers merged seg.topicPartition seg.startOffset) :
    Swallowed (liveExtents (manifest ++ [.compact merged plan.sourceKeys]) seg.topicPartition)
      seg.extent := by
  obtain ⟨htp, hin⟩ := hcovers
  have hbounds : merged.startOffset ≤ seg.startOffset ∧ seg.startOffset < merged.endOffset :=
    of_decide_eq_true hin
  have hafter := hranges.record
  refine hafter.tier.2.resolve_left fun hmem => ?_
  have hlt : seg.startOffset < seg.endOffset := (hafter.live_tiling _).nonempty _ hmem
  obtain ⟨hexec, hmerged, hmergedMem⟩ := hafter.compaction
  rw [← htp] at hmergedMem
  rcases (hafter.live_tiling _).apart _ hmem _ hmergedMem with heq | happ | happ
  · -- before the record a source was live, and the range around it was live or swallowed
    obtain ⟨I, hI⟩ := List.exists_mem_of_ne_nil _ (Planned.extents_ne_nil hexec.length)
    have hchain := hexec.planned.chain (hranges.cold_tiling _) hexec.length
    have hinside := hchain.inside (Planned.length_extents hexec.length) hI
    have hsource := hranges.liveExtents_record.2 I hI
    have hspan : plan.extent = seg.extent := hmerged.extent.symm.trans heq.symm
    have hin : Extent.Inside I seg.extent := hspan ▸ hinside
    rw [← hmerged.topicPartition, ← htp] at hsource
    refine (hranges.live_tiling _).not_mem_of_swallowed ?_ hsource
    rcases hranges.tier.2 with hlive | ⟨J, hJ, hseg⟩
    · exact ⟨seg.extent, hlive, hin⟩
    · exact ⟨J, hJ, hin.trans_le hseg.1 hseg.2.1⟩
  · change seg.endOffset ≤ merged.startOffset at happ
    omega
  · change merged.endOffset ≤ seg.startOffset at happ
    omega

theorem record (h : Lags manifest index (.uploaded plan plans merged) tiering)
    (hranges : Ranges manifest index tiering (.uploaded plan plans merged)) :
    Lags (manifest ++ [.compact merged plan.sourceKeys]) index (.recorded plan plans merged)
      tiering := by
  have hlt := hranges.compaction.1.lt (hranges.cold_tiling _) hranges.compaction.2
  have hquiet : liveView manifest = coldView index →
      liveView (manifest ++ [.compact merged plan.sourceKeys]) =
        caughtUp index (.recorded plan plans merged) := by
    intro hview
    rw [liveView_compact, hview]
    rfl
  cases tiering with
  | registered task groups seg =>
    rcases h with hview | ⟨hsw, hview⟩
    · have hview' : liveView manifest = (coldView index).insert seg := hview
      by_cases hcovers : View.Covers merged seg.topicPartition seg.startOffset
      · refine Or.inr ⟨swallowed_of_covers hranges hcovers, ?_⟩
        rw [liveView_compact, hview', View.merge_insert_of_covers _ hcovers]
        rfl
      · left
        rw [liveView_compact, hview', View.merge_insert_of_not_covers _ hlt hcovers]
        rfl
    · obtain ⟨hL, hmem⟩ := hranges.liveExtents_record
      have hplanned := hranges.compaction.1
      have hev := Evolves.merge hranges.live_tiling hplanned.planned (hranges.cold_tiling _)
        hplanned.length hmem hL
      exact Or.inr ⟨hev.swallowed _ _ hsw, hquiet hview⟩
  | idle | cycle | group | uploaded | panicked => exact hquiet h

theorem replace (h : Lags manifest index (.recorded plan plans merged) tiering)
    (hreplace : index.replaceCold merged.topicPartition merged.startOffset merged.endOffset
      merged.objectKey merged.sizeBytes = some index') :
    Lags manifest index' (.deleting plan.sourceKeys plans) tiering :=
  h.of_caughtUp_eq (coldView_replaceCold hreplace)

variable {s s' : PartitionStore}

variable (h : Lags s.manifest s.index compaction tiering)
include h

theorem client {pending pending' : List WalRecord} {label : ClientLabel}
    (hstep : ClientStep cfg s pending label s' pending') :
    Lags s'.manifest s'.index compaction tiering := by
  obtain ⟨hmanifest, -, hcold⟩ := hstep.frame
  rw [hmanifest]
  exact h.of_caughtUp_eq (caughtUp_of_cold_eq hcold)

theorem tierStep {label : TierLabel} (hranges : Ranges s.manifest s.index tiering compaction)
    (hfits : label = .advance → TierFits s tiering)
    (hstep : TierStep cfg s tiering label s' tiering') :
    Lags s'.manifest s'.index compaction tiering' := by
  cases hstep with
  | upload hupload =>
    obtain ⟨data, objects, -, rfl, rfl, -⟩ := uploadRecords_cases hupload
    exact h
  | register => exact h.register
  | flip hflip => exact h.flip hranges (hfits rfl).1 (hfits rfl).2 hflip
  | @flipPanic task groups seg hflip =>
    -- a range that fits is not empty, so the flip does not panic
    have hlt : seg.startOffset < seg.endOffset := (hfits rfl).1.1
    simp only [PartitionIndex.flipToCold, if_neg (not_lt.mpr hlt.le)] at hflip
    cases hflip
  | sealActive | sealFailed | start | reclaim | segment | cycleDone | fenceBefore | fenceAfter
  | retain | delete | abortCycle | abortGroup | abortUploaded => exact h

theorem compactStep {label : CompactLabel} (hranges : Ranges s.manifest s.index tiering compaction)
    (hstep : CompactStep cfg s compaction label s' compaction') :
    Lags s'.manifest s'.index compaction' tiering := by
  cases hstep with
  | record => exact h.record hranges
  | replace hreplace => exact h.replace hreplace
  | @replacePanic plan plans merged hreplace =>
    have hlt := hranges.compaction.1.lt (hranges.cold_tiling _) hranges.compaction.2.1
    have hsome := PartitionIndex.replaceCold_isSome s.index merged.topicPartition hlt.le
      merged.objectKey merged.sizeBytes
    rw [hreplace] at hsome
    cases hsome
  | upload hend hupload =>
    obtain ⟨data, objects, -, rfl, rfl, -⟩ := uploadRecords_cases hupload
    exact h.moveCompaction rfl rfl
  | start | plan | planned | cycleDone | skip | execute | download | downloadErr | mismatch
  | delete | planDone | abortDownloading | abortUploaded => exact h.moveCompaction rfl rfl

end Lags

/-! ## Whole runs -/

def Engine.Lags (e : Engine) : Prop :=
  Store.Lags e.store.manifest e.store.index e.compaction e.tiering

theorem Engine.Lags.step {e' : Engine} {label : Label} (h : e.Lags) (hranges : e.Ranges)
    (hfits : RangeFits e label) (hstep : e.step cfg label = some e') : e'.Lags := by
  cases Engine.step_cases hstep with
  | client hclient => exact Store.Lags.client h hclient
  | tier htier => exact Store.Lags.tierStep h hranges (fun heq => by subst heq; exact hfits) htier
  | compact hcompact => exact Store.Lags.compactStep h hranges hcompact
  | restart hkept hload => exact (coldView_restart hload hranges.live_keyed cfg _).symm

theorem ranges_of_exec {labels : List Label}
    (hfits : Along (Engine.step cfg) RangeFits (.boot .empty) labels)
    (hexec : exec (Engine.step cfg) (.boot .empty) labels = some e) : e.Ranges ∧ e.Lags := by
  have hboot : (Engine.boot .empty).Ranges ∧ (Engine.boot .empty).Lags :=
    ⟨Store.Ranges.empty, rfl⟩
  refine exec_invariant (I := fun e => e.Ranges ∧ e.Lags) ?_ hboot hfits hexec
  intro e label e' h hP hstep
  exact ⟨h.1.step hP hstep, h.2.step h.1 hP hstep⟩

def Tiering.betweenWrites : Tiering → Bool
  | .registered _ _ _ => true
  | _ => false

def Compaction.betweenWrites : Compaction → Bool
  | .recorded _ _ _ => true
  | _ => false

theorem caughtUp_of_not_between (h : compaction.betweenWrites = false) :
    caughtUp index compaction = coldView index := by
  cases compaction with
  | recorded plan plans merged => cases h
  | _ => rfl

theorem Lags.eq_of_not_between {tiering : Tiering} (h : Lags manifest index compaction tiering)
    (htiering : tiering.betweenWrites = false) (hcompaction : compaction.betweenWrites = false) :
    liveView manifest = coldView index := by
  rw [← caughtUp_of_not_between hcompaction]
  cases tiering with
  | registered task groups seg => cases htiering
  | idle | cycle | group | uploaded | panicked => exact h

theorem mem_live_iff_view (hload : fold manifest = some load) (hkeyed : LiveKeyed manifest)
    (seg : ColdSegment) :
    seg ∈ load.live ↔ liveView manifest seg.topicPartition seg.startOffset = some seg.range := by
  rw [mem_live hload, liveView, Option.map_eq_some_iff]
  constructor
  · rintro ⟨tp, start, hget⟩
    obtain ⟨rfl, rfl, -⟩ := hkeyed tp start seg hget
    exact ⟨seg, hget, rfl⟩
  · rintro ⟨seg', hget, hrange⟩
    obtain ⟨htp, hstart, -⟩ := hkeyed _ _ seg' hget
    obtain ⟨tp', start', end', key', size'⟩ := seg'
    obtain ⟨tp, start, stop, key, size⟩ := seg
    cases htp
    cases hstart
    cases hrange
    exact ⟨_, _, hget⟩

/-- **The two cold views agree** in every state in which no task is between its two writes, if
tiering only registers and flips ranges that fit. -/
theorem cold_views_agree (cfg : StoreConfig) (labels : List Label) (e : Engine)
    (hfits : Along (Engine.step cfg) RangeFits (.boot .empty) labels)
    (hexec : exec (Engine.step cfg) (.boot .empty) labels = some e)
    (htiering : e.tiering.betweenWrites = false)
    (hcompaction : e.compaction.betweenWrites = false) :
    ∃ load, fold e.store.manifest = some load ∧ ∀ tp seg, seg ∈ e.store.index.getColdSegments tp ↔
        seg ∈ load.live ∧ seg.topicPartition = tp := by
  obtain ⟨hranges, hlags⟩ := ranges_of_exec hfits hexec
  obtain ⟨load, hload⟩ := fold_of_sound hranges.sound
  refine ⟨load, hload, ?_⟩
  intro tp seg
  rw [mem_getColdSegments, mem_live_iff_view hload hranges.live_keyed,
    hlags.eq_of_not_between htiering hcompaction]
  constructor
  · rintro ⟨rfl, hget⟩
    exact ⟨hget, rfl⟩
  · rintro ⟨hget, rfl⟩
    exact ⟨rfl, hget⟩

theorem cold_views_agree_mergedBesideFenced :
    ∃ e, exec (Engine.step fencedConfig) (.boot .empty) mergedBesideFenced = some e ∧
      ∃ load, fold e.store.manifest = some load ∧ ∀ tp seg, seg ∈ e.store.index.getColdSegments tp ↔
          seg ∈ load.live ∧ seg.topicPartition = tp := by
  have hquiet : (exec (Engine.step fencedConfig) (.boot .empty) mergedBesideFenced).map (fun e =>
      (e.tiering.betweenWrites, e.compaction.betweenWrites)) = some (false, false) := by
    decide +kernel
  obtain ⟨e, he, hbetween⟩ := Option.map_eq_some_iff.mp hquiet
  obtain ⟨htiering, hcompaction⟩ := Prod.mk.inj hbetween
  exact ⟨e, he, cold_views_agree fencedConfig mergedBesideFenced e (by decide +kernel) he htiering
    hcompaction⟩

/-- The kept segment is being tiered again: its range is registered and not yet flipped when the
merge with the next one is recorded and replaced. -/
def flippedAfterMerge : List Label :=
  appended ⟨"a", 0⟩ 0 ++ appended ⟨"b", 0⟩ 0 ++ sealOnce ++ keptSegment ++ cycleEnd ++
    appended ⟨"a", 0⟩ 1 ++ sealOnce ++ keptSegment ++ lastSegment ++
    [.tier .start, .tier (.segment [⟨"a", 0⟩, ⟨"b", 0⟩]), .tier .advance, .tier .advance] ++
    replacedSources ++ deletedSources ++ [.tier .advance]

theorem flip_undoes_merge :
    ((exec (Engine.step fencedConfig) (.boot .empty) flippedAfterMerge).bind fun e =>
      (fold e.store.manifest).map fun load =>
        (e.tiering.betweenWrites, e.compaction.betweenWrites,
          (e.store.index.getColdSegments ⟨"a", 0⟩).map ColdSegment.extent,
          (load.live.filter fun seg => seg.topicPartition = ⟨"a", 0⟩).map ColdSegment.extent)) =
      some (false, false, [(0, 1)], [(0, 2)]) := by
  decide +kernel

end RustMq.Store
