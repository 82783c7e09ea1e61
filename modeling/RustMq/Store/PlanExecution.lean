import RustMq.Store.Extents

/-!
# Executing the plans of a partition

The plans that `plan_partition_compaction` makes for a partition, executed by `replace_cold` in any
order and any number of times, next to the fold of the manifest records that go with them. A plan
may find its sources merged already. So the invariant is not about its sources: every cold range is
part of the plan's range or apart from it, and the plan's range is covered.
-/

namespace RustMq.Store

open Lib List SMap

/-! ## The plans of a partition -/

variable {seg : ColdSegment} {tp : TopicPartition} {segs : List ColdSegment}
  {index : PartitionIndex} {manifest : List ManifestRecord} {config : CompactionConfig}

section plans

variable {plan other : CompactionPlan} (hT : Tiling (coldExtents index tp))
  (hplan : plan ∈ planPartitionCompaction tp (index.getColdSegments tp) config)
  (hother : other ∈ planPartitionCompaction tp (index.getColdSegments tp) config)

include hplan

theorem mem_getColdSegments_of_plan (hseg : seg ∈ plan.sources) : seg ∈ index.getColdSegments tp :=
  (planPartitionCompaction_spec tp _ config).2.subset (mem_flatMap.mpr ⟨plan, hplan, hseg⟩)

theorem mem_coldExtents_of_plan {I : Extent} (hI : I ∈ plan.extents) :
    I ∈ coldExtents index tp := by
  obtain ⟨seg, hseg, rfl⟩ := mem_map.mp hI
  exact ⟨_, (mem_getColdSegments.mp (mem_getColdSegments_of_plan hplan hseg)).2, rfl⟩

include hT

theorem chain_plan : plan.extents ≠ [] ∧ Chain plan.extents plan.extent.1 plan.extent.2 := by
  have hcontiguous := ((planPartitionCompaction_spec tp _ config).1 plan hplan).2
  have hlt : ∀ seg ∈ plan.sources, seg.extent.1 < seg.extent.2 := fun seg hseg =>
    hT.nonempty _ (mem_coldExtents_of_plan hplan (mem_map_of_mem hseg))
  unfold CompactionPlan.extents CompactionPlan.extent CompactionPlan.startOffset
    CompactionPlan.endOffset
  cases hsources : plan.sources with
  | nil => exact absurd hsources (sources_ne_nil hplan)
  | cons seg segs =>
    rw [hsources] at hlt hcontiguous
    rw [getLast?_eq_some_getLast (cons_ne_nil seg segs)]
    exact ⟨cons_ne_nil _ _, chain_of_contiguous hlt hcontiguous⟩

theorem spanned_plan : Spanned (coldExtents index tp) plan.extent :=
  .of_chain hT (fun _ hI => mem_coldExtents_of_plan hplan hI) (chain_plan hT hplan).2
    (chain_plan hT hplan).1

include hother

/-- Two plans share no range: their extents are the same or apart. -/
theorem nested_plans : Nested plan.extent other.extent := by
  by_cases hsame : plan = other
  · rw [hsame]
    exact Or.inl ⟨le_rfl, le_rfl⟩
  · have hnodup := (nodup_place_getColdSegments index tp).sublist
      ((planPartitionCompaction_spec tp (index.getColdSegments tp) config).2.map ColdSegment.place)
    rw [allSources, map_flatMap, nodup_flatMap] at hnodup
    have hsymm : Std.Symm (Function.onFun Disjoint fun p : CompactionPlan =>
        p.sources.map ColdSegment.place) := ⟨fun _ _ h => h.symm⟩
    have hdisjoint := hnodup.2.forall hplan hother hsame
    obtain ⟨hne, hchain⟩ := chain_plan hT hother
    refine hchain.nested hne (spanned_plan hT hplan).lt fun I hI => ?_
    -- a range of `other` is apart from `plan`, or it would be one of its sources
    obtain ⟨hne', hchain'⟩ := chain_plan hT hplan
    rcases hchain'.mem_or_apart hT (fun _ => mem_coldExtents_of_plan hplan)
      (mem_coldExtents_of_plan hother hI) hne' with hmem | happ
    · obtain ⟨seg, hseg, rfl⟩ := mem_map.mp hI
      obtain ⟨seg', hseg', hext⟩ := mem_map.mp hmem
      refine absurd (mem_map_of_mem hseg) (hdisjoint ?_)
      have htp := (mem_getColdSegments.mp (mem_getColdSegments_of_plan hother hseg)).1
      have htp' := (mem_getColdSegments.mp (mem_getColdSegments_of_plan hplan hseg')).1
      have hplace : seg'.place = seg.place := Prod.ext (htp'.trans htp.symm) hext
      rw [← hplace]
      exact mem_map_of_mem hseg'
    · exact Or.inr happ

end plans

/-! ## Execution -/

/-- An executed plan with the key and the size of the merged object. -/
structure Executed where
  plan : CompactionPlan
  mergedKey : String
  sizeBytes : Nat

namespace Executed

def mergedSeg (e : Executed) : ColdSegment :=
  ⟨e.plan.topicPartition, e.plan.startOffset, e.plan.endOffset, e.mergedKey, e.sizeBytes⟩

/-- The record of `record_compaction`. -/
def record (e : Executed) : ManifestRecord := .compact e.mergedSeg e.plan.sourceKeys

def replace (e : Executed) (index : PartitionIndex) : Option PartitionIndex :=
  index.replaceCold e.mergedSeg.topicPartition e.mergedSeg.startOffset e.mergedSeg.endOffset
    e.mergedSeg.objectKey e.mergedSeg.sizeBytes

end Executed

def replaceAll (executed : List Executed) (index : PartitionIndex) : Option PartitionIndex :=
  executed.foldlM (fun index e => e.replace index) index

/-- A cold range of `tp` as a segment (`get_cold_segments`). -/
def toSegment (tp : TopicPartition) (start : Nat) (range : ObjectRange) : ColdSegment :=
  ⟨tp, start, range.endOffset, range.objectKey, range.sizeBytes⟩

/-- The live segments of the manifest are the cold ranges of `tp`. -/
def Mirrors (manifest : List ManifestRecord) (index : PartitionIndex) (tp : TopicPartition) :
    Prop :=
  ∀ tp' start, ((foldState manifest).segments tp').get? start =
    if tp' = tp then ((index.cold tp).get? start).map (toSegment tp start) else none

theorem get?_register (htp : ∀ seg ∈ segs, seg.topicPartition = tp) (tp' : TopicPartition)
    (start : Nat) :
    ((foldState (segs.map .register)).segments tp').get? start =
      if tp' = tp then segs.reverse.find? fun seg => start = seg.startOffset else none := by
  induction segs using reverseRecOn with
  | nil => exact (ite_self none).symm
  | append_singleton segs last ih =>
    have ih := ih fun s hs => htp s (mem_append_left _ hs)
    rw [map_append, map_singleton, foldState_append, FoldState.segments_apply_register,
      htp last (mem_append_right _ mem_cons_self), reverse_append]
    split
    · rename_i hsame
      rw [if_pos hsame] at ih
      rw [get?_insert, ← hsame, ih]
      split
      · rename_i hstart
        simp [hstart]
      · rename_i hstart
        simp [hstart]
    · rename_i hne
      rw [ih, if_neg hne]

/-- Registering the segments of a partition, in any order. -/
theorem mirrors_register (hperm : segs.Perm (index.getColdSegments tp)) :
    Mirrors (segs.map .register) index tp := by
  have hmem : ∀ seg ∈ segs, seg.topicPartition = tp ∧ (index.cold tp).get? seg.startOffset =
      some ⟨seg.endOffset, seg.objectKey, seg.sizeBytes⟩ :=
    fun seg hseg => mem_getColdSegments.mp (hperm.mem_iff.mp hseg)
  intro tp' start
  rw [get?_register fun seg hseg => (hmem seg hseg).1]
  refine if_congr Iff.rfl ?_ rfl
  cases hfind : segs.reverse.find? fun seg => decide (start = seg.startOffset) with
  | some seg =>
    obtain ⟨rfl, hget⟩ := hmem seg (mem_reverse.mp (mem_of_find?_eq_some hfind))
    have hstart : start = seg.startOffset := by simpa using find?_some hfind
    rw [hstart, hget]
    rfl
  | none =>
    cases hget : (index.cold tp).get? start with
    | none => rfl
    | some range =>
      have hseg : toSegment tp start range ∈ segs :=
        hperm.mem_iff.mpr (mem_getColdSegments.mpr ⟨rfl, hget⟩)
      exact absurd (decide_eq_true rfl) (find?_eq_none.mp hfind _ (mem_reverse.mpr hseg))

/-- **The two merges agree.** -/
theorem Mirrors.replace {index' : PartitionIndex} (h : Mirrors manifest index seg.topicPartition)
    (hreplace : index.replaceCold seg.topicPartition seg.startOffset seg.endOffset seg.objectKey
      seg.sizeBytes = some index') (sources : List String) :
    Mirrors (manifest ++ [.compact seg sources]) index' seg.topicPartition := by
  intro tp' start
  have hbefore := h seg.topicPartition start
  rw [if_pos rfl] at hbefore
  rw [foldState_append, FoldState.segments_apply_compact, cold_replaceCold hreplace, if_pos rfl]
  split
  · rw [get?_insert, get?_insert, get?_filterKeys, get?_filterKeys, hbefore]
    split
    · rename_i hstart
      rw [hstart]
      rfl
    · split
      · rfl
      · rfl
  · rename_i htp
    rw [h, if_neg htp]

/-- `index'` stands where plans of `index` have been executed, `manifest` is what was recorded. -/
structure Merged (index : PartitionIndex) (tp : TopicPartition) (config : CompactionConfig)
    (manifest : List ManifestRecord) (index' : PartitionIndex) : Prop where
  tiling : Tiling (coldExtents index' tp)
  covered : covered (coldExtents index' tp) = covered (coldExtents index tp)
  spanned : ∀ plan ∈ planPartitionCompaction tp (index.getColdSegments tp) config,
    Spanned (coldExtents index' tp) plan.extent
  mirrors : Mirrors manifest index' tp

section run

variable {index' : PartitionIndex} (hT : Tiling (coldExtents index tp))
include hT

theorem Merged.step (h : Merged index tp config manifest index') {e : Executed}
    (he : e.plan ∈ planPartitionCompaction tp (index.getColdSegments tp) config) :
    ∃ index'', e.replace index' = some index'' ∧
      Merged index tp config (manifest ++ [e.record]) index'' := by
  have htp : e.mergedSeg.topicPartition = tp :=
    ((planPartitionCompaction_spec tp _ config).1 e.plan he).1
  have hspan : Spanned (coldExtents index' tp) e.mergedSeg.extent := h.spanned e.plan he
  obtain ⟨index'', hreplace⟩ := Option.isSome_iff_exists.mp
    (index'.replaceCold_isSome e.mergedSeg.topicPartition hspan.lt.le e.mergedSeg.objectKey
      e.mergedSeg.sizeBytes)
  have hext := coldExtents_replaceCold hreplace hspan.lt tp
  rw [if_pos htp.symm] at hext
  refine ⟨index'', hreplace, ?_, ?_, fun plan hplan => ?_, ?_⟩
  · rw [hext]
    exact hspan.tiling h.tiling
  · rw [hext, ← h.covered]
    exact hspan.covered_merge h.tiling
  · rw [hext]
    exact hspan.merge h.tiling (h.spanned plan hplan) (nested_plans hT he hplan)
  · subst htp
    exact h.mirrors.replace hreplace _

theorem Merged.run {executed : List Executed} (h : Merged index tp config manifest index')
    (hplans : ∀ e ∈ executed,
      e.plan ∈ planPartitionCompaction tp (index.getColdSegments tp) config) :
    ∃ index'', replaceAll executed index' = some index'' ∧
      Merged index tp config (manifest ++ executed.map Executed.record) index'' := by
  induction executed generalizing manifest index' with
  | nil => exact ⟨index', rfl, (append_nil manifest).symm ▸ h⟩
  | cons e executed ih =>
    obtain ⟨he, hplans⟩ := forall_mem_cons.mp hplans
    obtain ⟨index₁, hreplace, h₁⟩ := h.step hT he
    obtain ⟨index'', hall, h'⟩ := ih h₁ hplans
    rw [append_assoc] at h'
    refine ⟨index'', ?_, h'⟩
    rw [replaceAll, foldlM_cons, hreplace]
    exact hall

end run

theorem Mirrors.mem_live {result : LoadResult} (h : Mirrors manifest index tp)
    (hfold : fold manifest = some result) (seg : ColdSegment) :
    seg ∈ result.live ↔ seg ∈ index.getColdSegments tp := by
  rw [Store.mem_live hfold, PartitionIndex.getColdSegments, mem_map]
  constructor
  · rintro ⟨tp', start, hget⟩
    rw [h] at hget
    split at hget
    · obtain ⟨range, hrange, rfl⟩ := Option.map_eq_some_iff.mp hget
      exact ⟨(start, range), get?_eq_some_iff.mp hrange, rfl⟩
    · cases hget
  · rintro ⟨⟨start, range⟩, hmem, rfl⟩
    refine ⟨tp, start, ?_⟩
    rw [h, if_pos rfl, get?_eq_some_iff.mpr hmem]
    rfl

/-- **Executing plans preserves coverage**, in the index and in the manifest. -/
theorem replaceAll_covers (index : PartitionIndex) (tp : TopicPartition)
    (config : CompactionConfig) (executed : List Executed) (segs : List ColdSegment)
    (hT : Tiling (coldExtents index tp))
    (hplans : ∀ e ∈ executed, e.plan ∈ planPartitionCompaction tp (index.getColdSegments tp) config)
    (hsegs : segs.Perm (index.getColdSegments tp)) :
    ∃ index' result, replaceAll executed index = some index' ∧ Tiling (coldExtents index' tp) ∧
      covered (coldExtents index' tp) = covered (coldExtents index tp) ∧
      fold (segs.map .register ++ executed.map Executed.record) = some result ∧
      ∀ seg, seg ∈ result.live ↔ seg ∈ index'.getColdSegments tp := by
  have hstart : Merged index tp config (segs.map .register) index :=
    ⟨hT, rfl, fun plan hplan => spanned_plan hT hplan, mirrors_register hsegs⟩
  obtain ⟨index', hall, hmerged⟩ := hstart.run hT hplans
  have hsound : ∀ r ∈ segs.map ManifestRecord.register ++ executed.map Executed.record,
      r.reversed = false := by
    intro r hr
    rcases mem_append.mp hr with hr | hr
    · obtain ⟨seg, -, rfl⟩ := mem_map.mp hr
      rfl
    · obtain ⟨e, he, rfl⟩ := mem_map.mp hr
      exact decide_eq_false (not_lt.mpr (spanned_plan hT (hplans e he)).lt.le)
  obtain ⟨result, hfold⟩ := fold_of_sound hsound
  exact ⟨index', result, hall, hmerged.tiling, hmerged.covered, hfold,
    hmerged.mirrors.mem_live hfold⟩

/-- Two ranges of a partition. -/
def twoRanges : PartitionIndex :=
  (PartitionIndex.new.insertCold ⟨"t", 0⟩ 0 5 "a" 3).insertCold ⟨"t", 0⟩ 5 9 "b" 4

theorem replaceAll_covers_twoRanges :
    ∃ index', replaceAll [⟨⟨⟨"t", 0⟩, twoRanges.getColdSegments ⟨"t", 0⟩⟩, "m", 7⟩] twoRanges =
        some index' ∧
      covered (coldExtents index' ⟨"t", 0⟩) = covered (coldExtents twoRanges ⟨"t", 0⟩) := by
  obtain ⟨index', result, hall, -, hcov, -⟩ := replaceAll_covers twoRanges ⟨"t", 0⟩ pairsOnly
    [⟨⟨⟨"t", 0⟩, twoRanges.getColdSegments ⟨"t", 0⟩⟩, "m", 7⟩] _
    (by decide +kernel : Tiling (intervals ObjectRange.endOffset _))
    (forall_mem_singleton.mpr (by decide +kernel)) (Perm.refl _)
  exact ⟨index', hall, hcov⟩

end RustMq.Store
