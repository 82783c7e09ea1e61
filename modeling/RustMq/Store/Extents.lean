import RustMq.Store.Engine

/-!
# The two catalogs of cold ranges

The ranges of a partition that live in object storage are recorded twice: in the manifest, whose
fold is the live set, and in the in-memory index. Both denote sets of intervals, `liveExtents` and
`coldExtents`, and the operations that change them are the two of the interval library: registering
and flipping a range insert it, recording and replacing a compaction merge a chain of ranges into
one.
-/

namespace RustMq.Store

open Lib

/-! ## Segments and their keys -/

variable {seg : ColdSegment}

namespace ColdSegment

def extent (seg : ColdSegment) : Extent := (seg.startOffset, seg.endOffset)

/-- The object key is the one of the segment's own partition and range. -/
def Keyed (seg : ColdSegment) : Prop :=
  seg.objectKey = Store.objectKey seg.topicPartition seg.startOffset seg.endOffset

def place (seg : ColdSegment) : TopicPartition × Extent := (seg.topicPartition, seg.extent)

variable {tp : TopicPartition}

theorem Keyed.eq {seg : ColdSegment} (h : seg.Keyed) {tp : TopicPartition} {I : Extent}
    (htp : seg.topicPartition = tp) (hI : seg.extent = I) :
    seg.objectKey = Store.objectKey tp I.1 I.2 := by
  subst htp hI
  exact h

end ColdSegment

/-! ## The live set of the manifest -/

def liveExtents (manifest : List ManifestRecord) (tp : TopicPartition) : Set Extent :=
  intervals ColdSegment.endOffset ((foldState manifest).segments tp)

/-- Every live segment sits at its own partition and start, under its own key. -/
def LiveKeyed (manifest : List ManifestRecord) : Prop :=
  ∀ tp start seg, ((foldState manifest).segments tp).get? start = some seg →
    seg.topicPartition = tp ∧ seg.startOffset = start ∧ seg.Keyed

section live

variable {manifest : List ManifestRecord}

theorem liveExtents_nil (tp : TopicPartition) : liveExtents [] tp = ∅ := intervals_empty

theorem liveExtents_register (hT : Tiling (liveExtents manifest seg.topicPartition))
    (hcomp : Compatible (liveExtents manifest seg.topicPartition) seg.extent)
    (tp : TopicPartition) :
    liveExtents (manifest ++ [.register seg]) tp =
      if tp = seg.topicPartition then insert seg.extent (liveExtents manifest tp)
      else liveExtents manifest tp := by
  unfold liveExtents
  rw [foldState_append, FoldState.segments_apply_register]
  by_cases htp : tp = seg.topicPartition
  · rw [if_pos htp, if_pos htp, htp]
    exact intervals_insert hT hcomp
  · rw [if_neg htp, if_neg htp]

theorem inRange_not_iff (a b k : Nat) : (!inRange a b k) = true ↔ k < a ∨ b ≤ k := by
  unfold inRange
  by_cases h : a ≤ k ∧ k < b
  · simp only [h, and_self, decide_true, Bool.not_true, Bool.false_eq_true, false_iff]
    omega
  · simp only [h, decide_false, Bool.not_false, true_iff]
    omega

theorem liveExtents_compact (hlt : seg.startOffset < seg.endOffset) (sources : List String)
    (tp : TopicPartition) :
    liveExtents (manifest ++ [.compact seg sources]) tp =
      if tp = seg.topicPartition then mergeInto (liveExtents manifest tp) seg.extent
      else liveExtents manifest tp := by
  unfold liveExtents
  rw [foldState_append, FoldState.segments_apply_compact]
  by_cases htp : tp = seg.topicPartition
  · rw [if_pos htp, if_pos htp, htp]
    exact intervals_merge hlt (inRange_not_iff seg.startOffset seg.endOffset)
  · rw [if_neg htp, if_neg htp]

theorem LiveKeyed.register (h : LiveKeyed manifest) (hseg : seg.Keyed) :
    LiveKeyed (manifest ++ [.register seg]) := by
  intro tp start seg' hget
  rw [foldState_append, FoldState.segments_apply_register] at hget
  split at hget
  · rename_i htp
    rcases SMap.of_get?_insert hget with ⟨hstart, rfl⟩ | ⟨-, hget⟩
    · exact ⟨htp.symm, hstart.symm, hseg⟩
    · exact h tp start seg' (htp ▸ hget)
  · exact h tp start seg' hget

theorem LiveKeyed.compact (h : LiveKeyed manifest) (hseg : seg.Keyed) (sources : List String) :
    LiveKeyed (manifest ++ [.compact seg sources]) := by
  intro tp start seg' hget
  rw [foldState_append, FoldState.segments_apply_compact] at hget
  split at hget
  · rename_i htp
    rcases SMap.of_get?_insert hget with ⟨hstart, rfl⟩ | ⟨-, hget⟩
    · exact ⟨htp.symm, hstart.symm, hseg⟩
    · exact h tp start seg' (htp ▸ SMap.of_get?_filterKeys hget)
  · exact h tp start seg' hget

theorem mem_liveExtents_of_mem_live {result : LoadResult} (h : fold manifest = some result)
    (hkeyed : LiveKeyed manifest) (hseg : seg ∈ result.live) :
    seg.extent ∈ liveExtents manifest seg.topicPartition ∧ seg.Keyed := by
  obtain ⟨tp, start, hget⟩ := (mem_live h seg).mp hseg
  obtain ⟨rfl, rfl, hkey⟩ := hkeyed tp start seg hget
  exact ⟨⟨seg, hget, rfl⟩, hkey⟩

end live

/-! ## The cold ranges of the index -/

def coldExtents (index : PartitionIndex) (tp : TopicPartition) : Set Extent :=
  intervals ObjectRange.endOffset (index.cold tp)

/-- Every cold entry has the key of its own partition and range. -/
def ColdKeyed (index : PartitionIndex) : Prop :=
  ∀ tp start range, (index.cold tp).get? start = some range →
    range.objectKey = objectKey tp start range.endOffset

section cold

variable {index index' : PartitionIndex}

theorem coldExtents_congr (h : ∀ tp, index'.cold tp = index.cold tp) (tp : TopicPartition) :
    coldExtents index' tp = coldExtents index tp := by
  rw [coldExtents, h, coldExtents]

theorem ColdKeyed.congr (h : ∀ tp, index'.cold tp = index.cold tp) (hkeyed : ColdKeyed index) :
    ColdKeyed index' := by
  intro tp start range hget
  rw [h] at hget
  exact hkeyed tp start range hget

variable {live : List ColdSegment}

section

variable
  (h : index.flipToCold seg.topicPartition seg.startOffset seg.endOffset seg.objectKey
    seg.sizeBytes = some index')
include h

theorem cold_flipToCold (tp : TopicPartition) : index'.cold tp =
      if tp = seg.topicPartition then
        (index.cold tp).insert seg.startOffset ⟨seg.endOffset, seg.objectKey, seg.sizeBytes⟩
      else index.cold tp := by
  unfold PartitionIndex.cold
  rw [PartitionIndex.entries_flipToCold _ _ tp h]
  split
  · rename_i htp
    rw [htp]
    rfl
  · rfl

theorem coldExtents_flipToCold (hT : Tiling (coldExtents index seg.topicPartition))
    (hcomp : Compatible (coldExtents index seg.topicPartition) seg.extent)
    (tp : TopicPartition) :
    coldExtents index' tp =
      if tp = seg.topicPartition then insert seg.extent (coldExtents index tp)
      else coldExtents index tp := by
  unfold coldExtents
  rw [cold_flipToCold h]
  by_cases htp : tp = seg.topicPartition
  · rw [if_pos htp, if_pos htp, htp]
    exact intervals_insert hT hcomp
  · rw [if_neg htp, if_neg htp]

theorem ColdKeyed.flipToCold (hkeyed : ColdKeyed index) (hseg : seg.Keyed) : ColdKeyed index' := by
  intro tp start range hget
  rw [cold_flipToCold h] at hget
  split at hget
  · rename_i htp
    rcases SMap.of_get?_insert hget with ⟨hstart, rfl⟩ | ⟨-, hget⟩
    · rw [htp, hstart]
      exact hseg
    · exact hkeyed tp start range hget
  · exact hkeyed tp start range hget

end

section

variable
  (h : index.replaceCold seg.topicPartition seg.startOffset seg.endOffset seg.objectKey
    seg.sizeBytes = some index')
include h

theorem cold_replaceCold (tp : TopicPartition) : index'.cold tp =
      if tp = seg.topicPartition then
        ((index.cold tp).filterKeys fun k => !inRange seg.startOffset seg.endOffset k).insert
          seg.startOffset ⟨seg.endOffset, seg.objectKey, seg.sizeBytes⟩
      else index.cold tp := by
  unfold PartitionIndex.cold
  rw [PartitionIndex.entries_replaceCold _ _ tp h]
  split
  · rename_i htp
    rw [htp]
    rfl
  · rfl

theorem coldExtents_replaceCold (hlt : seg.startOffset < seg.endOffset) (tp : TopicPartition) :
    coldExtents index' tp =
      if tp = seg.topicPartition then mergeInto (coldExtents index tp) seg.extent
      else coldExtents index tp := by
  unfold coldExtents
  rw [cold_replaceCold h]
  by_cases htp : tp = seg.topicPartition
  · rw [if_pos htp, if_pos htp]
    exact intervals_merge (v := ObjectRange.mk seg.endOffset seg.objectKey seg.sizeBytes) hlt
      (inRange_not_iff seg.startOffset seg.endOffset)
  · rw [if_neg htp, if_neg htp]

theorem ColdKeyed.replaceCold (hkeyed : ColdKeyed index) (hseg : seg.Keyed) : ColdKeyed index' := by
  intro tp start range hget
  rw [cold_replaceCold h] at hget
  split at hget
  · rename_i htp
    rcases SMap.of_get?_insert hget with ⟨hstart, rfl⟩ | ⟨-, hget⟩
    · rw [htp, hstart]
      exact hseg
    · exact hkeyed tp start range (SMap.of_get?_filterKeys hget)
  · exact hkeyed tp start range hget

end

theorem mem_getColdSegments :
    seg ∈ index.getColdSegments tp ↔ seg.topicPartition = tp ∧
      (index.cold tp).get? seg.startOffset =
        some ⟨seg.endOffset, seg.objectKey, seg.sizeBytes⟩ := by
  unfold PartitionIndex.getColdSegments
  rw [List.mem_map]
  constructor
  · rintro ⟨⟨start, range⟩, hmem, rfl⟩
    exact ⟨rfl, SMap.get?_eq_some_iff.mpr hmem⟩
  · rintro ⟨rfl, hget⟩
    exact ⟨_, SMap.get?_eq_some_iff.mp hget, rfl⟩

theorem nodup_place_getColdSegments (index : PartitionIndex) (tp : TopicPartition) :
    ((index.getColdSegments tp).map ColdSegment.place).Nodup := by
  unfold PartitionIndex.getColdSegments
  rw [List.map_map]
  refine List.Pairwise.map _ ?_ (index.cold tp).sorted
  intro a b hlt heq
  have hstart := congrArg (fun p : TopicPartition × Extent => p.2.1) heq
  exact absurd hstart (ne_of_lt hlt)

theorem cold_indexHot (cfg : StoreConfig) (records : List WalRecord) (index : PartitionIndex)
    (tp : TopicPartition) :
    (PartitionStore.indexHot cfg records index).cold tp = index.cold tp := by
  unfold PartitionStore.indexHot
  induction records generalizing index with
  | nil => rfl
  | cons r records ih =>
    rw [List.foldl_cons, ih]
    exact PartitionIndex.cold_insertHot _ _ _ _ _ _

theorem get?_cold_indexCold (live : List ColdSegment) (index : PartitionIndex)
    (tp : TopicPartition) (start : Nat) :
    ((PartitionStore.indexCold live index).cold tp).get? start =
      (live.reverse.findSome? fun seg => if tp = seg.topicPartition ∧ start = seg.startOffset then
        some ⟨seg.endOffset, seg.objectKey, seg.sizeBytes⟩ else none).or
        ((index.cold tp).get? start) := by
  refine view_foldl (fun index => (index.cold tp).get? start) _ (fun index seg => ?_) live index
  rw [PartitionIndex.get?_cold_insertCold]
  split
  · rfl
  · rfl

theorem mem_cold_indexCold {start : Nat} {range : ObjectRange}
    (h : ((PartitionStore.indexCold live .new).cold tp).get? start = some range) :
    ∃ seg ∈ live, seg.topicPartition = tp ∧ seg.startOffset = start ∧
      range = ⟨seg.endOffset, seg.objectKey, seg.sizeBytes⟩ := by
  rw [get?_cold_indexCold] at h
  rcases Option.or_eq_some_iff.mp h with hfound | ⟨-, hnew⟩
  · obtain ⟨seg, hseg, hhit⟩ := List.exists_of_findSome?_eq_some hfound
    obtain ⟨⟨htp, hstart⟩, hrange⟩ := Option.ite_none_right_eq_some.mp hhit
    exact ⟨seg, List.mem_reverse.mp hseg, htp.symm, hstart.symm, (Option.some.inj hrange).symm⟩
  · cases hnew

theorem cold_indexCold (hseg : seg ∈ live)
    (honly : ∀ seg' ∈ live, seg'.topicPartition = seg.topicPartition →
      seg'.startOffset = seg.startOffset → seg' = seg) :
    ((PartitionStore.indexCold live .new).cold seg.topicPartition).get? seg.startOffset =
      some ⟨seg.endOffset, seg.objectKey, seg.sizeBytes⟩ := by
  have hsome : (((PartitionStore.indexCold live .new).cold seg.topicPartition).get?
      seg.startOffset).isSome = true := by
    rw [get?_cold_indexCold, Option.isSome_or, Bool.or_eq_true]
    refine Or.inl (List.findSome?_isSome_iff.mpr ⟨seg, List.mem_reverse.mpr hseg, ?_⟩)
    rw [if_pos ⟨rfl, rfl⟩]
    rfl
  obtain ⟨range, hget⟩ := Option.isSome_iff_exists.mp hsome
  obtain ⟨seg', hseg', htp, hstart, rfl⟩ := mem_cold_indexCold hget
  rw [hget, honly seg' hseg' htp hstart]

end cold

/-! ## Plans -/

def CompactionPlan.extents (plan : CompactionPlan) : List Extent :=
  plan.sources.map ColdSegment.extent

def CompactionPlan.extent (plan : CompactionPlan) : Extent := (plan.startOffset, plan.endOffset)

/-- The sources of the plans are ranges of `X` under their own keys, each plan's are adjacent,
and none is in two plans. -/
structure Planned (X : TopicPartition → Set Extent) (plans : List CompactionPlan) : Prop where
  mem : ∀ plan ∈ plans, ∀ seg ∈ plan.sources,
    seg.topicPartition = plan.topicPartition ∧ seg.Keyed ∧ seg.extent ∈ X plan.topicPartition
  contiguous : ∀ plan ∈ plans, Contiguous plan.sources
  nodup : ((allSources plans).map ColdSegment.place).Nodup

theorem chain_of_contiguous {segs : List ColdSegment}
    (hlt : ∀ s ∈ seg :: segs, s.extent.1 < s.extent.2) (hcont : Contiguous (seg :: segs)) :
    Chain ((seg :: segs).map ColdSegment.extent) seg.startOffset
      ((seg :: segs).getLast (List.cons_ne_nil seg segs)).endOffset := by
  induction segs generalizing seg with
  | nil => exact ⟨rfl, hlt seg List.mem_cons_self, rfl⟩
  | cons next segs ih =>
    obtain ⟨hnext, hrest⟩ := List.isChain_cons_cons.mp hcont
    have hchain := ih (fun s hs => hlt s (List.mem_cons_of_mem seg hs)) hrest
    refine ⟨rfl, hlt seg List.mem_cons_self, ?_⟩
    rw [List.getLast_cons (List.cons_ne_nil next segs)]
    show Chain _ seg.endOffset _
    rw [hnext]
    exact hchain

namespace Planned

variable {X X' : TopicPartition → Set Extent} {plan : CompactionPlan}
  {plans : List CompactionPlan}

theorem nil : Planned X [] := ⟨fun _ h => (nomatch h), fun _ h => (nomatch h), List.nodup_nil⟩

theorem mono (h : Planned X plans) (hsub : ∀ tp, X tp ⊆ X' tp) : Planned X' plans where
  mem p hp seg hseg := by
    obtain ⟨htp, hkey, hmem⟩ := h.mem p hp seg hseg
    exact ⟨htp, hkey, hsub _ hmem⟩
  contiguous := h.contiguous
  nodup := h.nodup

theorem tail (h : Planned X (plan :: plans)) : Planned X plans where
  mem p hp := h.mem p (List.mem_cons_of_mem plan hp)
  contiguous p hp := h.contiguous p (List.mem_cons_of_mem plan hp)
  nodup := by
    have := h.nodup
    rw [allSources, List.flatMap_cons, List.map_append] at this
    exact (List.nodup_append.mp this).2.1

theorem extents_mem (h : Planned X (plan :: plans)) :
    ∀ I ∈ plan.extents, I ∈ X plan.topicPartition := by
  intro I hI
  obtain ⟨seg, hseg, rfl⟩ := List.mem_map.mp hI
  exact (h.mem plan List.mem_cons_self seg hseg).2.2

theorem chain (h : Planned X (plan :: plans)) (hT : Tiling (X plan.topicPartition))
    (hlen : 2 ≤ plan.sources.length) :
    Chain plan.extents plan.extent.1 plan.extent.2 := by
  have hlt : ∀ seg ∈ plan.sources, seg.extent.1 < seg.extent.2 := fun seg hseg =>
    hT.nonempty _ (h.mem plan List.mem_cons_self seg hseg).2.2
  have hcont := h.contiguous plan List.mem_cons_self
  unfold CompactionPlan.extents CompactionPlan.extent CompactionPlan.startOffset
    CompactionPlan.endOffset
  cases hsources : plan.sources with
  | nil => rw [hsources] at hlen; exact absurd hlen (by decide)
  | cons seg segs =>
    rw [hsources] at hlt hcont
    rw [List.getLast?_eq_some_getLast (List.cons_ne_nil seg segs)]
    exact chain_of_contiguous hlt hcont

theorem extents_ne_nil (hlen : 2 ≤ plan.sources.length) : plan.extents ≠ [] := by
  intro hnil
  rw [List.map_eq_nil_iff.mp hnil] at hlen
  exact absurd hlen (by decide)

theorem length_extents (hlen : 2 ≤ plan.sources.length) : 2 ≤ plan.extents.length := by
  rwa [CompactionPlan.extents, List.length_map]

theorem not_mem_extents (h : Planned X (plan :: plans)) {q : CompactionPlan} (hq : q ∈ plans)
    (htp : q.topicPartition = plan.topicPartition) (hseg : seg ∈ q.sources) :
    seg.extent ∉ plan.extents := by
  intro hI
  obtain ⟨seg', hseg', heq⟩ := List.mem_map.mp hI
  have hnodup := h.nodup
  rw [allSources, List.flatMap_cons, List.map_append] at hnodup
  have hplace : seg'.place = seg.place := Prod.ext
    (((h.mem plan List.mem_cons_self seg' hseg').1.trans htp.symm).trans
      (h.mem q (List.mem_cons_of_mem plan hq) seg hseg).1.symm) heq
  exact (List.nodup_append.mp hnodup).2.2 _ (List.mem_map_of_mem hseg') _
    (List.mem_map_of_mem (List.mem_flatMap.mpr ⟨q, hq, hseg⟩)) hplace

theorem merge (h : Planned X (plan :: plans)) (hT : Tiling (X plan.topicPartition))
    (hlen : 2 ≤ plan.sources.length)
    (hX : ∀ tp, X' tp = if tp = plan.topicPartition then mergeInto (X tp) plan.extent else X tp) :
    Planned X' plans where
  mem q hq seg hseg := by
    obtain ⟨htp, hkey, hmem⟩ := h.mem q (List.mem_cons_of_mem plan hq) seg hseg
    refine ⟨htp, hkey, ?_⟩
    rw [hX]
    split
    · rename_i hsame
      rw [hsame] at hmem ⊢
      exact hT.mem_merge_of_not_mem h.extents_mem (h.chain hT hlen) (extents_ne_nil hlen) hmem
        (h.not_mem_extents hq hsame hseg)
    · exact hmem
  contiguous := h.tail.contiguous
  nodup := h.tail.nodup

theorem append {index : PartitionIndex} (h : Planned (coldExtents index) plans)
    (hkeyed : ColdKeyed index) (htp : ∀ p ∈ plans, p.topicPartition ≠ tp)
    (config : CompactionConfig) :
    Planned (coldExtents index)
      (plans ++ planPartitionCompaction tp (index.getColdSegments tp) config) := by
  obtain ⟨hof, hsub⟩ := planPartitionCompaction_spec tp (index.getColdSegments tp) config
  have hnew : ∀ p ∈ planPartitionCompaction tp (index.getColdSegments tp) config,
      ∀ seg ∈ p.sources, seg ∈ index.getColdSegments tp := fun p hp seg hseg =>
    hsub.subset (List.mem_flatMap.mpr ⟨p, hp, hseg⟩)
  refine ⟨?_, ?_, ?_⟩
  · intro p hp seg hseg
    rcases List.mem_append.mp hp with hp | hp
    · exact h.mem p hp seg hseg
    · obtain ⟨hsegtp, hget⟩ := mem_getColdSegments.mp (hnew p hp seg hseg)
      rw [(hof p hp).1]
      refine ⟨hsegtp, ?_, _, hget, rfl⟩
      rw [ColdSegment.Keyed, hsegtp]
      exact hkeyed tp _ _ hget
  · intro p hp
    rcases List.mem_append.mp hp with hp | hp
    · exact h.contiguous p hp
    · exact (hof p hp).2
  · rw [allSources, List.flatMap_append, List.map_append]
    refine List.nodup_append.mpr ⟨h.nodup,
      (nodup_place_getColdSegments index tp).sublist (hsub.map _), ?_⟩
    intro a ha b hb hab
    obtain ⟨seg, hseg, rfl⟩ := List.mem_map.mp ha
    obtain ⟨seg', hseg', rfl⟩ := List.mem_map.mp hb
    obtain ⟨p, hp, hseg⟩ := List.mem_flatMap.mp hseg
    refine htp p hp ?_
    rw [← (h.mem p hp seg hseg).1, ← (mem_getColdSegments.mp (hsub.subset hseg')).1]
    exact congrArg Prod.fst hab

end Planned

end RustMq.Store
