import RustMq.Store.Extents

/-!
# Cold ranges over whole runs

The manifest and the index are written by two tasks that do not wait for each other: tiering
registers a range and later flips the index, compaction records a merge and later replaces the
sources in the index, and any of these may come between any others. `Ranges` is what holds in
every state in between:

* both catalogs are tilings whose entries sit under the keys of their own ranges;
* what the index has, the manifest has, except for the sources of a merge that is recorded and
  not yet replaced;
* every orphan, and every key on the list of the compactor's deletions, is the key of a range
  that lies inside a live one.

All of it rests on one condition on the tiering task, `RangeFits`: the range it registers or
flips is equal to or apart from every range of its partition in the two catalogs. The code does
not check it, and a sealed segment that is tiered again after its ranges were merged does not
meet it.
-/

namespace RustMq.Store

open Lib List

/-! ## The condition on the tiering task -/

instance (manifest : List ManifestRecord) (tp : TopicPartition) (I : Extent) :
    Decidable (Compatible (liveExtents manifest tp) I) :=
  inferInstanceAs (Decidable (Compatible (intervals _ _) I))

instance (index : PartitionIndex) (tp : TopicPartition) (I : Extent) :
    Decidable (Compatible (coldExtents index tp) I) :=
  inferInstanceAs (Decidable (Compatible (intervals _ _) I))

/-- Not empty, and equal to or apart from every cold range of the partition, in the manifest and
in the index. -/
def SegmentFits (s : PartitionStore) (seg : ColdSegment) : Prop :=
  Compatible (liveExtents s.manifest seg.topicPartition) seg.extent ∧
    Compatible (coldExtents s.index seg.topicPartition) seg.extent

instance (s : PartitionStore) (seg : ColdSegment) : Decidable (SegmentFits s seg) :=
  inferInstanceAs (Decidable (_ ∧ _))

def TierFits (s : PartitionStore) : Tiering → Prop
  | .uploaded _ _ seg | .registered _ _ seg => SegmentFits s seg
  | .idle | .cycle _ | .group _ _ | .panicked => True

instance (s : PartitionStore) (tiering) : Decidable (TierFits s tiering) := by
  unfold TierFits
  split <;> infer_instance

/-- When the tiering task registers a range and when it flips it, the range fits. -/
def RangeFits (e : Engine) : Label → Prop
  | .tier .advance => TierFits e.store e.tiering
  | _ => True

instance (e : Engine) (label) : Decidable (RangeFits e label) := by
  unfold RangeFits
  split <;> infer_instance

/-! ## Ranges that only ever get swallowed -/

/-- The key is the one of a range that lies inside a live range. -/
def Superseded (L : TopicPartition → Set Extent) (key : String) : Prop :=
  ∃ tp I, key = objectKey tp I.1 I.2 ∧ Swallowed (L tp) I

/-- How a live set changes: a range stays or is swallowed, and what is swallowed stays so. -/
structure Evolves (L L' : TopicPartition → Set Extent) : Prop where
  mem : ∀ tp, ∀ I ∈ L tp, I ∈ L' tp ∨ Swallowed (L' tp) I
  swallowed : ∀ tp I, Swallowed (L tp) I → Swallowed (L' tp) I

variable {L L' X : TopicPartition → Set Extent} {plan : CompactionPlan}
  {plans : List CompactionPlan}

section evolves

variable {tp₀ : TopicPartition} {I : Extent}

theorem Evolves.of_subset (h : ∀ tp, L tp ⊆ L' tp) : Evolves L L' :=
  ⟨fun tp _ hI => .inl (h tp hI), fun tp _ hI => hI.mono (h tp)⟩

variable {key : String}

theorem Superseded.evolve (h : Superseded L key) (hev : Evolves L L') : Superseded L' key := by
  obtain ⟨tp, I, hkey, hI⟩ := h
  exact ⟨tp, I, hkey, hev.swallowed tp I hI⟩

theorem subset_of_insert (hL : ∀ tp, L' tp = if tp = tp₀ then insert I (L tp) else L tp)
    (tp : TopicPartition) : L tp ⊆ L' tp := by
  rw [hL]
  split
  · exact Set.subset_insert _ _
  · exact subset_rfl

theorem forall_of_insert {P : TopicPartition → Extent → Prop}
    (hL : ∀ tp, L' tp = if tp = tp₀ then insert I (L tp) else L tp) (hI : P tp₀ I)
    (hold : ∀ tp, ∀ J ∈ L tp, P tp J) : ∀ tp, ∀ J ∈ L' tp, P tp J := by
  intro tp J hJ
  rw [hL] at hJ
  split at hJ
  · rename_i htp
    rcases Set.mem_insert_iff.mp hJ with rfl | hJ
    · exact htp ▸ hI
    · exact hold tp J hJ
  · exact hold tp J hJ

theorem tiling_of_insert (hT : ∀ tp, Tiling (L tp)) (hcomp : Compatible (L tp₀) I)
    (hL : ∀ tp, L' tp = if tp = tp₀ then insert I (L tp) else L tp) (tp : TopicPartition) :
    Tiling (L' tp) := by
  rw [hL]
  split
  · rename_i htp
    rw [htp]
    exact (hT tp₀).insert hcomp
  · exact hT tp

theorem tiling_of_merge (hT : ∀ tp, Tiling (L tp)) (hplan : Planned X (plan :: plans))
    (hX : Tiling (X plan.topicPartition)) (hlen : 2 ≤ plan.sources.length)
    (hmem : ∀ I ∈ plan.extents, I ∈ L plan.topicPartition)
    (hL : ∀ tp, L' tp = if tp = plan.topicPartition then mergeInto (L tp) plan.extent else L tp)
    (tp : TopicPartition) : Tiling (L' tp) := by
  rw [hL]
  split
  · rename_i htp
    rw [htp]
    exact (hT _).merge hmem (hplan.chain hX hlen) (Planned.extents_ne_nil hlen)
  · exact hT tp

theorem Evolves.merge (hT : ∀ tp, Tiling (L tp)) (hplan : Planned X (plan :: plans))
    (hX : Tiling (X plan.topicPartition)) (hlen : 2 ≤ plan.sources.length)
    (hmem : ∀ I ∈ plan.extents, I ∈ L plan.topicPartition)
    (hL : ∀ tp, L' tp = if tp = plan.topicPartition then mergeInto (L tp) plan.extent else L tp) :
    Evolves L L' := by
  have hchain := hplan.chain hX hlen
  have hne := Planned.extents_ne_nil hlen
  refine ⟨?_, ?_⟩
  · intro tp I hI
    rw [hL]
    split
    · rename_i htp
      rw [htp] at hI ⊢
      by_cases hin : I ∈ plan.extents
      · exact .inr ⟨plan.extent, .inl rfl, hchain.inside (Planned.length_extents hlen) hin⟩
      · exact .inl ((hT _).mem_merge_of_not_mem hmem hchain hne hI hin)
    · exact .inl hI
  · intro tp I hI
    rw [hL]
    split
    · rename_i htp
      rw [htp] at hI ⊢
      exact hI.merge (hT _) hmem hchain hne
    · exact hI

end evolves

/-! ## The invariant -/

/-- Between registering and flipping, the range is live or was swallowed by a merge. -/
def TierOk (L : TopicPartition → Set Extent) : Tiering → Prop
  | .uploaded _ _ seg => seg.Keyed
  | .registered _ _ seg =>
    seg.Keyed ∧ (seg.extent ∈ L seg.topicPartition ∨ Swallowed (L seg.topicPartition) seg.extent)
  | _ => True

/-- The plan being executed and the ones after it. -/
structure Executing (X : TopicPartition → Set Extent) (plan : CompactionPlan)
    (plans : List CompactionPlan) : Prop where
  planned : Planned X (plan :: plans)
  length : 2 ≤ plan.sources.length

structure MergedFrom (plan : CompactionPlan) (seg : ColdSegment) : Prop where
  topicPartition : seg.topicPartition = plan.topicPartition
  extent : seg.extent = plan.extent
  keyed : seg.Keyed

def CompactionOk (L X : TopicPartition → Set Extent) : Compaction → Prop
  | .idle | .panicked => True
  | .planning partitions plans =>
    partitions.Nodup ∧ Planned X plans ∧ ∀ plan ∈ plans, plan.topicPartition ∉ partitions
  | .cycle plans => Planned X plans
  | .downloading plan plans _ _ _ => Executing X plan plans
  | .uploaded plan plans seg => Executing X plan plans ∧ MergedFrom plan seg
  | .recorded plan plans seg =>
    Executing X plan plans ∧ MergedFrom plan seg ∧ seg.extent ∈ L seg.topicPartition
  | .deleting keys plans => Planned X plans ∧ ∀ key ∈ keys, Superseded L key

/-- The sources of a merge that the manifest has and the index does not. -/
def InGap : Compaction → TopicPartition → Extent → Prop
  | .recorded plan _ _, tp, I => plan.topicPartition = tp ∧ I ∈ plan.extents
  | _, _, _ => False

structure Ranges (manifest : List ManifestRecord) (index : PartitionIndex) (tiering : Tiering)
    (compaction : Compaction) : Prop where
  sound : ∀ r ∈ manifest, r.reversed = false
  live_keyed : LiveKeyed manifest
  live_tiling : ∀ tp, Tiling (liveExtents manifest tp)
  cold_keyed : ColdKeyed index
  cold_tiling : ∀ tp, Tiling (coldExtents index tp)
  cold_live : ∀ tp, ∀ I ∈ coldExtents index tp, I ∈ liveExtents manifest tp ∨ InGap compaction tp I
  orphans : ∀ key ∈ (foldState manifest).orphanObjectKeys, Superseded (liveExtents manifest) key
  tier : TierOk (liveExtents manifest) tiering
  compaction : CompactionOk (liveExtents manifest) (coldExtents index) compaction

variable {compaction : Compaction} {tiering : Tiering}

section mono

variable {X' : TopicPartition → Set Extent}

theorem TierOk.evolve (h : TierOk L tiering) (hev : Evolves L L') : TierOk L' tiering := by
  cases tiering with
  | registered task groups seg =>
    obtain ⟨hkeyed, hmem⟩ := h
    exact ⟨hkeyed, hmem.elim (hev.mem _ _) fun hsw => .inr (hev.swallowed _ _ hsw)⟩
  | uploaded task groups seg => exact h
  | idle | cycle | group | panicked => trivial

section

variable (h : Executing X plan plans)
include h

theorem Executing.mono (hX : ∀ tp, X tp ⊆ X' tp) : Executing X' plan plans :=
  ⟨h.planned.mono hX, h.length⟩

theorem Executing.lt {seg : ColdSegment} (hT : Tiling (X plan.topicPartition))
    (hmerged : MergedFrom plan seg) : seg.startOffset < seg.endOffset := by
  have hlt := (h.planned.chain hT h.length).lt (Planned.extents_ne_nil h.length)
  rw [← hmerged.extent] at hlt
  exact hlt

theorem Executing.superseded (hT : Tiling (X plan.topicPartition))
    (hlive : plan.extent ∈ L plan.topicPartition) (hkey : key ∈ plan.sourceKeys) :
    Superseded L key := by
  obtain ⟨seg, hseg, rfl⟩ := mem_map.mp hkey
  obtain ⟨htp, hkeyed, -⟩ := h.planned.mem plan mem_cons_self seg hseg
  refine ⟨plan.topicPartition, seg.extent, hkeyed.eq htp rfl, plan.extent, hlive, ?_⟩
  exact (h.planned.chain hT h.length).inside (Planned.length_extents h.length) (mem_map_of_mem hseg)

end

theorem CompactionOk.mono (h : CompactionOk L X compaction) (hL : ∀ tp, L tp ⊆ L' tp)
    (hX : ∀ tp, X tp ⊆ X' tp) : CompactionOk L' X' compaction := by
  cases compaction with
  | idle | panicked => trivial
  | planning partitions plans => exact ⟨h.1, h.2.1.mono hX, h.2.2⟩
  | cycle plans => exact Planned.mono h hX
  | downloading plan plans sources merged expected => exact Executing.mono h hX
  | uploaded plan plans seg => exact ⟨h.1.mono hX, h.2⟩
  | recorded plan plans seg => exact ⟨h.1.mono hX, h.2.1, hL _ h.2.2⟩
  | deleting keys plans =>
    exact ⟨h.1.mono hX, fun key hkey => (h.2 key hkey).evolve (.of_subset hL)⟩

end mono

/-! ## One step -/

namespace Ranges

variable {manifest : List ManifestRecord} {index index' : PartitionIndex} {tiering' : Tiering}
  {compaction' : Compaction}

theorem empty : Ranges [] .new .idle .idle where
  sound r hr := nomatch hr
  live_keyed tp start seg hget := nomatch hget
  live_tiling tp := by
    rw [liveExtents_nil]
    exact ⟨fun I hI => (nomatch hI), fun I hI => (nomatch hI)⟩
  cold_keyed tp start range hget := nomatch hget
  cold_tiling tp := by
    have hnone : coldExtents .new tp = ∅ := intervals_empty
    rw [hnone]
    exact ⟨fun I hI => (nomatch hI), fun I hI => (nomatch hI)⟩
  cold_live tp I hI := by
    obtain ⟨range, hget, -⟩ := hI
    cases hget
  orphans key hkey := nomatch hkey
  tier := trivial
  compaction := trivial

section

variable (h : Ranges manifest index tiering compaction)
include h

theorem move (hgap : ∀ tp I, InGap compaction tp I → InGap compaction' tp I)
    (htier : TierOk (liveExtents manifest) tiering')
    (hcompaction : CompactionOk (liveExtents manifest) (coldExtents index) compaction') :
    Ranges manifest index tiering' compaction' where
  sound := h.sound
  live_keyed := h.live_keyed
  live_tiling := h.live_tiling
  cold_keyed := h.cold_keyed
  cold_tiling := h.cold_tiling
  cold_live tp I hI := (h.cold_live tp I hI).imp_right (hgap tp I)
  orphans := h.orphans
  tier := htier
  compaction := hcompaction

theorem moveTier (htier : TierOk (liveExtents manifest) tiering') :
    Ranges manifest index tiering' compaction :=
  h.move (fun _ _ hgap => hgap) htier h.compaction

theorem of_cold_eq (hcold : ∀ tp, index'.cold tp = index.cold tp) :
    Ranges manifest index' tiering compaction := by
  have hX : coldExtents index' = coldExtents index := funext (coldExtents_congr hcold)
  refine ⟨h.sound, h.live_keyed, h.live_tiling, h.cold_keyed.congr hcold, ?_, ?_, h.orphans,
    h.tier, ?_⟩
  · rw [hX]
    exact h.cold_tiling
  · rw [hX]
    exact h.cold_live
  · rw [hX]
    exact h.compaction

end

variable {task : SegmentTask} {groups : List Group} {seg : ColdSegment}

theorem register (h : Ranges manifest index (.uploaded task groups seg) compaction)
    (hfits : Compatible (liveExtents manifest seg.topicPartition) seg.extent) :
    Ranges (manifest ++ [.register seg]) index (.registered task groups seg) compaction := by
  have hL := liveExtents_register (h.live_tiling seg.topicPartition) hfits
  have hsub := subset_of_insert hL
  have horphans : (foldState (manifest ++ [.register seg])).orphanObjectKeys =
      (foldState manifest).orphanObjectKeys := by rw [foldState_append]; rfl
  refine ⟨?_, h.live_keyed.register h.tier, tiling_of_insert h.live_tiling hfits hL, h.cold_keyed,
    h.cold_tiling, ?_, ?_, ⟨h.tier, .inl ?_⟩, h.compaction.mono hsub fun _ => subset_rfl⟩
  · exact forall_mem_append.mpr ⟨h.sound, forall_mem_singleton.mpr rfl⟩
  · exact fun tp I hI => (h.cold_live tp I hI).imp_left fun hmem => hsub tp hmem
  · intro key hkey
    rw [horphans] at hkey
    exact (h.orphans key hkey).evolve (.of_subset hsub)
  · rw [hL, if_pos rfl]
    exact Set.mem_insert _ _

theorem flip (h : Ranges manifest index (.registered task groups seg) compaction)
    (hlive : Compatible (liveExtents manifest seg.topicPartition) seg.extent)
    (hcold : Compatible (coldExtents index seg.topicPartition) seg.extent)
    (hflip : index.flipToCold seg.topicPartition seg.startOffset seg.endOffset seg.objectKey
      seg.sizeBytes = some index') :
    Ranges manifest index' (.group task groups) compaction := by
  have hX := coldExtents_flipToCold hflip (h.cold_tiling seg.topicPartition) hcold
  have hmem : seg.extent ∈ liveExtents manifest seg.topicPartition :=
    h.tier.2.resolve_right fun hsw => hsw.not_compatible hlive
  refine ⟨h.sound, h.live_keyed, h.live_tiling, h.cold_keyed.flipToCold hflip h.tier.1,
    tiling_of_insert h.cold_tiling hcold hX, forall_of_insert hX (.inl hmem) h.cold_live,
    h.orphans, trivial, h.compaction.mono (fun _ => subset_rfl) (subset_of_insert hX)⟩

theorem liveExtents_record (h : Ranges manifest index tiering (.uploaded plan plans seg)) :
    (∀ tp, liveExtents (manifest ++ [.compact seg plan.sourceKeys]) tp =
      if tp = plan.topicPartition then mergeInto (liveExtents manifest tp) plan.extent
      else liveExtents manifest tp) ∧
    ∀ I ∈ plan.extents, I ∈ liveExtents manifest plan.topicPartition := by
  obtain ⟨hexec, hmerged⟩ := h.compaction
  refine ⟨fun tp => ?_, fun I hI => ?_⟩
  · rw [liveExtents_compact (hexec.lt (h.cold_tiling _) hmerged), hmerged.topicPartition,
      hmerged.extent]
  · exact (h.cold_live _ I (hexec.planned.extents_mem I hI)).resolve_right id

theorem record (h : Ranges manifest index tiering (.uploaded plan plans seg)) :
    Ranges (manifest ++ [.compact seg plan.sourceKeys]) index tiering
      (.recorded plan plans seg) := by
  obtain ⟨hL, hmem⟩ := h.liveExtents_record
  obtain ⟨hexec, hmerged⟩ := h.compaction
  have hX := h.cold_tiling plan.topicPartition
  have hchain := hexec.planned.chain hX hexec.length
  have hlt := hexec.lt hX hmerged
  have hev := Evolves.merge h.live_tiling hexec.planned hX hexec.length hmem hL
  have hin : plan.extent ∈ liveExtents (manifest ++ [.compact seg plan.sourceKeys])
      plan.topicPartition := by
    rw [hL, if_pos rfl]
    exact .inl rfl
  refine ⟨?_, h.live_keyed.compact hmerged.keyed _,
    tiling_of_merge h.live_tiling hexec.planned hX hexec.length hmem hL, h.cold_keyed,
    h.cold_tiling, ?_, ?_, h.tier.evolve hev, hexec, hmerged, ?_⟩
  · exact forall_mem_append.mpr
      ⟨h.sound, forall_mem_singleton.mpr (decide_eq_false (not_lt.mpr hlt.le))⟩
  · intro tp I hI
    have hlive := (h.cold_live tp I hI).resolve_right id
    by_cases hgap : plan.topicPartition = tp ∧ I ∈ plan.extents
    · exact .inr hgap
    · left
      rw [hL]
      split
      · rename_i htp
        rw [htp] at hlive ⊢
        exact (h.live_tiling _).mem_merge_of_not_mem hmem hchain
          (Planned.extents_ne_nil hexec.length) hlive fun hI => hgap ⟨htp.symm, hI⟩
      · exact hlive
  · intro key hkey
    rw [foldState_append] at hkey
    rcases mem_append.mp hkey with hkey | hkey
    · exact (h.orphans key hkey).evolve hev
    · exact hexec.superseded hX hin hkey
  · rw [hmerged.extent, hmerged.topicPartition]
    exact hin

theorem replace (h : Ranges manifest index tiering (.recorded plan plans seg))
    (hreplace : index.replaceCold seg.topicPartition seg.startOffset seg.endOffset seg.objectKey
      seg.sizeBytes = some index') :
    Ranges manifest index' tiering (.deleting plan.sourceKeys plans) := by
  obtain ⟨hexec, hmerged, hlive⟩ := h.compaction
  have hT := h.cold_tiling plan.topicPartition
  have hchain := hexec.planned.chain hT hexec.length
  have hlt := hexec.lt hT hmerged
  have hX : ∀ tp, coldExtents index' tp =
      if tp = plan.topicPartition then mergeInto (coldExtents index tp) plan.extent
      else coldExtents index tp := by
    intro tp
    rw [coldExtents_replaceCold hreplace hlt, hmerged.topicPartition, hmerged.extent]
  rw [hmerged.extent, hmerged.topicPartition] at hlive
  refine ⟨h.sound, h.live_keyed, h.live_tiling, h.cold_keyed.replaceCold hreplace hmerged.keyed,
    tiling_of_merge h.cold_tiling hexec.planned hT hexec.length hexec.planned.extents_mem hX, ?_,
    h.orphans, h.tier, hexec.planned.merge hT hexec.length hX,
    fun key hkey => hexec.superseded hT hlive hkey⟩
  intro tp I hI
  left
  rw [hX] at hI
  split at hI
  · rename_i htp
    rw [htp] at hI ⊢
    rcases hI with rfl | ⟨hI, hout⟩
    · exact hlive
    · refine (h.cold_live _ I hI).resolve_right fun hgap => ?_
      -- what is kept starts outside the merged range, a source starts inside
      have := hchain.bounds.2 I hgap.2
      omega
  · rename_i htp
    exact (h.cold_live tp I hI).resolve_right fun hgap => htp hgap.1.symm

variable {cfg : StoreConfig} {s s' : PartitionStore}

theorem client {pending pending' : List WalRecord} {label : ClientLabel}
    (h : Ranges s.manifest s.index tiering compaction)
    (hstep : ClientStep cfg s pending label s' pending') :
    Ranges s'.manifest s'.index tiering compaction := by
  obtain ⟨hmanifest, -, hcold⟩ := hstep.frame
  rw [hmanifest]
  exact h.of_cold_eq hcold

theorem tierStep {label : TierLabel} (h : Ranges s.manifest s.index tiering compaction)
    (hfits : label = .advance → TierFits s tiering)
    (hstep : TierStep cfg s tiering label s' tiering') :
    Ranges s'.manifest s'.index tiering' compaction := by
  cases hstep with
  | upload hupload =>
    obtain ⟨data, objects, -, rfl, rfl, -⟩ := uploadRecords_cases hupload
    exact h.moveTier rfl
  | register => exact h.register (hfits rfl).1
  | flip hflip => exact h.flip (hfits rfl).1 (hfits rfl).2 hflip
  | sealActive | sealFailed => exact h
  | start | reclaim | segment | cycleDone | fenceBefore | fenceAfter | flipPanic | retain
  | delete | abortCycle | abortGroup | abortUploaded => exact h.moveTier trivial

theorem moveCompaction (h : Ranges manifest index tiering compaction)
    (hgap : ∀ tp I, ¬ InGap compaction tp I)
    (hcompaction : CompactionOk (liveExtents manifest) (coldExtents index) compaction') :
    Ranges manifest index tiering compaction' :=
  h.move (fun tp I hI => absurd hI (hgap tp I)) h.tier hcompaction

theorem compactStep {label : CompactLabel} (h : Ranges s.manifest s.index tiering compaction)
    (hstep : CompactStep cfg s compaction label s' compaction') :
    Ranges s'.manifest s'.index tiering compaction' := by
  have hok := h.compaction
  cases hstep with
  | start henabled hperm =>
    exact h.moveCompaction (fun _ _ hI => hI)
      ⟨hperm.nodup_iff.mpr s.index.inner.keys_nodup, .nil, fun plan hplan => (nomatch hplan)⟩
  | @plan tp partitions plans =>
    obtain ⟨hnodup, hplanned, hfresh⟩ := hok
    obtain ⟨htp, hnodup⟩ := nodup_cons.mp hnodup
    refine h.moveCompaction (fun _ _ hI => hI) ⟨hnodup, hplanned.append h.cold_keyed ?_ _, ?_⟩
    · intro p hp heq
      exact hfresh p hp (heq ▸ mem_cons_self)
    · intro p hp
      rcases mem_append.mp hp with hp | hp
      · exact fun hmem => hfresh p hp (mem_cons_of_mem tp hmem)
      · rw [((planPartitionCompaction_spec tp _ _).1 p hp).1]
        exact htp
  | planned => exact h.moveCompaction (fun _ _ hI => hI) hok.2.1
  | cycleDone => exact h.moveCompaction (fun _ _ hI => hI) trivial
  | skip hlen => exact h.moveCompaction (fun _ _ hI => hI) (Planned.tail hok)
  | execute hlen => exact h.moveCompaction (fun _ _ hI => hI) ⟨hok, hlen⟩
  | download hmerge => exact h.moveCompaction (fun _ _ hI => hI) ⟨hok.planned, hok.length⟩
  | downloadErr | mismatch | abortDownloading =>
    exact h.moveCompaction (fun _ _ hI => hI) hok.planned.tail
  | upload hend hupload =>
    obtain ⟨data, objects, -, rfl, rfl, -⟩ := uploadRecords_cases hupload
    exact h.moveCompaction (fun _ _ hI => hI) ⟨⟨hok.planned, hok.length⟩, rfl, rfl, rfl⟩
  | record => exact h.record
  | replace hreplace => exact h.replace hreplace
  | @replacePanic plan plans seg hreplace =>
    have hlt := hok.1.lt (h.cold_tiling _) hok.2.1
    have hsome := PartitionIndex.replaceCold_isSome s.index seg.topicPartition hlt.le
      seg.objectKey seg.sizeBytes
    rw [hreplace] at hsome
    cases hsome
  | delete =>
    exact h.moveCompaction (fun _ _ hI => hI)
      ⟨hok.1, fun key hkey => hok.2 key (mem_cons_of_mem _ hkey)⟩
  | planDone => exact h.moveCompaction (fun _ _ hI => hI) hok.1
  | abortUploaded => exact h.moveCompaction (fun _ _ hI => hI) hok.1.planned.tail

theorem restart {load : LoadResult} (h : Ranges manifest index tiering compaction)
    (hload : fold manifest = some load) (records : List WalRecord) :
    Ranges manifest (PartitionStore.indexHot cfg records (PartitionStore.indexCold load.live .new))
      .idle .idle := by
  have hcold : ∀ tp start range, ((PartitionStore.indexHot cfg records
        (PartitionStore.indexCold load.live .new)).cold tp).get? start = some range →
      (start, range.endOffset) ∈ liveExtents manifest tp ∧
        range.objectKey = objectKey tp start range.endOffset := by
    intro tp start range hget
    rw [cold_indexHot] at hget
    obtain ⟨seg, hseg, rfl, rfl, rfl⟩ := mem_cold_indexCold hget
    exact mem_liveExtents_of_mem_live hload h.live_keyed hseg
  have hsub : ∀ tp, coldExtents (PartitionStore.indexHot cfg records
      (PartitionStore.indexCold load.live .new)) tp ⊆ liveExtents manifest tp := by
    rintro tp ⟨start, stop⟩ ⟨range, hget, rfl⟩
    exact (hcold tp start range hget).1
  refine ⟨h.sound, h.live_keyed, h.live_tiling, fun tp start range hget => (hcold _ _ _ hget).2,
    fun tp => (h.live_tiling tp).subset (hsub tp), fun tp I hI => .inl (hsub tp hI), h.orphans,
    trivial, trivial⟩

end Ranges

/-! ## Whole runs -/

def Engine.Ranges (e : Engine) : Prop :=
  Store.Ranges e.store.manifest e.store.index e.tiering e.compaction

theorem Engine.Ranges.step {cfg : StoreConfig} {e e' : Engine} {label : Label} (h : e.Ranges)
    (hfits : RangeFits e label) (hstep : e.step cfg label = some e') : e'.Ranges := by
  cases Engine.step_cases hstep with
  | client hclient => exact Store.Ranges.client h hclient
  | tier htier => exact Store.Ranges.tierStep h (fun heq => by subst heq; exact hfits) htier
  | compact hcompact => exact Store.Ranges.compactStep h hcompact
  | restart hkept hload => exact Store.Ranges.restart h hload _

/-- **Recovery never collects a live object**, if tiering only registers and flips ranges that fit.
-/
theorem orphans_not_live (cfg : StoreConfig) (labels : List Label) (e : Engine)
    (hfits : Along (Engine.step cfg) RangeFits (.boot .empty) labels)
    (hexec : exec (Engine.step cfg) (.boot .empty) labels = some e) :
    ∃ load, fold e.store.manifest = some load ∧
      ∀ seg ∈ load.live, seg.objectKey ∉ load.orphanObjectKeys := by
  have hboot : (Engine.boot .empty).Ranges := Store.Ranges.empty
  have h : e.Ranges := exec_invariant (fun _ _ _ h hP => h.step hP) hboot hfits hexec
  obtain ⟨load, hload⟩ := fold_of_sound h.sound
  refine ⟨load, hload, ?_⟩
  intro seg hseg horphan
  obtain ⟨hlive, hkeyed⟩ := mem_liveExtents_of_mem_live hload h.live_keyed hseg
  rw [orphanObjectKeys_of_fold hload] at horphan
  obtain ⟨tp, I, hkey, hswallowed⟩ := h.orphans _ horphan
  -- the orphan's range is the segment's, and a swallowed range is not live
  obtain ⟨rfl, hstart, hend⟩ := objectKey_inj (hkeyed.symm.trans hkey)
  have hI : I = seg.extent := Prod.ext hstart.symm hend.symm
  exact (h.live_tiling _).not_mem_of_swallowed (hI ▸ hswallowed) hlive

def fencedConfig : StoreConfig := { plainConfig with fencing := true }

def appended (tp : TopicPartition) (offset : Nat) : List Label :=
  let r : WalRecord := ⟨tp, offset, ⟨none, [1], [], 0⟩, 0⟩
  [.client (.appendHot r), .client (.appendWal r .ok)]

/-- A cycle over the kept segment, which holds records of `a` and `b`: `a` is tiered, `b` fenced. -/
def keptSegment : List Label :=
  [.tier .start, .tier (.segment [⟨"a", 0⟩, ⟨"b", 0⟩]), .tier .advance, .tier .advance,
    .tier .advance, .tier .fence, .tier .advance]

/-- The second segment of a cycle, with one record of `a`, is tiered and deleted. -/
def lastSegment : List Label :=
  [.tier (.segment [⟨"a", 0⟩]), .tier .advance, .tier .advance, .tier .advance, .tier .advance,
    .tier .advance]

def sealOnce : List Label := [.tier .sealActive]

def cycleEnd : List Label := [.tier .advance]

/-- A plan of two sources: planning two partitions, download, upload, record, replace. -/
def replacedSources : List Label :=
  .compact (.start [⟨"a", 0⟩, ⟨"b", 0⟩]) :: List.replicate 9 (.compact .advance)

def deletedSources : List Label :=
  [.compact (.delete true), .compact (.delete true), .compact .advance, .compact .advance]

/-- `b` is fenced in both cycles, so the first segment is kept and its record of `a` tiered twice.
Then the two ranges of `a` are merged, up to the deletion of their objects. -/
def replacedBesideFenced : List Label :=
  appended ⟨"a", 0⟩ 0 ++ appended ⟨"b", 0⟩ 0 ++ sealOnce ++ keptSegment ++ cycleEnd ++
    appended ⟨"a", 0⟩ 1 ++ sealOnce ++ keptSegment ++ lastSegment ++ replacedSources

def mergedBesideFenced : List Label := replacedBesideFenced ++ deletedSources

theorem orphans_not_live_mergedBesideFenced :
    ∃ e, exec (Engine.step fencedConfig) (.boot .empty) mergedBesideFenced = some e ∧
      ∃ load, fold e.store.manifest = some load ∧
        ∀ seg ∈ load.live, seg.objectKey ∉ load.orphanObjectKeys := by
  have hsome : (exec (Engine.step fencedConfig) (.boot .empty) mergedBesideFenced).isSome = true :=
    by decide +kernel
  obtain ⟨e, he⟩ := Option.isSome_iff_exists.mp hsome
  exact ⟨e, he, orphans_not_live fencedConfig mergedBesideFenced e (by decide +kernel) he⟩

/-- The kept segment is tiered once more: a range whose key the merge made an orphan is registered
again. -/
theorem retiered_orphan_live :
    ((exec (Engine.step fencedConfig) (.boot .empty) (mergedBesideFenced ++ keptSegment)).bind
      fun e => fold e.store.manifest).any (fun load =>
        load.live.any fun seg => decide (seg.objectKey ∈ load.orphanObjectKeys)) = true := by
  decide +kernel

end RustMq.Store
