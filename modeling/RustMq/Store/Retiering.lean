import RustMq.Store.Recovery

/-!
# Tiering a segment again

A segment of the log is kept when one of its partitions is fenced, and the next cycle tiers all of
its groups once more. Then a range is written that may have been merged since. Here this is the only
way in which the cold ranges of a partition come to overlap, as long as appends come in order.

The ranges of the groups in the log do not overlap, and a range in one of the two catalogs is made
up of them: it has the range of a group as a part, or lies apart from it (`Nesting`). So a range
that the tiering task is about to write fits into the catalogs, unless it is part of a greater one.
-/

namespace RustMq.Store

open Lib Lib.Extent PartitionStore List

/-! ## What is assumed of a run -/

def catalog (s : PartitionStore) (tp : TopicPartition) : Set Extent :=
  liveExtents s.manifest tp ∪ coldExtents s.index tp

def InOrder (s : PartitionStore) (r : WalRecord) : Prop :=
  (∀ a ∈ walRecords s.wal, a.topicPartition = r.topicPartition → a.offset < r.offset) ∧
    ∀ I ∈ catalog s r.topicPartition, I.2 ≤ r.offset

variable {s : PartitionStore} {r : WalRecord}

theorem forall_mem_catalog_iff {tp : TopicPartition} {n : Nat} :
    (∀ I ∈ catalog s tp, I.2 ≤ n) ↔
      (∀ e ∈ ((foldState s.manifest).segments tp).entries, e.2.endOffset ≤ n) ∧
        ∀ e ∈ (s.index.cold tp).entries, e.2.endOffset ≤ n := by
  constructor
  · intro h
    exact ⟨forall_mem_intervals_iff.mp fun I hI => h I (.inl hI),
      forall_mem_intervals_iff.mp fun I hI => h I (.inr hI)⟩
  · rintro ⟨hlive, hcold⟩ I (hI | hI)
    · exact forall_mem_intervals_iff.mpr hlive I hI
    · exact forall_mem_intervals_iff.mpr hcold I hI

instance (s : PartitionStore) (r : WalRecord) : Decidable (InOrder s r) :=
  have : Decidable (∀ I ∈ catalog s r.topicPartition, I.2 ≤ r.offset) :=
    decidable_of_iff _ forall_mem_catalog_iff.symm
  inferInstanceAs (Decidable (_ ∧ _))

def AppendsInOrder (e : Engine) : Label → Prop
  | .client (.appendWal r .ok) | .client (.appendWal r (.fail true)) => InOrder e.store r
  | _ => True

instance (e : Engine) (label) : Decidable (AppendsInOrder e label) := by
  unfold AppendsInOrder
  split <;> infer_instance

/-- The range is not part of a greater one, neither in the manifest nor in the index. -/
def SegmentUnmerged (s : PartitionStore) (seg : ColdSegment) : Prop :=
  ¬ Swallowed (liveExtents s.manifest seg.topicPartition) seg.extent ∧
    ¬ Swallowed (coldExtents s.index seg.topicPartition) seg.extent

instance (s : PartitionStore) (seg : ColdSegment) : Decidable (SegmentUnmerged s seg) :=
  have : Decidable (Swallowed (liveExtents s.manifest seg.topicPartition) seg.extent) :=
    inferInstanceAs (Decidable (Swallowed (intervals _ _) _))
  have : Decidable (Swallowed (coldExtents s.index seg.topicPartition) seg.extent) :=
    inferInstanceAs (Decidable (Swallowed (intervals _ _) _))
  inferInstanceAs (Decidable (_ ∧ _))

def TierUnmerged (s : PartitionStore) : Tiering → Prop
  | .uploaded _ _ seg | .registered _ _ seg => SegmentUnmerged s seg
  | .idle | .cycle _ | .group _ _ | .panicked => True

instance (s : PartitionStore) (tiering) : Decidable (TierUnmerged s tiering) := by
  induction tiering using Tiering.casesOn <;> dsimp only [TierUnmerged] <;> infer_instance

/-- When the tiering task registers a range and when it flips it, the range has not been merged. -/
def Unmerged (e : Engine) : Label → Prop
  | .tier .advance => TierUnmerged e.store e.tiering
  | _ => True

instance (e : Engine) (label) : Decidable (Unmerged e label) := by
  induction label using Label.casesOn with
  | tier label =>
    induction label using TierLabel.casesOn <;> dsimp only [Unmerged] <;> infer_instance
  | _ => exact .isTrue trivial

/-! ## Groups of the log and ranges of the catalogs -/

/-- What is sealed or catalogued of the record's partition ends before the record. -/
def Behind (wal : Wal.Log WalRecord) (C : TopicPartition → Set Extent) (r : WalRecord) : Prop :=
  ∀ I ∈ C r.topicPartition ∪ walSpans wal r.topicPartition, I.2 ≤ r.offset

/-- The groups in the log do not overlap, each is nested in every range of the catalogs, and the
active segment lies behind all of them. -/
structure Nesting (wal : Wal.Log WalRecord) (C : TopicPartition → Set Extent) : Prop where
  spans : ∀ tp, Tiling (walSpans wal tp)
  nested : ∀ tp, ∀ I ∈ C tp, ∀ J ∈ walSpans wal tp, Nested J I
  increasing : ∀ tp, Increasing (recordsOf tp wal.active)
  behind : ∀ r ∈ wal.active, Behind wal C r

namespace Nesting

variable {wal wal' : Wal.Log WalRecord} {C C' : TopicPartition → Set Extent}

theorem empty (hC : ∀ tp, C tp = ∅) : Nesting .empty C where
  spans tp := by
    refine ⟨?_, ?_⟩
    · rintro I ⟨seq, xs, hget, -⟩
      cases hget
    · rintro I ⟨seq, xs, hget, -⟩
      cases hget
  nested tp I hI := by
    rw [hC] at hI
    cases hI
  increasing tp := Pairwise.nil
  behind r hr := nomatch hr

variable (h : Nesting wal C) {tp₀ : TopicPartition} {M : Extent}
include h

theorem of_log (hspans : ∀ tp, walSpans wal' tp ⊆ walSpans wal tp)
    (hactive : wal'.active.Sublist wal.active) : Nesting wal' C where
  spans tp := (h.spans tp).subset (hspans tp)
  nested tp I hI J hJ := h.nested tp I hI J (hspans tp hJ)
  increasing tp := (h.increasing tp).sublist (hactive.filter _)
  behind r hr I hI := h.behind r (hactive.subset hr) I (hI.imp_right fun hJ => hspans _ hJ)

theorem of_catalog (hnested : ∀ tp, ∀ I ∈ C' tp, ∀ J ∈ walSpans wal tp, Nested J I)
    (hends : ∀ tp, ∀ I ∈ C' tp, ∃ K ∈ C tp ∪ walSpans wal tp, I.2 ≤ K.2) : Nesting wal C' := by
  refine ⟨h.spans, hnested, h.increasing, fun r hr I hI => ?_⟩
  rcases hI with hI | hI
  · obtain ⟨K, hK, hle⟩ := hends _ I hI
    exact hle.trans (h.behind r hr K hK)
  · exact h.behind r hr I (.inr hI)

theorem insert (hM : M ∈ walSpans wal tp₀) (hC : ∀ tp, ∀ I ∈ C' tp, I ∈ C tp ∨ tp = tp₀ ∧ I = M) :
    Nesting wal C' := by
  refine h.of_catalog ?_ ?_
  · intro tp I hI J hJ
    rcases hC tp I hI with hI | ⟨rfl, rfl⟩
    · exact h.nested tp I hI J hJ
    · exact .of_apart ((h.spans tp).apart I hM J hJ)
  · intro tp I hI
    rcases hC tp I hI with hI | ⟨rfl, rfl⟩
    · exact ⟨I, .inl hI, le_rfl⟩
    · exact ⟨I, .inr hM, le_rfl⟩

theorem merge {l : List Extent} (hchain : Chain l M.1 M.2) (hne : l ≠ []) (hl : ∀ I ∈ l, I ∈ C tp₀)
    (hC : ∀ tp, ∀ I ∈ C' tp, I ∈ C tp ∨ tp = tp₀ ∧ I = M) : Nesting wal C' := by
  refine h.of_catalog ?_ ?_
  · intro tp I hI J hJ
    rcases hC tp I hI with hI | ⟨rfl, rfl⟩
    · exact h.nested tp I hI J hJ
    · exact hchain.nested hne ((h.spans tp).nonempty J hJ) fun K hK =>
        h.nested tp K (hl K hK) J hJ
  · intro tp I hI
    rcases hC tp I hI with hI | ⟨rfl, rfl⟩
    · exact ⟨I, .inl hI, le_rfl⟩
    · obtain ⟨K, hK, hend⟩ := hchain.last hne
      exact ⟨K, .inl (hl K hK), hend.ge⟩

theorem append (hbehind : Behind wal C r)
    (hnew : ∀ a ∈ wal.active, a.topicPartition = r.topicPartition → a.offset < r.offset) :
    Nesting (wal.append r) C := by
  refine ⟨h.spans, h.nested, fun tp => ?_, fun a ha => ?_⟩
  · show Increasing (recordsOf tp (wal.active ++ [r]))
    rw [recordsOf_append]
    by_cases htp : tp = r.topicPartition
    · rw [htp, recordsOf_singleton_self]
      refine (h.increasing _).concat fun a ha => ?_
      obtain ⟨ha, hatp⟩ := mem_recordsOf.mp ha
      exact hnew a ha hatp
    · rw [recordsOf_singleton_of_ne htp, append_nil]
      exact h.increasing tp
  · rcases mem_append.mp ha with ha | ha
    · exact h.behind a ha
    · rw [mem_singleton.mp ha]
      exact hbehind

theorem rotate : Nesting wal.rotate C := by
  have hcomp : ∀ tp, recordsOf tp wal.active ≠ [] →
      Compatible (C tp ∪ walSpans wal tp) (span (recordsOf tp wal.active)) := by
    intro tp hne
    refine (h.increasing tp).compatible_span hne fun I hI r hr => ?_
    obtain ⟨hin, rfl⟩ := mem_recordsOf.mp hr
    exact h.behind r hin I hI
  refine ⟨fun tp => ?_, fun tp I hI J hJ => ?_, fun tp => Pairwise.nil, fun r hr => (nomatch hr)⟩
  · by_cases hne : recordsOf tp wal.active = []
    · refine (h.spans tp).subset fun J hJ => ?_
      exact (mem_walSpans_rotate hJ).resolve_right fun hactive => hactive.1 hne
    · have hspans : Compatible (walSpans wal tp) (span (recordsOf tp wal.active)) :=
        ⟨(hcomp tp hne).1, fun J hJ => (hcomp tp hne).2 J (.inr hJ)⟩
      refine ((h.spans tp).insert hspans).subset fun J hJ => ?_
      rcases mem_walSpans_rotate hJ with hJ | ⟨-, rfl⟩
      · exact Set.mem_insert_of_mem _ hJ
      · exact Set.mem_insert _ _
  · rcases mem_walSpans_rotate hJ with hJ | ⟨hne, rfl⟩
    · exact h.nested tp I hI J hJ
    · exact .of_apart ((hcomp tp hne).2 I (.inl hI))

end Nesting

theorem walSpans_delete (wal : Wal.Log WalRecord) (seq : Nat) (tp : TopicPartition) :
    walSpans (wal.delete seq) tp ⊆ walSpans wal tp := by
  rintro J ⟨seq', xs, hxs, hne, rfl⟩
  exact ⟨seq', xs, SMap.of_get?_erase hxs, hne, rfl⟩

/-! ## One step -/

theorem catalog_congr {s' : PartitionStore} (hmanifest : s'.manifest = s.manifest)
    (hcold : ∀ tp, s'.index.cold tp = s.index.cold tp) : catalog s' = catalog s := by
  funext tp
  rw [catalog, catalog, hmanifest, coldExtents_congr hcold]

def GroupsIn (wal : Wal.Log WalRecord) (groups : List Group) : Prop :=
  ∀ g ∈ groups, span g.records ∈ walSpans wal g.topicPartition

def TierSpans (wal : Wal.Log WalRecord) : Tiering → Prop
  | .group _ groups => GroupsIn wal groups
  | .uploaded _ groups seg | .registered _ groups seg =>
    GroupsIn wal groups ∧ seg.extent ∈ walSpans wal seg.topicPartition
  | .idle | .cycle _ | .panicked => True

structure Engine.Nests (e : Engine) : Prop where
  ranges : e.Ranges
  nesting : Nesting e.store.wal (catalog e.store)
  tier : TierSpans e.store.wal e.tiering

namespace Engine.Nests

variable {cfg : StoreConfig} {e e' : Engine} {s' : PartitionStore}

theorem empty : (Engine.boot .empty).Nests where
  ranges := Store.Ranges.empty
  nesting := by
    refine .empty fun tp => ?_
    have hnone : coldExtents PartitionIndex.new tp = ∅ := intervals_empty
    show liveExtents [] tp ∪ coldExtents PartitionIndex.new tp = ∅
    rw [liveExtents_nil, hnone, Set.union_empty]
  tier := trivial

variable (h : e.Nests)
include h

theorem segmentFits {seg : ColdSegment}
    (hseg : seg.extent ∈ walSpans e.store.wal seg.topicPartition)
    (hunmerged : SegmentUnmerged e.store seg) : SegmentFits e.store seg := by
  have hlt := (h.nesting.spans _).nonempty _ hseg
  have hnested : ∀ I ∈ catalog e.store seg.topicPartition, Nested seg.extent I :=
    fun I hI => h.nesting.nested _ I hI _ hseg
  exact ⟨compatible_of_nested hlt (fun I hI => hnested I (.inl hI)) hunmerged.1,
    compatible_of_nested hlt (fun I hI => hnested I (.inr hI)) hunmerged.2⟩

theorem tierFits (hunmerged : TierUnmerged e.store e.tiering) : TierFits e.store e.tiering := by
  have htier := h.tier
  cases htiering : e.tiering with
  | uploaded | registered =>
    rw [htiering] at hunmerged htier
    exact h.segmentFits htier.2 hunmerged
  | idle | cycle | group | panicked => trivial

theorem nesting_append (hr : InOrder e.store r) :
    Nesting (e.store.wal.append r) (catalog e.store) := by
  refine h.nesting.append ?_ fun a ha => hr.1 a (mem_walRecords.mpr (.inr ha))
  rintro I (hI | ⟨seq, xs, hxs, hne, rfl⟩)
  · exact hr.2 I hI
  · obtain ⟨last, hlast, hend⟩ := span_end hne
    obtain ⟨hin, htp⟩ := mem_recordsOf.mp hlast
    rw [hend]
    exact hr.1 last (mem_walRecords.mpr (.inl ⟨seq, xs, hxs, hin⟩)) htp

theorem client {label : ClientLabel} {pending' : List WalRecord}
    (horder : AppendsInOrder e (.client label))
    (hstep : ClientStep cfg e.store e.pending label s' pending') :
    { e with store := s', pending := pending' }.Nests := by
  have hranges := Store.Ranges.client h.ranges hstep
  obtain ⟨hmanifest, -, hcold⟩ := hstep.frame
  have hcatalog : catalog s' = catalog e.store := catalog_congr hmanifest hcold
  suffices hlog : Nesting s'.wal (catalog e.store) ∧ TierSpans s'.wal e.tiering from
    ⟨hranges, hcatalog ▸ hlog.1, hlog.2⟩
  cases hstep with
  | appendHot | read | evict => exact ⟨h.nesting, h.tier⟩
  | @appendWal r outcome hr =>
    match outcome with
    | .ok | .fail true => exact ⟨h.nesting_append horder, h.tier⟩
    | .fail false => exact ⟨h.nesting, h.tier⟩
  | sync => exact ⟨h.nesting.of_log (fun tp => subset_rfl) (Sublist.refl _), h.tier⟩

theorem tierStep {label : TierLabel} {tiering' : Tiering} (hunmerged : Unmerged e (.tier label))
    (hstep : TierStep cfg e.store e.tiering label s' tiering') :
    { e with store := s', tiering := tiering' }.Nests := by
  have hfits : label = .advance → TierFits e.store e.tiering := by
    rintro rfl
    exact h.tierFits hunmerged
  have hranges : Store.Ranges s'.manifest s'.index tiering' e.compaction :=
    Store.Ranges.tierStep h.ranges hfits hstep
  have hnest := h.nesting
  have htier := h.tier
  have hold : e.Ranges := h.ranges
  obtain ⟨store, pending, tiering, compaction⟩ := e
  cases hstep with
  | sealActive => exact ⟨hranges, hnest.rotate, trivial⟩
  | sealFailed =>
    refine ⟨hranges, hnest.of_log ?_ (Sublist.refl _), trivial⟩
    rintro tp J ⟨seq, xs, hxs, hne, rfl⟩
    -- the file it leaves behind is empty
    rcases SMap.of_get?_insert hxs with ⟨-, rfl⟩ | ⟨-, hxs⟩
    · exact absurd rfl hne
    · exact ⟨seq, xs, hxs, hne, rfl⟩
  | start | cycleDone | flipPanic | retain | abortCycle | abortGroup | abortUploaded =>
    exact ⟨hranges, hnest, trivial⟩
  | reclaim | delete =>
    exact ⟨hranges, hnest.of_log (fun tp => walSpans_delete _ _ tp) (Sublist.refl _), trivial⟩
  | @segment seq seqs order records hget hne hperm =>
    refine ⟨hranges, hnest, fun g hg => ?_⟩
    have hkeeps : SegmentKeeps store.wal (fun _ => ∅) ⟨seq, seqs, false⟩ (groupsOf order records)
        none records := groupsOf_keeps hget hperm
    obtain ⟨hrecords, hne⟩ := hkeeps.ahead g hg
    rw [hrecords] at hne ⊢
    exact ⟨seq, records, hget, hne, rfl⟩
  | fenceBefore hfencing =>
    exact ⟨hranges, hnest, fun g hg => htier g (mem_cons_of_mem _ hg)⟩
  | fenceAfter hfencing => exact ⟨hranges, hnest, htier.1⟩
  | @upload task g groups s' segment hupload =>
    obtain ⟨data, objects, -, rfl, rfl, -⟩ := uploadRecords_cases hupload
    exact ⟨hranges, hnest, fun g' hg' => htier g' (mem_cons_of_mem _ hg'), htier g mem_cons_self⟩
  | @register task groups seg =>
    have hL := liveExtents_register (hold.live_tiling seg.topicPartition) (hfits rfl).1
    refine ⟨hranges, hnest.insert htier.2 ?_, htier⟩
    rintro tp I (hI | hI)
    · rw [hL] at hI
      split at hI
      · rename_i htp
        exact (Set.mem_insert_iff.mp hI).symm.imp .inl fun heq => ⟨htp, heq⟩
      · exact .inl (.inl hI)
    · exact .inl (.inr hI)
  | @flip task groups seg index hflip =>
    have hX := coldExtents_flipToCold hflip (hold.cold_tiling seg.topicPartition) (hfits rfl).2
    refine ⟨hranges, hnest.insert htier.2 ?_, htier.1⟩
    rintro tp I (hI | hI)
    · exact .inl (.inl hI)
    · change I ∈ coldExtents index tp at hI
      rw [hX] at hI
      split at hI
      · rename_i htp
        exact (Set.mem_insert_iff.mp hI).symm.imp .inr fun heq => ⟨htp, heq⟩
      · exact .inl (.inr hI)

theorem nesting_merge {plan : CompactionPlan} {plans : List CompactionPlan}
    (hexec : Executing (coldExtents e.store.index) plan plans) {C : TopicPartition → Set Extent}
    (hC : ∀ tp, ∀ I ∈ C tp, I ∈ catalog e.store tp ∨ tp = plan.topicPartition ∧ I = plan.extent) :
    Nesting e.store.wal C :=
  h.nesting.merge (hexec.planned.chain (h.ranges.cold_tiling _) hexec.length)
    (Planned.extents_ne_nil hexec.length)
    (fun I hI => .inr (hexec.planned.extents_mem I hI)) hC

theorem compactStep {label : CompactLabel} {compaction' : Compaction}
    (hstep : CompactStep cfg e.store e.compaction label s' compaction') :
    { e with store := s', compaction := compaction' }.Nests := by
  have hranges : Store.Ranges s'.manifest s'.index e.tiering compaction' :=
    Store.Ranges.compactStep h.ranges hstep
  have hnest := h.nesting
  have htier := h.tier
  have hok := h.ranges.compaction
  have hold := h
  obtain ⟨store, pending, tiering, compaction⟩ := e
  cases hstep with
  | @record plan plans seg =>
    obtain ⟨hL, -⟩ := hold.ranges.liveExtents_record
    refine ⟨hranges, hold.nesting_merge hok.1 ?_, htier⟩
    rintro tp I (hI | hI)
    · rw [hL] at hI
      split at hI
      · rename_i htp
        rcases hI with rfl | ⟨hI, -⟩
        · exact .inr ⟨htp, rfl⟩
        · exact .inl (.inl hI)
      · exact .inl (.inl hI)
    · exact .inl (.inr hI)
  | @replace plan plans seg index hreplace =>
    obtain ⟨hexec, hmerged, -⟩ := hok
    have hlt := hexec.lt (hold.ranges.cold_tiling _) hmerged
    refine ⟨hranges, hold.nesting_merge hexec ?_, htier⟩
    rintro tp I (hI | hI)
    · exact .inl (.inl hI)
    · change I ∈ coldExtents index tp at hI
      rw [coldExtents_replaceCold hreplace hlt, hmerged.topicPartition, hmerged.extent] at hI
      split at hI
      · rename_i htp
        rcases hI with rfl | ⟨hI, -⟩
        · exact .inr ⟨htp, rfl⟩
        · exact .inl (.inr hI)
      · exact .inl (.inr hI)
  | upload hend hupload =>
    obtain ⟨data, objects, -, rfl, rfl, -⟩ := uploadRecords_cases hupload
    exact ⟨hranges, hnest, htier⟩
  | start | plan | planned | cycleDone | skip | execute | download | downloadErr | mismatch
  | replacePanic | delete | planDone | abortDownloading | abortUploaded =>
    exact ⟨hranges, hnest, htier⟩

theorem restart (kept : Nat) (deleted : String → Bool) {load : LoadResult}
    (hload : fold e.store.manifest = some load) :
    (Engine.boot
      { wal := (crashed e.store.wal kept).rotate
        index := indexHot cfg (walRecords (crashed e.store.wal kept).rotate)
          (indexCold load.live .new)
        objects := collectOrphans load.orphanObjectKeys deleted e.store.objects
        cache := fun _ => none
        manifest := e.store.manifest }).Nests := by
  have hcrashed : Nesting (crashed e.store.wal kept) (catalog e.store) :=
    h.nesting.of_log (fun tp => subset_rfl) (take_sublist _ _)
  have hranges : Store.Ranges e.store.manifest (indexHot cfg
      (walRecords (crashed e.store.wal kept).rotate) (indexCold load.live .new)) .idle .idle :=
    Store.Ranges.restart h.ranges hload _
  have hsub : ∀ tp I, I ∈ liveExtents e.store.manifest tp ∪
      coldExtents (indexHot cfg (walRecords (crashed e.store.wal kept).rotate)
        (indexCold load.live .new)) tp → I ∈ catalog e.store tp := by
    rintro tp I (hI | hI)
    · exact .inl hI
    · exact .inl ((hranges.cold_live tp I hI).resolve_right id)
  refine ⟨hranges, hcrashed.rotate.of_catalog ?_ ?_, trivial⟩
  · exact fun tp I hI => hcrashed.rotate.nested tp I (hsub tp I hI)
  · exact fun tp I hI => ⟨I, .inl (hsub tp I hI), le_rfl⟩

theorem step {label : Label} (horder : AppendsInOrder e label) (hunmerged : Unmerged e label)
    (hstep : e.step cfg label = some e') : e'.Nests := by
  cases Engine.step_cases hstep with
  | client hclient => exact h.client horder hclient
  | tier htier => exact h.tierStep hunmerged htier
  | compact hcompact => exact h.compactStep hcompact
  | @restart kept deleted load hkept hload => exact h.restart kept deleted hload

end Engine.Nests

/-- **Cold ranges are disjoint** where appends come in order and tiering registers and flips no
range that a merge has taken in. -/
theorem cold_ranges_disjoint (cfg : StoreConfig) (labels : List Label) (e : Engine)
    (horder : Along (Engine.step cfg) AppendsInOrder (.boot .empty) labels)
    (hunmerged : Along (Engine.step cfg) Unmerged (.boot .empty) labels)
    (hexec : exec (Engine.step cfg) (.boot .empty) labels = some e) (tp : TopicPartition)
    (start start' : Nat) (range range' : ObjectRange)
    (hget : (e.store.index.cold tp).get? start = some range)
    (hget' : (e.store.index.cold tp).get? start' = some range') (hne : start ≠ start') :
    range.endOffset ≤ start' ∨ range'.endOffset ≤ start := by
  have hnests : e.Nests := exec_invariant
    (fun _ _ _ h hP hstep => h.step hP.1 hP.2 hstep) Engine.Nests.empty (horder.and hunmerged) hexec
  have hmem : (start, range.endOffset) ∈ coldExtents e.store.index tp := ⟨range, hget, rfl⟩
  have hmem' : (start', range'.endOffset) ∈ coldExtents e.store.index tp := ⟨range', hget', rfl⟩
  have htiling := hnests.ranges.cold_tiling tp
  exact (htiling.apart _ hmem _ hmem').resolve_left fun heq => hne (congrArg Prod.fst heq)

def firstSegment : List Label :=
  [.tier (.segment [⟨"a", 0⟩]), .tier .advance, .tier .advance, .tier .advance, .tier .advance]

/-- The next segment of a cycle holds records of `a` and `b`: `a` is tiered, `b` fenced. -/
def keptAgain : List Label :=
  [.tier (.segment [⟨"a", 0⟩, ⟨"b", 0⟩]), .tier .advance, .tier .advance, .tier .advance,
    .tier .fence, .tier .advance]

/-- The first segment holds the first record of `a`. The second, with the next record of `a` and one
of `b`, is kept because `b` is fenced. -/
def tieredBesideFenced : List Label :=
  appended ⟨"a", 0⟩ 0 ++ sealOnce ++ appended ⟨"a", 0⟩ 1 ++ appended ⟨"b", 0⟩ 0 ++ sealOnce ++
    [.tier .start] ++ firstSegment ++ keptAgain ++ cycleEnd

def tieredAgain : List Label :=
  tieredBesideFenced ++ [.tier .start] ++ keptAgain ++ cycleEnd

theorem cold_ranges_disjoint_tieredAgain :
    ∃ e range range', exec (Engine.step fencedConfig) (.boot .empty) tieredAgain = some e ∧
      (e.store.index.cold ⟨"a", 0⟩).get? 0 = some range ∧
      (e.store.index.cold ⟨"a", 0⟩).get? 1 = some range' ∧
      (range.endOffset ≤ 1 ∨ range'.endOffset ≤ 0) := by
  have hsome : ((exec (Engine.step fencedConfig) (.boot .empty) tieredAgain).bind fun e =>
      ((e.store.index.cold ⟨"a", 0⟩).get? 0).bind fun range =>
        ((e.store.index.cold ⟨"a", 0⟩).get? 1).map fun range' => (range, range')).isSome = true := by
    decide +kernel
  obtain ⟨ranges, hranges⟩ := Option.isSome_iff_exists.mp hsome
  obtain ⟨e, he, hranges⟩ := Option.bind_eq_some_iff.mp hranges
  obtain ⟨range, hget, hranges⟩ := Option.bind_eq_some_iff.mp hranges
  obtain ⟨range', hget', -⟩ := Option.map_eq_some_iff.mp hranges
  exact ⟨e, range, range', he, hget, hget', cold_ranges_disjoint fencedConfig tieredAgain e
    (by decide +kernel) (by decide +kernel) he ⟨"a", 0⟩ 0 1 range range' hget hget' (by decide)⟩

/-- The kept segment is tiered once more: its range is put beside the merged one that covers it. -/
theorem retiered_range_overlaps : ((exec (Engine.step fencedConfig) (.boot .empty)
      (tieredBesideFenced ++ replacedSources ++ deletedSources ++ [.tier .start] ++ keptAgain)).map
        fun e => (e.store.index.getColdSegments ⟨"a", 0⟩).map ColdSegment.extent) =
      some [(0, 2), (1, 2)] := by
  decide +kernel

end RustMq.Store
