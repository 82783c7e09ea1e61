import RustMq.Store.Presence
import RustMq.Store.SegmentFiles

/-!
# Crash recovery

`new_with_fencing` rebuilds the index from what a crash leaves: the log, the manifest and the
objects. A record that was acknowledged is then readable if one of two places has it, and this is
what `Durable` says of every state: the record is in the log, or it lies in a live range whose
object has exactly the acknowledged records of that range.

It needs appends that come in order, one at a time for each partition, and uploads that are stored
whole. And reading an object back needs its key to parse, which it does not for a topic with a
slash in its name (`slash_unreadable`).
-/

namespace RustMq.Store

open Lib Lib.Extent PartitionStore List

/-! ## Runs of records -/

def Increasing (recs : List WalRecord) : Prop := recs.Pairwise fun a b => a.offset < b.offset

/-- The range `tier_segment` gives a group. -/
def span (recs : List WalRecord) : Extent := (groupStart recs, groupEnd recs)

variable {recs xs : List WalRecord} {r : WalRecord} {tp : TopicPartition} {wal : Wal.Log WalRecord}
  {records : List WalRecord} {I : Extent} {seq : Nat} {L : TopicPartition → Set Extent}
  {cfg : StoreConfig} {acked : List WalRecord} {manifest : List ManifestRecord} {objects : Objects}
  {load : LoadResult}

theorem Increasing.eq_of_offset (h : Increasing recs) {r' : WalRecord} (hr : r ∈ recs)
    (hr' : r' ∈ recs) (heq : r.offset = r'.offset) : r = r' := by
  have hnodup : (recs.map WalRecord.offset).Nodup := pairwise_map.mpr (h.imp ne_of_lt)
  exact inj_on_of_nodup_map hnodup hr hr' heq

/-- What lies in front of an offset comes first. -/
theorem Increasing.filter_lt_append (h : Increasing recs) (b : Nat) :
    recs.filter (fun a => a.offset < b) ++ recs.filter (fun a => b ≤ a.offset) = recs := by
  induction recs with
  | nil => rfl
  | cons x recs ih =>
    obtain ⟨hx, hrest⟩ := pairwise_cons.mp h
    rcases Nat.lt_or_ge x.offset b with hlt | hle
    · rw [filter_cons_of_pos (by simpa using hlt), filter_cons_of_neg (by simpa using hlt),
        cons_append, ih hrest]
    · have hall : ∀ a ∈ x :: recs, b ≤ a.offset :=
        forall_mem_cons.mpr ⟨hle, fun a ha => hle.trans (hx a ha).le⟩
      rw [filter_eq_nil_iff.mpr fun a ha => by simpa using hall a ha,
        filter_eq_self.mpr fun a ha => decide_eq_true (hall a ha), nil_append]

theorem Increasing.concat (h : Increasing recs) (hr : ∀ a ∈ recs, a.offset < r.offset) :
    Increasing (recs ++ [r]) := by
  refine pairwise_append.mpr ⟨h, pairwise_singleton _ _, ?_⟩
  intro a ha b hb
  rw [mem_singleton.mp hb]
  exact hr a ha

theorem mem_recordsOf : r ∈ recordsOf tp records ↔ r ∈ records ∧ r.topicPartition = tp := by
  unfold recordsOf
  rw [mem_filter, decide_eq_true_eq]

theorem span_start (hne : recs ≠ []) : ∃ r ∈ recs, (span recs).1 = r.offset := by
  cases recs with
  | nil => exact absurd rfl hne
  | cons r recs => exact ⟨r, mem_cons_self, rfl⟩

theorem span_end (hne : recs ≠ []) : ∃ r ∈ recs, (span recs).2 = r.offset + 1 := by
  refine ⟨recs.getLast hne, getLast_mem hne, ?_⟩
  show groupEnd recs = _
  rw [groupEnd, getLast?_eq_some_getLast hne]
  rfl

theorem Increasing.mem_span (h : Increasing recs) (hr : r ∈ recs) :
    Contains (span recs) r.offset := by
  have hne := ne_nil_of_mem hr
  refine ⟨?_, ?_⟩
  · cases recs with
    | nil => cases hr
    | cons first recs =>
      rcases mem_cons.mp hr with rfl | hr
      · exact le_rfl
      · exact ((pairwise_cons.mp h).1 r hr).le
  · show r.offset < groupEnd recs
    rw [groupEnd, getLast?_eq_some_getLast hne]
    show r.offset < (recs.getLast hne).offset + 1
    rw [Increasing, ← dropLast_append_getLast hne] at h
    rw [← dropLast_append_getLast hne] at hr
    rcases mem_append.mp hr with hr | hr
    · have := (pairwise_append.mp h).2.2 r hr _ (mem_singleton_self _)
      omega
    · rw [mem_singleton.mp hr]
      exact Nat.lt_succ_self _

structure Content (acked : List WalRecord) (tp : TopicPartition) (I : Extent)
    (recs : List WalRecord) : Prop where
  increasing : Increasing recs
  mem : ∀ r, r ∈ recs ↔ r ∈ acked ∧ r.topicPartition = tp ∧ Contains I r.offset

theorem Content.concat (h : Content acked tp I recs) (hr : r.topicPartition = tp → I.2 ≤ r.offset) :
    Content (acked ++ [r]) tp I recs := by
  refine ⟨h.increasing, fun a => ?_⟩
  rw [h.mem, mem_append, mem_singleton]
  constructor
  · rintro ⟨ha, hrest⟩
    exact ⟨.inl ha, hrest⟩
  · rintro ⟨ha | rfl, htp, hin⟩
    · exact ⟨ha, htp, hin⟩
    · exact absurd hin.2 (not_lt.mpr (hr htp))

/-! ## What is durable -/

def walSpans (wal : Wal.Log WalRecord) (tp : TopicPartition) : Set Extent :=
  {I | ∃ seq xs, wal.sealedSegs.get? seq = some xs ∧ recordsOf tp xs ≠ [] ∧
    I = span (recordsOf tp xs)}

def settled (wal : Wal.Log WalRecord) (manifest : List ManifestRecord) (tp : TopicPartition) :
    Set Extent :=
  liveExtents manifest tp ∪ walSpans wal tp

/-- The object of the range has the records. -/
def StoredAs (cfg : StoreConfig) (objects : Objects) (tp : TopicPartition) (I : Extent)
    (recs : List WalRecord) : Prop :=
  ∃ data, serializeRecords recs = .ok data ∧
    objects (objectKey tp I.1 I.2) = some (dataWithCrc cfg.storage data)

structure Durable (cfg : StoreConfig) (acked : List WalRecord) (wal : Wal.Log WalRecord)
    (manifest : List ManifestRecord) (objects : Objects) : Prop where
  increasing : ∀ tp, Increasing (recordsOf tp acked)
  tiling : ∀ tp, Tiling (settled wal manifest tp)
  /-- Every range ends behind an acknowledged record. -/
  ends : ∀ tp, ∀ I ∈ settled wal manifest tp, ∃ r ∈ acked, r.topicPartition = tp ∧
    I.2 = r.offset + 1
  stored : ∀ tp, ∀ I ∈ liveExtents manifest tp, ∃ recs, Content acked tp I recs ∧
    StoredAs cfg objects tp I recs
  groups : ∀ seq xs, wal.sealedSegs.get? seq = some xs → ∀ tp, recordsOf tp xs ≠ [] →
    Content acked tp (span (recordsOf tp xs)) (recordsOf tp xs)
  active : ∀ r ∈ wal.active, r ∈ acked
  active_increasing : ∀ tp, Increasing (recordsOf tp wal.active)
  /-- The active segment lies behind everything that is settled. -/
  behind : ∀ tp, ∀ I ∈ settled wal manifest tp, ∀ r ∈ wal.active, r.topicPartition = tp →
    I.2 ≤ r.offset
  kept : ∀ r ∈ acked, r ∈ wal.active ∨
    ∃ I ∈ settled wal manifest r.topicPartition, Contains I r.offset
  live_keyed : LiveKeyed manifest
  sound : ∀ r ∈ manifest, r.reversed = false
  /-- Without compaction there are no orphans. -/
  collected : (foldState manifest).orphanObjectKeys = []

theorem ne_nil_of_recordsOf (hne : recordsOf tp xs ≠ []) : xs ≠ [] := by
  rintro rfl
  exact hne rfl

theorem get?_rotate (hget : wal.rotate.sealedSegs.get? seq = some xs) :
    xs = wal.active ∨ wal.sealedSegs.get? seq = some xs := by
  rcases SMap.of_get?_insert hget with ⟨-, hxs⟩ | ⟨-, hget⟩
  · exact .inl hxs
  · exact .inr (SMap.of_get?_erase hget)

theorem mem_walSpans_rotate (hI : I ∈ walSpans wal.rotate tp) :
    I ∈ walSpans wal tp ∨ recordsOf tp wal.active ≠ [] ∧ I = span (recordsOf tp wal.active) := by
  obtain ⟨seq, xs, hxs, hne, rfl⟩ := hI
  rcases get?_rotate hxs with rfl | hxs
  · exact .inr ⟨hne, rfl⟩
  · exact .inl ⟨seq, xs, hxs, hne, rfl⟩

theorem Increasing.compatible_span {T : Set Extent} (h : Increasing recs) (hne : recs ≠ [])
    (hbehind : ∀ I ∈ T, ∀ r ∈ recs, I.2 ≤ r.offset) : Compatible T (span recs) := by
  obtain ⟨first, hfirst, hstart⟩ := span_start hne
  have hin := h.mem_span hfirst
  refine ⟨hin.1.trans_lt hin.2, fun I hI => .inr (.inl ?_)⟩
  rw [hstart]
  exact hbehind I hI first hfirst

namespace Durable

variable {wal' : Wal.Log WalRecord} {objects' : Objects}

theorem empty : Durable cfg [] .empty [] (fun _ => none) := by
  have hnone : ∀ tp, settled .empty [] tp = ∅ := by
    intro tp
    refine Set.eq_empty_of_forall_notMem fun I hI => ?_
    rcases hI with hI | ⟨seq, xs, hget, -⟩
    · rw [liveExtents_nil] at hI
      cases hI
    · cases hget
  refine ⟨fun tp => Pairwise.nil, fun tp => ?_, fun tp I hI => ?_, fun tp I hI => ?_,
    fun seq xs hget => (nomatch hget), fun r hr => (nomatch hr), fun tp => Pairwise.nil,
    fun tp I hI r hr => (nomatch hr), fun r hr => (nomatch hr),
    fun tp start seg hget => (nomatch hget), fun r hr => (nomatch hr), rfl⟩
  · rw [hnone]
    exact ⟨fun I hI => (nomatch hI), fun I hI => (nomatch hI)⟩
  · rw [hnone] at hI
    cases hI
  · rw [liveExtents_nil] at hI
    cases hI

variable (h : Durable cfg acked wal manifest objects)
include h

theorem append (hr : ∀ a ∈ acked, a.topicPartition = r.topicPartition → a.offset < r.offset) :
    Durable cfg (acked ++ [r]) (wal.append r) manifest objects := by
  have hbehind : ∀ tp, ∀ I ∈ settled wal manifest tp, r.topicPartition = tp → I.2 ≤ r.offset := by
    intro tp I hI htp
    obtain ⟨a, ha, hatp, hend⟩ := h.ends tp I hI
    rw [hend]
    exact hr a ha (hatp.trans htp.symm)
  have hconcat : ∀ {xs : List WalRecord}, (∀ a ∈ xs, a ∈ acked) →
      ∀ tp, Increasing (recordsOf tp xs) → Increasing (recordsOf tp (xs ++ [r])) := by
    intro xs hxs tp hinc
    rw [recordsOf_append]
    by_cases htp : tp = r.topicPartition
    · rw [htp, recordsOf_singleton_self]
      refine (htp ▸ hinc).concat fun a ha => ?_
      obtain ⟨ha, hatp⟩ := mem_recordsOf.mp ha
      exact hr a (hxs a ha) hatp
    · rw [recordsOf_singleton_of_ne htp, append_nil]
      exact hinc
  refine ⟨fun tp => hconcat (fun _ ha => ha) tp (h.increasing tp), h.tiling, ?_, ?_, ?_, ?_,
    fun tp => hconcat h.active tp (h.active_increasing tp), ?_, ?_, h.live_keyed, h.sound,
    h.collected⟩
  · intro tp I hI
    obtain ⟨a, ha, hrest⟩ := h.ends tp I hI
    exact ⟨a, mem_append_left _ ha, hrest⟩
  · intro tp I hI
    obtain ⟨recs, hcontent, hstored⟩ := h.stored tp I hI
    exact ⟨recs, hcontent.concat (hbehind tp I (.inl hI)), hstored⟩
  · intro seq xs hget tp hne
    exact (h.groups seq xs hget tp hne).concat (hbehind tp _ (.inr ⟨seq, xs, hget, hne, rfl⟩))
  · intro a ha
    rcases mem_append.mp ha with ha | ha
    · exact mem_append_left _ (h.active a ha)
    · exact mem_append_right _ ha
  · intro tp I hI a ha htp
    rcases mem_append.mp ha with ha | ha
    · exact h.behind tp I hI a ha htp
    · rw [mem_singleton.mp ha] at htp ⊢
      exact hbehind tp I hI htp
  · intro a ha
    rcases mem_append.mp ha with ha | ha
    · exact (h.kept a ha).imp_left fun hin => mem_append_left _ hin
    · exact .inl (mem_append_right _ ha)

theorem of_segments (hsealed : ∀ seq xs, xs ≠ [] →
      (wal'.sealedSegs.get? seq = some xs ↔ wal.sealedSegs.get? seq = some xs))
    (hactive : wal'.active = wal.active) : Durable cfg acked wal' manifest objects := by
  have hspans : ∀ tp, walSpans wal' tp = walSpans wal tp := by
    intro tp
    ext I
    constructor
    · rintro ⟨seq, xs, hget, hne, hI⟩
      exact ⟨seq, xs, (hsealed seq xs (ne_nil_of_recordsOf hne)).mp hget, hne, hI⟩
    · rintro ⟨seq, xs, hget, hne, hI⟩
      exact ⟨seq, xs, (hsealed seq xs (ne_nil_of_recordsOf hne)).mpr hget, hne, hI⟩
  have hsettled : settled wal' manifest = settled wal manifest := by
    funext tp
    rw [settled, settled, hspans]
  refine ⟨h.increasing, ?_, ?_, h.stored, ?_, ?_, ?_, ?_, ?_, h.live_keyed, h.sound, h.collected⟩
  · rw [hsettled]
    exact h.tiling
  · rw [hsettled]
    exact h.ends
  · intro seq xs hget tp hne
    exact h.groups seq xs ((hsealed seq xs (ne_nil_of_recordsOf hne)).mp hget) tp hne
  · rw [hactive]
    exact h.active
  · rw [hactive]
    exact h.active_increasing
  · rw [hsettled, hactive]
    exact h.behind
  · rw [hsettled, hactive]
    exact h.kept

theorem content_active (hne : recordsOf tp wal.active ≠ []) :
    Content acked tp (span (recordsOf tp wal.active)) (recordsOf tp wal.active) := by
  refine ⟨h.active_increasing tp, fun r => ⟨fun hr => ?_, fun ⟨hr, htp, hin⟩ => ?_⟩⟩
  · obtain ⟨hactive, htp⟩ := mem_recordsOf.mp hr
    exact ⟨h.active r hactive, htp, (h.active_increasing tp).mem_span hr⟩
  · rcases h.kept r hr with hactive | ⟨I, hI, hcontains⟩
    · exact mem_recordsOf.mpr ⟨hactive, htp⟩
    · -- a settled range ends before the first active record
      obtain ⟨first, hfirst, hstart⟩ := span_start hne
      obtain ⟨hfirst, hfirsttp⟩ := mem_recordsOf.mp hfirst
      rw [htp] at hI
      have hle := h.behind tp I hI first hfirst hfirsttp
      have := hin.1
      have := hcontains.2
      omega

theorem rotate : Durable cfg acked wal.rotate manifest objects := by
  have hold : ∀ seq xs, xs ≠ [] → wal.sealedSegs.get? seq = some xs →
      wal.rotate.sealedSegs.get? seq = some xs := by
    intro seq xs hne hget
    show ((wal.sealedSegs.erase _).insert _ _).get? seq = some xs
    have hlt := (wal.bound seq xs hget).resolve_right fun hspill => hne hspill.2
    rw [SMap.get?_insert, SMap.get?_erase, if_neg (by omega), if_neg (by omega)]
    exact hget
  have hnew : wal.rotate.sealedSegs.get? wal.activeSeq = some wal.active := by
    show ((wal.sealedSegs.erase _).insert _ _).get? _ = _
    rw [SMap.get?_insert_self]
  have hspans : ∀ tp, ∀ I ∈ settled wal.rotate manifest tp, I ∈ settled wal manifest tp ∨
      recordsOf tp wal.active ≠ [] ∧ I = span (recordsOf tp wal.active) := by
    rintro tp I (hI | hI)
    · exact .inl (.inl hI)
    · exact (mem_walSpans_rotate hI).imp_left .inr
  have hsub : ∀ tp, settled wal manifest tp ⊆ settled wal.rotate manifest tp := by
    rintro tp I (hI | ⟨seq, xs, hxs, hne, rfl⟩)
    · exact .inl hI
    · exact .inr ⟨seq, xs, hold seq xs (ne_nil_of_recordsOf hne) hxs, hne, rfl⟩
  refine ⟨h.increasing, fun tp => ?_, ?_, h.stored, ?_, fun r hr => (nomatch hr),
    fun tp => Pairwise.nil, fun tp I hI r hr => (nomatch hr), ?_, h.live_keyed, h.sound,
    h.collected⟩
  · by_cases hne : recordsOf tp wal.active = []
    · refine (h.tiling tp).subset fun I hI => ?_
      exact (hspans tp I hI).resolve_right fun hactive => hactive.1 hne
    · have hcomp : Compatible (settled wal manifest tp) (span (recordsOf tp wal.active)) := by
        refine (h.active_increasing tp).compatible_span hne fun J hJ r hr => ?_
        obtain ⟨hr, htp⟩ := mem_recordsOf.mp hr
        exact h.behind tp J hJ r hr htp
      refine ((h.tiling tp).insert hcomp).subset fun I hI => ?_
      rcases hspans tp I hI with hI | ⟨-, rfl⟩
      · exact Set.mem_insert_of_mem _ hI
      · exact Set.mem_insert _ _
  · intro tp I hI
    rcases hspans tp I hI with hI | ⟨hne, rfl⟩
    · exact h.ends tp I hI
    · obtain ⟨last, hlast, hend⟩ := span_end hne
      obtain ⟨hlast, htp⟩ := mem_recordsOf.mp hlast
      exact ⟨last, h.active last hlast, htp, hend⟩
  · intro seq xs hxs tp hne
    rcases get?_rotate hxs with rfl | hxs
    · exact h.content_active hne
    · exact h.groups seq xs hxs tp hne
  · intro r hr
    right
    rcases h.kept r hr with hactive | ⟨I, hI, hin⟩
    · have hrec : r ∈ recordsOf r.topicPartition wal.active := mem_recordsOf.mpr ⟨hactive, rfl⟩
      exact ⟨_, .inr ⟨_, _, hnew, ne_nil_of_mem hrec, rfl⟩, (h.active_increasing _).mem_span hrec⟩
    · exact ⟨I, hsub _ hI, hin⟩

theorem delete (hlive : ∀ xs, wal.sealedSegs.get? seq = some xs → ∀ tp, recordsOf tp xs ≠ [] →
      span (recordsOf tp xs) ∈ liveExtents manifest tp) :
    Durable cfg acked (wal.delete seq) manifest objects := by
  have hget : ∀ seq' xs, (wal.delete seq).sealedSegs.get? seq' = some xs →
      wal.sealedSegs.get? seq' = some xs := by
    intro seq' xs hget
    exact SMap.of_get?_erase hget
  have hsettled' : settled (wal.delete seq) manifest = settled wal manifest := by
    funext tp
    refine Set.Subset.antisymm ?_ ?_
    · rintro I (hI | ⟨seq', xs, hxs, hrest⟩)
      · exact .inl hI
      · exact .inr ⟨seq', xs, hget seq' xs hxs, hrest⟩
    · rintro I (hI | ⟨seq', xs, hxs, hne, rfl⟩)
      · exact .inl hI
      · by_cases hseq : seq' = seq
        · subst hseq
          exact .inl (hlive xs hxs tp hne)
        · refine .inr ⟨seq', xs, ?_, hne, rfl⟩
          show (wal.sealedSegs.erase seq).get? seq' = some xs
          rw [SMap.get?_erase, if_neg hseq]
          exact hxs
  refine ⟨h.increasing, ?_, ?_, h.stored, fun seq' xs hxs => h.groups seq' xs (hget seq' xs hxs),
    h.active, h.active_increasing, ?_, ?_, h.live_keyed, h.sound, h.collected⟩
  · rw [hsettled']
    exact h.tiling
  · rw [hsettled']
    exact h.ends
  · rw [hsettled']
    exact h.behind
  · rw [hsettled']
    exact h.kept

theorem upload (hget : wal.sealedSegs.get? seq = some xs) (hne : recordsOf tp xs ≠ [])
    (hown : StoredAs cfg objects' tp (span (recordsOf tp xs)) (recordsOf tp xs))
    (hother : ∀ tp' I, ¬ (tp' = tp ∧ I = span (recordsOf tp xs)) →
      objects' (objectKey tp' I.1 I.2) = objects (objectKey tp' I.1 I.2)) :
    Durable cfg acked wal manifest objects' := by
  refine { h with stored := ?_ }
  intro tp' I hI
  by_cases hsame : tp' = tp ∧ I = span (recordsOf tp xs)
  · obtain ⟨rfl, rfl⟩ := hsame
    exact ⟨_, h.groups seq xs hget tp' hne, hown⟩
  · obtain ⟨recs, hcontent, data, hdata, hobject⟩ := h.stored tp' I hI
    exact ⟨recs, hcontent, data, hdata, (hother tp' I hsame).trans hobject⟩

theorem register {seg : ColdSegment} (hget : wal.sealedSegs.get? seq = some xs)
    (hne : recordsOf seg.topicPartition xs ≠ [])
    (hextent : seg.extent = span (recordsOf seg.topicPartition xs)) (hkeyed : seg.Keyed)
    (hstored : StoredAs cfg objects seg.topicPartition seg.extent
      (recordsOf seg.topicPartition xs)) :
    Durable cfg acked wal (manifest ++ [.register seg]) objects ∧
      ∀ tp, liveExtents (manifest ++ [.register seg]) tp =
        if tp = seg.topicPartition then insert seg.extent (liveExtents manifest tp)
        else liveExtents manifest tp := by
  have hspan : seg.extent ∈ settled wal manifest seg.topicPartition :=
    .inr ⟨seq, xs, hget, hne, hextent⟩
  have hlive : Tiling (liveExtents manifest seg.topicPartition) :=
    (h.tiling _).subset Set.subset_union_left
  have hcomp : Compatible (liveExtents manifest seg.topicPartition) seg.extent := by
    obtain ⟨hlt, hall⟩ := (h.tiling _).mem_compatible hspan
    exact ⟨hlt, fun J hJ => hall J (.inl hJ)⟩
  have hL := liveExtents_register hlive hcomp
  have hsettled' : settled wal (manifest ++ [.register seg]) = settled wal manifest := by
    funext tp
    rw [settled, hL]
    split
    · rename_i htp
      rw [Set.insert_union, Set.insert_eq_of_mem]
      · rfl
      · rw [htp]
        exact hspan
    · rfl
  refine ⟨⟨h.increasing, ?_, ?_, ?_, h.groups, h.active, h.active_increasing, ?_, ?_,
    h.live_keyed.register hkeyed, ?_, ?_⟩, hL⟩
  · rw [hsettled']
    exact h.tiling
  · rw [hsettled']
    exact h.ends
  · exact forall_of_insert hL ⟨_, hextent ▸ h.groups seq xs hget _ hne, hstored⟩ h.stored
  · rw [hsettled']
    exact h.behind
  · rw [hsettled']
    exact h.kept
  · exact forall_mem_append.mpr ⟨h.sound, forall_mem_singleton.mpr rfl⟩
  · rw [foldState_append]
    exact h.collected

end Durable

/-! ## What recovery rebuilds -/

theorem mem_walRecords : r ∈ walRecords wal ↔
      (∃ seq xs, wal.sealedSegs.get? seq = some xs ∧ r ∈ xs) ∨ r ∈ wal.active := by
  unfold walRecords
  rw [mem_append, mem_flatMap]
  refine or_congr_left ⟨?_, ?_⟩
  · rintro ⟨⟨seq, xs⟩, hmem, hr⟩
    exact ⟨seq, xs, SMap.get?_eq_some_iff.mpr hmem, hr⟩
  · rintro ⟨seq, xs, hget, hr⟩
    exact ⟨(seq, xs), SMap.get?_eq_some_iff.mp hget, hr⟩

section index

variable {index : PartitionIndex}

theorem get?_hot_indexHot (records : List WalRecord) (index : PartitionIndex) (k : Nat) :
    ((indexHot cfg records index).hot tp).get? k =
      (records.reverse.findSome? fun r => if tp = r.topicPartition ∧ k = r.offset then
        some ⟨r, memSize cfg r⟩ else none).or ((index.hot tp).get? k) := by
  refine view_foldl (fun index => (index.hot tp).get? k) _ (fun index r => ?_) records index
  rw [PartitionIndex.get?_hot_insertHot]
  split
  · rfl
  · rfl

theorem hot_indexHot {k : Nat} {e : HotEntry}
    (h : ((indexHot cfg records index).hot tp).get? k = some e) :
    (∃ r ∈ records, r.topicPartition = tp ∧ r.offset = k ∧ e.record = r) ∨
      (index.hot tp).get? k = some e := by
  rw [get?_hot_indexHot] at h
  rcases Option.or_eq_some_iff.mp h with hfound | ⟨-, hget⟩
  · obtain ⟨r, hr, hhit⟩ := exists_of_findSome?_eq_some hfound
    obtain ⟨⟨htp, hk⟩, hentry⟩ := Option.ite_none_right_eq_some.mp hhit
    cases hentry
    exact .inl ⟨r, mem_reverse.mp hr, htp.symm, hk.symm, rfl⟩
  · exact .inr hget

theorem hot_indexHot_isSome (hr : r ∈ records) :
    (((indexHot cfg records index).hot r.topicPartition).get? r.offset).isSome = true := by
  rw [get?_hot_indexHot, Option.isSome_or, Bool.or_eq_true]
  refine .inl (findSome?_isSome_iff.mpr ⟨r, mem_reverse.mpr hr, ?_⟩)
  rw [if_pos ⟨rfl, rfl⟩]
  rfl

theorem nextOffset_indexHot (records : List WalRecord) (index : PartitionIndex) :
    (indexHot cfg records index).nextOffset tp =
      ((recordsOf tp records).map fun r => r.offset + 1).foldl max (index.nextOffset tp) := by
  induction records generalizing index with
  | nil => rfl
  | cons r records ih =>
    rw [indexHot, foldl_cons]
    refine (ih _).trans ?_
    rw [PartitionIndex.nextOffset_insertHot]
    by_cases htp : tp = r.topicPartition
    · subst htp
      rw [if_pos rfl, recordsOf, recordsOf, filter_cons_of_pos (by simp)]
      rfl
    · rw [if_neg htp, recordsOf, recordsOf, filter_cons_of_neg (by simpa using fun h => htp h.symm)]

theorem nextOffset_indexCold (live : List ColdSegment) (index : PartitionIndex) :
    (indexCold live index).nextOffset tp =
      ((live.filter fun seg => seg.topicPartition = tp).map ColdSegment.endOffset).foldl max
        (index.nextOffset tp) := by
  induction live generalizing index with
  | nil => rfl
  | cons seg live ih =>
    rw [indexCold, foldl_cons]
    refine (ih _).trans ?_
    rw [PartitionIndex.nextOffset, PartitionIndex.entries_insertCold]
    by_cases htp : tp = seg.topicPartition
    · subst htp
      rw [if_pos rfl, filter_cons_of_pos (by simp)]
      rfl
    · rw [if_neg htp, filter_cons_of_neg (by simpa using fun h => htp h.symm)]
      rfl

theorem hot_indexCold (live : List ColdSegment) : (indexCold live .new).hot tp = SMap.empty := by
  induction live using reverseRecOn with
  | nil => rfl
  | append_singleton live seg ih =>
    rw [indexCold, foldl_append]
    show (PartitionIndex.insertCold _ _ _ _ _ _).hot tp = _
    rw [PartitionIndex.hot, PartitionIndex.entries_insertCold]
    split
    · rename_i htp
      rw [← htp]
      exact ih
    · exact ih

end index

def onePastHighest (tp : TopicPartition) (records : List WalRecord) : Nat :=
  ((recordsOf tp records).map fun r => r.offset + 1).foldl max 0

/-- What an object key and a record need to be read back: a topic without slashes, and fields in
the range of their Rust types, the end of the record's range included. -/
structure Readable (r : WalRecord) : Prop where
  fits : walRecordFields.Fits r
  topic : '/' ∉ r.topicPartition.topic.toList
  partition : r.topicPartition.partition < 2 ^ 32
  offset : r.offset + 1 < 2 ^ 64

def recovered (cfg : StoreConfig) (wal : Wal.Log WalRecord) (manifest : List ManifestRecord)
    (objects : Objects) (live : List ColdSegment) : PartitionStore where
  wal := wal
  index := indexHot cfg (walRecords wal) (indexCold live .new)
  objects := objects
  cache := fun _ => none
  manifest := manifest

theorem Increasing.filter_head (h : Increasing recs) (hr : r ∈ recs) :
    ∃ rest, recs.filter (fun a => r.offset ≤ a.offset) = r :: rest := by
  induction recs with
  | nil => cases hr
  | cons x recs ih =>
    obtain ⟨hx, hrest⟩ := pairwise_cons.mp h
    rcases mem_cons.mp hr with rfl | hin
    · exact ⟨_, filter_cons_of_pos (decide_eq_true le_rfl)⟩
    · have hlt := hx r hin
      rw [filter_cons_of_neg (by simpa using hlt)]
      exact ih hrest hin

namespace Durable

variable (h : Durable cfg acked wal manifest objects)
include h

theorem mem_acked (hr : r ∈ walRecords wal) : r ∈ acked := by
  rcases mem_walRecords.mp hr with ⟨seq, xs, hget, hin⟩ | hactive
  · have hrec : r ∈ recordsOf r.topicPartition xs := mem_recordsOf.mpr ⟨hin, rfl⟩
    exact (((h.groups seq xs hget _ (ne_nil_of_mem hrec)).mem r).mp hrec).1
  · exact h.active r hactive

theorem log_or_live (hr : r ∈ acked) :
    r ∈ walRecords wal ∨ ∃ I ∈ liveExtents manifest r.topicPartition, Contains I r.offset := by
  rcases h.kept r hr with hactive | ⟨I, hI | ⟨seq, xs, hget, hne, rfl⟩, hin⟩
  · exact .inl (mem_walRecords.mpr (.inr hactive))
  · exact .inr ⟨I, hI, hin⟩
  · have hrec := ((h.groups seq xs hget _ hne).mem r).mpr ⟨hr, rfl, hin⟩
    exact .inl (mem_walRecords.mpr (.inl ⟨seq, xs, hget, (mem_recordsOf.mp hrec).1⟩))

/-- **The recovered `next_offset`** is one past the highest acknowledged offset. -/
theorem nextOffset_recovered (hload : fold manifest = some load) (tp : TopicPartition) :
    (recovered cfg wal manifest objects load.live).index.nextOffset tp =
      onePastHighest tp acked := by
  show (indexHot _ _ _).nextOffset tp = _
  rw [nextOffset_indexHot, nextOffset_indexCold]
  refine le_antisymm (foldl_max_le (foldl_max_le (Nat.zero_le _) ?_) ?_)
    (foldl_max_le (Nat.zero_le _) ?_)
  · intro n hn
    obtain ⟨seg, hseg, rfl⟩ := mem_map.mp hn
    obtain ⟨hseg, htp⟩ := mem_filter.mp hseg
    obtain ⟨hmem, -⟩ := mem_liveExtents_of_mem_live hload h.live_keyed hseg
    obtain ⟨r, hr, hrtp, hend⟩ := h.ends _ _ (.inl hmem)
    have hend' : seg.endOffset = r.offset + 1 := hend
    rw [hend']
    exact le_foldl_max (.inr ⟨_, mem_map_of_mem (mem_recordsOf.mpr
      ⟨hr, hrtp.trans (of_decide_eq_true htp)⟩), le_rfl⟩)
  · intro n hn
    obtain ⟨r, hr, rfl⟩ := mem_map.mp hn
    obtain ⟨hr, htp⟩ := mem_recordsOf.mp hr
    exact le_foldl_max (.inr ⟨_, mem_map_of_mem (mem_recordsOf.mpr ⟨h.mem_acked hr, htp⟩), le_rfl⟩)
  · intro n hn
    obtain ⟨r, hmem, rfl⟩ := mem_map.mp hn
    obtain ⟨hr, rfl⟩ := mem_recordsOf.mp hmem
    rcases h.log_or_live hr with hlog | ⟨I, ⟨seg, hget, hend⟩, hin⟩
    · exact le_foldl_max (.inr ⟨_, mem_map_of_mem (mem_recordsOf.mpr ⟨hlog, rfl⟩), le_rfl⟩)
    · refine le_foldl_max (.inl (le_foldl_max (.inr ⟨seg.endOffset, ?_, ?_⟩)))
      · refine mem_map_of_mem (mem_filter.mpr ⟨(mem_live hload seg).mpr ⟨_, _, hget⟩, ?_⟩)
        exact decide_eq_true (h.live_keyed _ _ _ hget).1
      · rw [hend]
        exact hin.2

/-- **Every acknowledged record is read back** from the recovered store. -/
theorem read_recovered (hload : fold manifest = some load) (hreadable : ∀ r ∈ acked, Readable r)
    (hr : r ∈ acked) (maxBytes : Nat) :
    ∃ rest, ((recovered cfg wal manifest objects load.live).read cfg r.topicPartition r.offset
      maxBytes).1 = .ok (r :: rest) := by
  cases hhot : ((recovered cfg wal manifest objects load.live).index.hot r.topicPartition).get?
      r.offset with
  | some e =>
    obtain ⟨rest, hread, -⟩ := read_of_hot cfg _ hhot maxBytes
    rcases hot_indexHot hhot with ⟨r', hr', htp, hoffset, hrec⟩ | hcold
    · -- the hot entry is an acknowledged record at the same place
      have heq : r' = r := (h.increasing r.topicPartition).eq_of_offset
        (mem_recordsOf.mpr ⟨h.mem_acked hr', htp⟩) (mem_recordsOf.mpr ⟨hr, rfl⟩) hoffset
      rw [hread, hrec, heq]
      exact ⟨rest, rfl⟩
    · rw [hot_indexCold] at hcold
      cases hcold
  | none =>
    rcases h.log_or_live hr with hlog | ⟨I, hI, hin⟩
    · have hsome : (((recovered cfg wal manifest objects load.live).index.hot
          r.topicPartition).get? r.offset).isSome = true := hot_indexHot_isSome hlog
      rw [hhot] at hsome
      cases hsome
    · obtain ⟨recs, hcontent, data, hdata, hobject⟩ := h.stored _ I hI
      obtain ⟨seg, hget, hend⟩ := hI
      obtain ⟨htp, hstart, hkeyed⟩ := h.live_keyed _ _ _ hget
      have hextent : seg.extent = I := Prod.ext hstart hend
      -- the segment is in the cold index, and the lookup finds it
      have hindex : ((indexCold load.live .new).cold r.topicPartition).get? I.1 =
          some ⟨seg.endOffset, seg.objectKey, seg.sizeBytes⟩ := by
        rw [← hstart, ← htp]
        refine cold_indexCold ((mem_live hload seg).mpr ⟨_, _, hget⟩) ?_
        intro seg' hseg' htp' hstart'
        obtain ⟨tp', start', hget'⟩ := (mem_live hload seg').mp hseg'
        obtain ⟨hseg'tp, hseg'start, -⟩ := h.live_keyed _ _ _ hget'
        rw [← hseg'tp, htp', htp, ← hseg'start, hstart', hstart, hget] at hget'
        exact (Option.some.inj hget').symm
      have htiling : Tiling (intervals ObjectRange.endOffset
          ((recovered cfg wal manifest objects load.live).index.cold r.topicPartition)) := by
        refine (h.tiling r.topicPartition).subset ?_
        rintro ⟨start, stop⟩ ⟨range, hrange, rfl⟩
        change ((indexHot _ _ _).cold _).get? start = some range at hrange
        rw [cold_indexHot] at hrange
        obtain ⟨seg', hseg', htp', rfl, rfl⟩ := mem_cold_indexCold hrange
        rw [← htp']
        exact .inl (mem_liveExtents_of_mem_live hload h.live_keyed hseg').1
      have hcold : ((recovered cfg wal manifest objects load.live).index.cold
          r.topicPartition).get? I.1 = some ⟨seg.endOffset, seg.objectKey, seg.sizeBytes⟩ := by
        show ((indexHot _ _ _).cold _).get? _ = _
        rw [cold_indexHot]
        exact hindex
      have hfloor := floor?_of_contains htiling hcold hend hin
      have hkey : seg.objectKey = objectKey r.topicPartition I.1 I.2 := hkeyed.eq htp hextent
      -- the object is the one of the range, and it decodes to the records of the range
      have hdown : downloadSegment cfg.storage objects seg.objectKey =
          .ok ⟨I.1, I.2, data.length, data, r.topicPartition⟩ := by
        rw [hkey]
        obtain ⟨last, hlast, hlasttp, hlastend⟩ := h.ends _ I (.inl ⟨seg, hget, hend⟩)
        have hbound := (hreadable last hlast).offset
        have hlt := (h.tiling _).nonempty I (.inl ⟨seg, hget, hend⟩)
        exact downloadSegment_of_stored hobject (parseObjectKey_objectKey (hreadable r hr).topic
          (hreadable r hr).partition (by omega) (by omega))
      have hdec : deserializeRecords data = .ok recs :=
        deserializeRecords_of_serializeRecords
          (fun a ha => (hreadable a ((hcontent.mem a).mp ha).1).fits) hdata
      have hend' : r.offset < seg.endOffset := hend ▸ hin.2
      obtain ⟨taken, cache, hread, hpre, hne, -⟩ := read_of_cold
        (s := recovered cfg wal manifest objects load.live) (by rw [hhot]; rfl) hfloor hend' hdown
        hdec rfl maxBytes
      obtain ⟨rest, hfilter⟩ := hcontent.increasing.filter_head
        ((hcontent.mem r).mpr ⟨hr, rfl, hin⟩)
      rw [hfilter] at hpre hne
      cases taken with
      | nil => exact absurd rfl (hne (cons_ne_nil _ _))
      | cons r' taken =>
        obtain ⟨rfl, -⟩ := cons_prefix_cons.mp hpre
        exact ⟨taken, by rw [hread]⟩

end Durable

/-! ## The tiering task -/

/-- The groups still to come are those of the segment, and unless one was fenced, what does not
come any more and is not the partition in `own` is live. -/
structure SegmentKeeps (wal : Wal.Log WalRecord) (L : TopicPartition → Set Extent)
    (task : SegmentTask) (groups : List Group) (own : Option TopicPartition)
    (xs : List WalRecord) : Prop where
  get : wal.sealedSegs.get? task.seq = some xs
  ahead : ∀ g ∈ groups, g.records = recordsOf g.topicPartition xs ∧ g.records ≠ []
  done : task.fencedAny = false → ∀ tp, recordsOf tp xs ≠ [] →
    (∃ g ∈ groups, g.topicPartition = tp) ∨ own = some tp ∨ span (recordsOf tp xs) ∈ L tp

structure UploadKeeps (cfg : StoreConfig) (objects : Objects) (xs : List WalRecord)
    (seg : ColdSegment) : Prop where
  nonempty : recordsOf seg.topicPartition xs ≠ []
  extent : seg.extent = span (recordsOf seg.topicPartition xs)
  keyed : seg.Keyed
  stored : StoredAs cfg objects seg.topicPartition seg.extent (recordsOf seg.topicPartition xs)

def TierKeeps (cfg : StoreConfig) (wal : Wal.Log WalRecord) (L : TopicPartition → Set Extent)
    (objects : Objects) : Tiering → Prop
  | .group task groups => ∃ xs, SegmentKeeps wal L task groups none xs
  | .uploaded task groups seg => ∃ xs, SegmentKeeps wal L task groups (some seg.topicPartition) xs ∧
    UploadKeeps cfg objects xs seg
  | .registered task groups _ => ∃ xs, SegmentKeeps wal L task groups none xs
  | .idle | .cycle _ | .panicked => True

theorem TierKeeps.of_sealed {wal' : Wal.Log WalRecord} {tiering : Tiering}
    (h : TierKeeps cfg wal L objects tiering) (hsealed : wal'.sealedSegs = wal.sealedSegs) :
    TierKeeps cfg wal' L objects tiering := by
  have hkeeps : ∀ {task groups own xs}, SegmentKeeps wal L task groups own xs →
      SegmentKeeps wal' L task groups own xs := fun h =>
    ⟨by rw [hsealed]; exact h.get, h.ahead, h.done⟩
  cases tiering with
  | group | registered =>
    obtain ⟨xs, hxs⟩ := h
    exact ⟨xs, hkeeps hxs⟩
  | uploaded task groups seg =>
    obtain ⟨xs, hxs, hupload⟩ := h
    exact ⟨xs, hkeeps hxs, hupload⟩
  | idle | cycle | panicked => trivial

theorem groupsOf_keeps {seqs : List Nat} {order : List TopicPartition}
    (hget : wal.sealedSegs.get? seq = some xs) (hperm : order.Perm (partitionsOf xs)) :
    SegmentKeeps wal L ⟨seq, seqs, false⟩ (groupsOf order xs) none xs := by
  have hmem : ∀ tp, tp ∈ order ↔ recordsOf tp xs ≠ [] := by
    intro tp
    rw [hperm.mem_iff, partitionsOf, mem_dedup, mem_map]
    constructor
    · rintro ⟨r, hr, rfl⟩
      exact ne_nil_of_mem (mem_recordsOf.mpr ⟨hr, rfl⟩)
    · intro hne
      obtain ⟨r, hr⟩ := exists_mem_of_ne_nil _ hne
      obtain ⟨hr, htp⟩ := mem_recordsOf.mp hr
      exact ⟨r, hr, htp⟩
  refine ⟨hget, fun g hg => ?_, fun _ tp hne => .inl ?_⟩
  · obtain ⟨tp, htp, rfl⟩ := mem_map.mp hg
    exact ⟨rfl, (hmem tp).mp htp⟩
  · exact ⟨_, mem_map_of_mem ((hmem tp).mpr hne), rfl⟩

/-! ## Whole runs -/

def acknowledged (labels : List Label) : List WalRecord :=
  labels.filterMap fun
    | .client (.appendWal r .ok) => some r
    | _ => none

/-- Appends come in order and one at a time for each partition, one that fails leaves nothing in
the log, uploads are stored whole, nothing is compacted, and a process dies with its log
synced. -/
def Lossless (cfg : StoreConfig) (e : Engine) : Label → Prop
  | .client (.appendHot r) => e.store.index.nextOffset r.topicPartition ≤ r.offset ∧
    ∀ p ∈ e.pending, p.topicPartition ≠ r.topicPartition
  | .client (.appendWal _ (.fail left)) => left = false
  | .tier .advance => e.tiering.Whole cfg
  | .compact _ => False
  | .restart _ _ => e.store.wal.synced = e.store.wal.active.length
  | _ => True

instance (cfg : StoreConfig) (e : Engine) (label) : Decidable (Lossless cfg e label) := by
  induction label using Label.casesOn with
  | client label =>
    induction label using ClientLabel.casesOn with
    | appendWal _ o =>
      induction o using AppendOutcome.casesOn <;> dsimp only [Lossless] <;> infer_instance
    | _ => dsimp only [Lossless]; infer_instance
  | tier label =>
    induction label using TierLabel.casesOn <;> dsimp only [Lossless] <;> infer_instance
  | _ => dsimp only [Lossless]; infer_instance

structure Recoverable (cfg : StoreConfig) (acked : List WalRecord) (e : Engine) : Prop where
  durable : Durable cfg acked e.store.wal e.store.manifest e.store.objects
  below : ∀ r ∈ acked, r.offset < e.store.index.nextOffset r.topicPartition
  pending : ∀ p ∈ e.pending, p.offset < e.store.index.nextOffset p.topicPartition ∧
    ∀ r ∈ acked, r.topicPartition = p.topicPartition → r.offset < p.offset
  distinct : e.pending.Pairwise fun p q => p.topicPartition ≠ q.topicPartition
  tier : TierKeeps cfg e.store.wal (liveExtents e.store.manifest) e.store.objects e.tiering

theorem ne_of_mem_erase {pending : List WalRecord}
    (h : pending.Pairwise fun p q => p.topicPartition ≠ q.topicPartition) {p : WalRecord}
    (hr : r ∈ pending) (hp : p ∈ pending.erase r) : r.topicPartition ≠ p.topicPartition := by
  have hcons := (perm_cons_erase hr).pairwise h fun hne => hne.symm
  exact (pairwise_cons.mp hcons).1 p hp

namespace Recoverable

variable {e : Engine} {s' : PartitionStore} {label : Label} {kept : Nat}

section

variable (h : Recoverable cfg acked e)
include h

theorem quiet (hnone : acknowledged [label] = []) :
    Recoverable cfg (acked ++ acknowledged [label]) e := by
  rw [hnone, append_nil]
  exact h

theorem client {label : ClientLabel} {pending' : List WalRecord}
    (hsafe : Lossless cfg e (.client label))
    (hstep : ClientStep cfg e.store e.pending label s' pending') :
    Recoverable cfg (acked ++ acknowledged [.client label])
      { e with store := s', pending := pending' } := by
  cases hstep with
  | @appendHot r hcap =>
    obtain ⟨hnext, hfresh⟩ := hsafe
    have hgrow : ∀ tp, e.store.index.nextOffset tp ≤
        (e.store.appendHot cfg r).index.nextOffset tp := by
      intro tp
      show _ ≤ (PartitionIndex.insertHot _ _ _ _ _).nextOffset tp
      rw [PartitionIndex.nextOffset_insertHot]
      split
      · rename_i htp
        rw [htp]
        exact le_max_left _ _
      · exact le_rfl
    have hown : r.offset < (e.store.appendHot cfg r).index.nextOffset r.topicPartition := by
      show _ < (PartitionIndex.insertHot _ _ _ _ _).nextOffset _
      rw [PartitionIndex.nextOffset_insertHot, if_pos rfl]
      exact lt_max_of_lt_right (Nat.lt_succ_self _)
    refine quiet ?_ rfl
    refine ⟨h.durable, fun a ha => (h.below a ha).trans_le (hgrow _), ?_, ?_, h.tier⟩
    · intro p hp
      rcases mem_cons.mp hp with rfl | hp
      · refine ⟨hown, fun a ha htp => ?_⟩
        have := h.below a ha
        rw [htp] at this
        exact this.trans_le hnext
      · exact ⟨(h.pending p hp).1.trans_le (hgrow _), (h.pending p hp).2⟩
    · exact pairwise_cons.mpr ⟨fun p hp heq => hfresh p hp heq.symm, h.distinct⟩
  | @appendWal r outcome hr =>
    obtain ⟨hnext, hnew⟩ := h.pending r hr
    have hsub : ∀ p ∈ e.pending.erase r, p ∈ e.pending := fun p hp => mem_of_mem_erase hp
    cases outcome with
    | ok =>
      refine ⟨h.durable.append hnew, ?_, ?_, h.distinct.sublist erase_sublist, h.tier.of_sealed rfl⟩
      · intro a ha
        rcases mem_append.mp ha with ha | ha
        · exact h.below a ha
        · rw [mem_singleton.mp ha]
          exact hnext
      · intro p hp
        refine ⟨(h.pending p (hsub p hp)).1, fun a ha htp => ?_⟩
        rcases mem_append.mp ha with ha | ha
        · exact (h.pending p (hsub p hp)).2 a ha htp
        · -- another record of the partition is not pending
          rw [mem_singleton.mp ha] at htp
          exact absurd htp (ne_of_mem_erase h.distinct hr hp)
    | fail left =>
      cases hsafe
      have hsame : ∀ tp, (e.store.index.removeHot r.topicPartition r.offset).nextOffset tp =
          e.store.index.nextOffset tp := fun tp => PartitionIndex.nextOffset_removeHot _ _ _ _
      refine quiet ?_ rfl
      refine ⟨h.durable, fun a ha => ?_, fun p hp => ⟨?_, (h.pending p (hsub p hp)).2⟩,
        h.distinct.sublist erase_sublist, h.tier⟩
      · exact (h.below a ha).trans_eq (hsame _).symm
      · exact (h.pending p (hsub p hp)).1.trans_eq (hsame _).symm
  | sync =>
    refine quiet ?_ rfl
    exact ⟨h.durable.of_segments (fun _ _ _ => Iff.rfl) rfl, h.below, h.pending, h.distinct,
      h.tier.of_sealed rfl⟩
  | read | evict =>
    refine quiet ?_ rfl
    exact { h with }

theorem tierStep {label : TierLabel} {tiering' : Tiering} (hsafe : Lossless cfg e (.tier label))
    (hstep : TierStep cfg e.store e.tiering label s' tiering') :
    Recoverable cfg acked { e with store := s', tiering := tiering' } := by
  have htier := h.tier
  obtain ⟨store, pending, tiering, compaction⟩ := e
  cases hstep with
  | sealActive => exact ⟨h.durable.rotate, h.below, h.pending, h.distinct, trivial⟩
  | sealFailed =>
    refine ⟨h.durable.of_segments (fun seq xs hne => ?_) rfl, h.below, h.pending, h.distinct,
      trivial⟩
    -- the file it leaves behind is empty, and so is one that was there
    show ((store.wal.sealedSegs.insert _ _).get? seq = some xs) ↔ _
    rw [SMap.get?_insert]
    split
    · rename_i hnext
      have hseq : seq = store.wal.activeSeq + 1 := hnext
      refine ⟨fun hnil => absurd (Option.some.inj hnil).symm hne, fun hget => ?_⟩
      have hget' : store.wal.sealedSegs.get? seq = some xs := hget
      rcases store.wal.bound seq xs hget' with hlt | ⟨-, hnil⟩
      · exact absurd hlt (by omega)
      · exact absurd hnil hne
    · exact Iff.rfl
  | start | cycleDone | flipPanic | retain =>
    exact { h with tier := trivial }
  | @reclaim seq seqs order hget =>
    refine ⟨h.durable.delete fun xs hxs tp hne => ?_, h.below, h.pending, h.distinct, trivial⟩
    have hxs' : store.wal.sealedSegs.get? seq = some xs := hxs
    rw [hget] at hxs'
    cases hxs'
    exact absurd rfl hne
  | segment hget hne hperm =>
    exact { h with tier := ⟨_, groupsOf_keeps hget hperm⟩ }
  | fenceBefore hfencing =>
    obtain ⟨xs, hxs⟩ := htier
    exact { h with tier := ⟨xs, hxs.get, fun g hg => hxs.ahead g (mem_cons_of_mem _ hg),
      fun hfenced => (nomatch hfenced)⟩ }
  | fenceAfter hfencing =>
    obtain ⟨xs, hxs, -⟩ := htier
    exact { h with tier := ⟨xs, hxs.get, hxs.ahead, fun hfenced => (nomatch hfenced)⟩ }
  | @upload task g groups s' segment hupload =>
    obtain ⟨xs, hxs⟩ := htier
    obtain ⟨hrecords, hne⟩ := hxs.ahead g mem_cons_self
    have hwhole : StoredWhole cfg g.records := hsafe
    obtain ⟨data, objects, hdata, rfl, rfl, hobjects⟩ := uploadRecords_cases hupload
    have hown : StoredAs cfg objects g.topicPartition (span g.records) g.records :=
      ⟨data, hdata, (hobjects _ _ _).trans (if_pos ⟨hwhole data hdata, rfl, rfl, rfl⟩)⟩
    have hother : ∀ tp I, ¬ (tp = g.topicPartition ∧ I = span g.records) →
        objects (objectKey tp I.1 I.2) = store.objects (objectKey tp I.1 I.2) :=
      fun tp I hdiff => (hobjects tp I.1 I.2).trans
        (if_neg fun hsame => hdiff ⟨hsame.2.1, Prod.ext hsame.2.2.1 hsame.2.2.2⟩)
    rw [hrecords] at hne hown hother
    refine ⟨h.durable.upload hxs.get hne hown hother, h.below, h.pending, h.distinct, xs,
      ⟨hxs.get, fun g' hg' => hxs.ahead g' (mem_cons_of_mem _ hg'), ?_⟩, hne, ?_, rfl, ?_⟩
    · intro hfenced tp htp
      rcases hxs.done hfenced tp htp with ⟨g', hg', rfl⟩ | hnone | hlive
      · rcases mem_cons.mp hg' with rfl | hg'
        · exact .inr (.inl rfl)
        · exact .inl ⟨g', hg', rfl⟩
      · cases hnone
      · exact .inr (.inr hlive)
    · show span g.records = _
      rw [hrecords]
    · rw [hrecords]
      exact hown
  | @register task groups seg =>
    obtain ⟨xs, hxs, hup⟩ := htier
    obtain ⟨hdurable, hL⟩ := h.durable.register hxs.get hup.nonempty hup.extent hup.keyed hup.stored
    refine ⟨hdurable, h.below, h.pending, h.distinct, xs, hxs.get, hxs.ahead, ?_⟩
    intro hfenced tp htp
    rcases hxs.done hfenced tp htp with hahead | hself | hlive
    · exact .inl hahead
    · obtain rfl := Option.some.inj hself
      have hin : seg.extent ∈ liveExtents (store.manifest ++ [ManifestRecord.register seg])
          seg.topicPartition := by
        rw [hL, if_pos rfl]
        exact Set.mem_insert _ _
      rw [hup.extent] at hin
      exact .inr (.inr hin)
    · exact .inr (.inr (subset_of_insert hL tp hlive))
  | @flip task groups segment index hflip =>
    obtain ⟨xs, hxs⟩ := htier
    have hgrow : ∀ tp, store.index.nextOffset tp ≤ index.nextOffset tp := by
      intro tp
      rw [PartitionIndex.nextOffset, PartitionIndex.nextOffset,
        PartitionIndex.entries_flipToCold _ _ tp hflip]
      split
      · rename_i htp
        rw [htp]
        exact le_max_left _ _
      · exact le_rfl
    exact ⟨h.durable, fun a ha => (h.below a ha).trans_le (hgrow _),
      fun p hp => ⟨(h.pending p hp).1.trans_le (hgrow _), (h.pending p hp).2⟩, h.distinct, xs, hxs⟩
  | @delete task hfenced =>
    obtain ⟨ys, hys⟩ := htier
    refine ⟨h.durable.delete fun xs hxs tp hne => ?_, h.below, h.pending, h.distinct, trivial⟩
    obtain rfl := Option.some.inj (hys.get.symm.trans hxs)
    rcases hys.done hfenced tp hne with ⟨g, hg, -⟩ | hnone | hlive
    · cases hg
    · cases hnone
    · exact hlive
  | abortCycle | abortGroup | abortUploaded =>
    exact { h with tier := trivial }

theorem durable_crashed (hsynced : e.store.wal.synced = e.store.wal.active.length)
    (hkept : e.store.wal.synced ≤ kept) :
    Durable cfg acked (crashed e.store.wal kept).rotate e.store.manifest e.store.objects := by
  refine Durable.rotate (h.durable.of_segments (fun _ _ _ => Iff.rfl) ?_)
  exact take_of_length_le (hsynced ▸ hkept)

theorem step_restart (deleted : String → Bool) (hkept : e.store.wal.synced ≤ kept)
    (hload : fold e.store.manifest = some load) :
    e.step cfg (.restart kept deleted) = some (.boot (recovered cfg
      (crashed e.store.wal kept).rotate e.store.manifest e.store.objects load.live)) := by
  have horphans : load.orphanObjectKeys = [] :=
    (orphanObjectKeys_of_fold hload).trans h.durable.collected
  unfold Engine.step newWithFencing
  rw [hload]
  simp only [if_pos hkept, Option.map_some, horphans]
  rfl

end

theorem le_onePastHighest (hr : r ∈ acked) : r.offset < onePastHighest r.topicPartition acked := by
  have hmem := mem_map_of_mem (f := fun r => r.offset + 1) (mem_recordsOf.mpr ⟨hr, rfl⟩)
  rw [onePastHighest, ← Nat.succ_le_iff]
  exact le_foldl_max (.inr ⟨_, hmem, le_rfl⟩)

theorem restart (h : Recoverable cfg acked e)
    (hsynced : e.store.wal.synced = e.store.wal.active.length) (hkept : e.store.wal.synced ≤ kept)
    (hload : fold e.store.manifest = some load) :
    Recoverable cfg acked (.boot (recovered cfg (crashed e.store.wal kept).rotate
      e.store.manifest e.store.objects load.live)) := by
  have hdurable := h.durable_crashed hsynced hkept
  refine ⟨hdurable, fun r hr => ?_, fun p hp => (nomatch hp), Pairwise.nil, trivial⟩
  show r.offset < (recovered _ _ _ _ _).index.nextOffset _
  rw [hdurable.nextOffset_recovered hload]
  exact le_onePastHighest hr

theorem step {e' : Engine} (h : Recoverable cfg acked e) (hsafe : Lossless cfg e label)
    (hstep : e.step cfg label = some e') : Recoverable cfg (acked ++ acknowledged [label]) e' := by
  cases Engine.step_cases hstep with
  | client hclient => exact h.client hsafe hclient
  | @tier label s' tiering' htier =>
    refine quiet ?_ rfl
    exact h.tierStep hsafe htier
  | compact hcompact => exact absurd hsafe id
  | @restart kept deleted load hkept hload =>
    refine quiet ?_ rfl
    have heq := (h.step_restart deleted hkept hload).symm.trans hstep
    rw [← Option.some.inj heq]
    exact h.restart hsafe hkept hload

end Recoverable

theorem readable_appended : Readable ⟨⟨"a", 0⟩, 0, ⟨none, [1], [], 0⟩, 0⟩ := by
  refine ⟨?_, by decide, by decide, by decide⟩
  exact walRecordFields_fits_value (by decide) (by decide) (by decide)

/-- A record is sealed, and its group uploaded and registered; the index is not flipped yet. -/
def registeredOnly : List Label :=
  appended ⟨"a", 0⟩ 0 ++ [.tier .sealActive, .tier .start, .tier (.segment [⟨"a", 0⟩]),
    .tier .advance, .tier .advance]

/-- A record of a topic with a slash in its name is tiered and its segment deleted; then the
process dies and comes back. -/
def slashTiered : List Label :=
  appended ⟨"a/b", 0⟩ 0 ++ [.client .sync, .tier .sealActive, .tier .start,
    .tier (.segment [⟨"a/b", 0⟩]), .tier .advance, .tier .advance, .tier .advance,
    .tier .advance, .restart 0 fun _ => true]

end RustMq.Store
