import RustMq.Store.Ranges

/-!
# The objects behind the cold index

A key of the cold index is worth as much as the object under it. Objects come from uploads, and
two things take them away: the compactor deletes the sources of a merge, and recovery deletes
the orphans of the manifest. Both delete only keys of ranges that a live range has swallowed
(`Ranges`), so it is enough that nothing refers to such a range.

One more thing has to hold: an upload above the multipart threshold writes its parts under keys of
their own and never the object itself, so its range has no object to begin with.
-/

namespace RustMq.Store

open Lib

/-! ## Uploads that write the object -/

/-- The records are serialized to no more than the multipart threshold. -/
def StoredWhole (cfg : StoreConfig) (records : List WalRecord) : Prop :=
  ∀ data, serializeRecords records = .ok data → isMultipart cfg.storage data = false

instance (cfg : StoreConfig) (records : List WalRecord) : Decidable (StoredWhole cfg records) :=
  match h : serializeRecords records with
  | .error _ => .isTrue fun _ hdata => (nomatch h.symm.trans hdata)
  | .ok data => decidable_of_iff (isMultipart cfg.storage data = false)
    ⟨fun hwhole _ hdata => (Except.ok.inj (h.symm.trans hdata)) ▸ hwhole, fun hall => hall data h⟩

def Tiering.Whole (cfg : StoreConfig) : Tiering → Prop
  | .group _ (g :: _) => StoredWhole cfg g.records
  | _ => True

instance (cfg : StoreConfig) (tiering) : Decidable (Tiering.Whole cfg tiering) := by
  unfold Tiering.Whole
  split <;> infer_instance

def Compaction.Whole (cfg : StoreConfig) : Compaction → Prop
  | .downloading _ _ [] merged _ => StoredWhole cfg merged
  | _ => True

instance (cfg : StoreConfig) (compaction) : Decidable (Compaction.Whole cfg compaction) := by
  unfold Compaction.Whole
  split <;> infer_instance

def UploadsWhole (cfg : StoreConfig) (e : Engine) : Label → Prop
  | .tier .advance => e.tiering.Whole cfg
  | .compact .advance => e.compaction.Whole cfg
  | _ => True

instance (cfg : StoreConfig) (e : Engine) (label) : Decidable (UploadsWhole cfg e label) := by
  cases label with
  | tier label | compact label =>
    cases label <;> dsimp only [UploadsWhole] <;> infer_instance
  | _ => exact .isTrue trivial

def KeepsObjects (cfg : StoreConfig) (e : Engine) (label : Label) : Prop :=
  RangeFits e label ∧ UploadsWhole cfg e label

instance (cfg : StoreConfig) (e : Engine) (label : Label) : Decidable (KeepsObjects cfg e label) :=
  inferInstanceAs (Decidable (_ ∧ _))

/-! ## Present objects -/

def Present (objects : Objects) (tp : TopicPartition) (I : Extent) : Prop :=
  (objects (objectKey tp I.1 I.2)).isSome

/-- Only swallowed ranges lose their object. -/
def KeepsUnswallowed (L : TopicPartition → Set Extent) (objects objects' : Objects) : Prop :=
  ∀ tp I, Present objects tp I → Present objects' tp I ∨ Swallowed (L tp) I

variable {L : TopicPartition → Set Extent} {objects objects' : Objects} {cfg : StoreConfig}
  {s s' : PartitionStore} {seg : ColdSegment} {deleted : String → Bool}

section objects

theorem KeepsUnswallowed.refl : KeepsUnswallowed L objects objects := fun _ _ h => Or.inl h

theorem KeepsUnswallowed.delete {key : String} (hkey : Superseded L key) :
    KeepsUnswallowed L objects (objects.delete key) := by
  obtain ⟨tp₀, J, rfl, hJ⟩ := hkey
  intro tp I hI
  by_cases heq : objectKey tp I.1 I.2 = objectKey tp₀ J.1 J.2
  · obtain ⟨rfl, hlo, hhi⟩ := objectKey_inj heq
    exact .inr ((Prod.ext hlo hhi : I = J) ▸ hJ)
  · left
    rw [Present, Objects.delete, Function.update_of_ne heq]
    exact hI

theorem KeepsUnswallowed.trans {objects'' : Objects} (h : KeepsUnswallowed L objects objects')
    (h' : KeepsUnswallowed L objects' objects'') : KeepsUnswallowed L objects objects'' :=
  fun tp I hI => (h tp I hI).elim (h' tp I) .inr

theorem KeepsUnswallowed.collectOrphans {orphans : List String}
    (h : ∀ key ∈ orphans, Superseded L key) :
    KeepsUnswallowed L objects (PartitionStore.collectOrphans orphans deleted objects) := by
  induction orphans generalizing objects with
  | nil => exact .refl
  | cons key orphans ih =>
    have hhead : KeepsUnswallowed L objects
        (if deleted key then objects.delete key else objects) := by
      split
      · exact .delete (h key List.mem_cons_self)
      · exact .refl
    exact hhead.trans (ih fun key' hkey' => h key' (List.mem_cons_of_mem key hkey'))

variable {tp : TopicPartition} {a b : Nat} {records : List WalRecord}

theorem present_uploadRecords (h : uploadRecords cfg s tp a b records = some (s', seg)) :
    (∀ tp' I, Present s.objects tp' I → Present s'.objects tp' I) ∧
      (StoredWhole cfg records → Present s'.objects seg.topicPartition seg.extent) := by
  obtain ⟨data, objects, hdata, rfl, rfl, hobjects⟩ := uploadRecords_cases h
  refine ⟨fun tp' I hI => ?_, fun hwhole => ?_⟩
  · show (objects (objectKey tp' I.1 I.2)).isSome
    rw [hobjects]
    split
    · rfl
    · exact hI
  · show (objects (objectKey tp a b)).isSome
    rw [hobjects, if_pos ⟨hwhole data hdata, rfl, rfl, rfl⟩]
    rfl

end objects

/-! ## The invariant -/

/-- The range of an upload has its object until a merge swallows it. -/
def TierPresent (L : TopicPartition → Set Extent) (objects : Objects) : Tiering → Prop
  | .uploaded _ _ seg | .registered _ _ seg =>
    Present objects seg.topicPartition seg.extent ∨ Swallowed (L seg.topicPartition) seg.extent
  | _ => True

def CompactionPresent (objects : Objects) : Compaction → Prop
  | .uploaded _ _ seg => Present objects seg.topicPartition seg.extent
  | _ => True

structure Presence (manifest : List ManifestRecord) (index : PartitionIndex) (objects : Objects)
    (tiering : Tiering) (compaction : Compaction) : Prop where
  live : ∀ tp, ∀ I ∈ liveExtents manifest tp, Present objects tp I
  cold : ∀ tp, ∀ I ∈ coldExtents index tp, Present objects tp I
  tier : TierPresent (liveExtents manifest) objects tiering
  compaction : CompactionPresent objects compaction

variable {tiering : Tiering}

section mono

variable {L' : TopicPartition → Set Extent}

theorem TierPresent.mono (h : TierPresent L objects tiering)
    (hev : ∀ tp I, Swallowed (L tp) I → Swallowed (L' tp) I)
    (hkeep : ∀ tp I, Present objects tp I → Present objects' tp I ∨ Swallowed (L' tp) I) :
    TierPresent L' objects' tiering := by
  cases tiering with
  | uploaded | registered => exact Or.elim h (hkeep _ _) fun hsw => .inr (hev _ _ hsw)
  | idle | cycle | group | panicked => trivial

end mono

namespace Presence

variable {manifest : List ManifestRecord} {index index' : PartitionIndex} {tiering' : Tiering}
  {compaction compaction' : Compaction}

theorem empty : Presence [] .new (fun _ => none) .idle .idle where
  live tp I hI := by
    rw [liveExtents_nil] at hI
    cases hI
  cold tp I hI := by
    obtain ⟨range, hget, -⟩ := hI
    cases hget
  tier := trivial
  compaction := trivial

section

variable (h : Presence manifest index objects tiering compaction)
include h

theorem of_cold_eq (hcold : ∀ tp, index'.cold tp = index.cold tp) :
    Presence manifest index' objects tiering compaction := by
  refine ⟨h.live, fun tp I hI => h.cold tp I ?_, h.tier, h.compaction⟩
  rw [← coldExtents_congr hcold]
  exact hI

theorem grow (hobjects : ∀ tp I, Present objects tp I → Present objects' tp I)
    (htier : TierPresent (liveExtents manifest) objects' tiering')
    (hcompaction : CompactionPresent objects' compaction') :
    Presence manifest index objects' tiering' compaction' :=
  ⟨fun tp I hI => hobjects tp I (h.live tp I hI), fun tp I hI => hobjects tp I (h.cold tp I hI),
    htier, hcompaction⟩

theorem moveTier (htier : TierPresent (liveExtents manifest) objects tiering') :
    Presence manifest index objects tiering' compaction :=
  h.grow (fun _ _ hI => hI) htier h.compaction

theorem moveCompaction (hcompaction : CompactionPresent objects compaction') :
    Presence manifest index objects tiering compaction' :=
  h.grow (fun _ _ hI => hI) h.tier hcompaction

end

variable {task : SegmentTask} {groups : List Group}

theorem register (h : Presence manifest index objects (.uploaded task groups seg) compaction)
    (hT : Tiling (liveExtents manifest seg.topicPartition))
    (hfits : Compatible (liveExtents manifest seg.topicPartition) seg.extent) :
    Presence (manifest ++ [.register seg]) index objects (.registered task groups seg)
      compaction := by
  have hL := liveExtents_register hT hfits
  have hpresent : Present objects seg.topicPartition seg.extent :=
    h.tier.resolve_right fun hsw => hsw.not_compatible hfits
  exact ⟨forall_of_insert hL hpresent h.live, h.cold, .inl hpresent, h.compaction⟩

theorem flip (h : Presence manifest index objects (.registered task groups seg) compaction)
    (hT : Tiling (coldExtents index seg.topicPartition))
    (hlive : Compatible (liveExtents manifest seg.topicPartition) seg.extent)
    (hcold : Compatible (coldExtents index seg.topicPartition) seg.extent)
    (hflip : index.flipToCold seg.topicPartition seg.startOffset seg.endOffset seg.objectKey
      seg.sizeBytes = some index') :
    Presence manifest index' objects (.group task groups) compaction := by
  have hpresent : Present objects seg.topicPartition seg.extent :=
    h.tier.resolve_right fun hsw => hsw.not_compatible hlive
  exact ⟨h.live, forall_of_insert (coldExtents_flipToCold hflip hT hcold) hpresent h.cold, trivial,
    h.compaction⟩

theorem client {pending pending' : List WalRecord} {label : ClientLabel}
    (h : Presence s.manifest s.index s.objects tiering compaction)
    (hstep : ClientStep cfg s pending label s' pending') :
    Presence s'.manifest s'.index s'.objects tiering compaction := by
  obtain ⟨hmanifest, hobjects, hcold⟩ := hstep.frame
  rw [hmanifest, hobjects]
  exact h.of_cold_eq hcold

theorem tierStep {label : TierLabel} (h : Presence s.manifest s.index s.objects tiering compaction)
    (hranges : Ranges s.manifest s.index tiering compaction)
    (hfits : label = .advance → TierFits s tiering) (hwhole : label = .advance → tiering.Whole cfg)
    (hstep : TierStep cfg s tiering label s' tiering') :
    Presence s'.manifest s'.index s'.objects tiering' compaction := by
  cases hstep with
  | upload hupload =>
    obtain ⟨hgrow, hown⟩ := present_uploadRecords hupload
    obtain ⟨data, objects, -, rfl, -, -⟩ := uploadRecords_cases hupload
    refine h.grow hgrow (.inl (hown (hwhole rfl))) ?_
    have hcompaction := h.compaction
    cases compaction with
    | uploaded plan plans seg => exact hgrow _ _ hcompaction
    | _ => trivial
  | register => exact h.register (hranges.live_tiling _) (hfits rfl).1
  | flip hflip => exact h.flip (hranges.cold_tiling _) (hfits rfl).1 (hfits rfl).2 hflip
  | sealActive | sealFailed => exact h
  | start | reclaim | segment | cycleDone | fenceBefore | fenceAfter | flipPanic | retain
  | delete | abortCycle | abortGroup | abortUploaded => exact h.moveTier trivial

variable {plan : CompactionPlan} {plans : List CompactionPlan}

theorem record (h : Presence manifest index objects tiering (.uploaded plan plans seg))
    (hranges : Ranges manifest index tiering (.uploaded plan plans seg)) :
    Presence (manifest ++ [.compact seg plan.sourceKeys]) index objects tiering
      (.recorded plan plans seg) := by
  obtain ⟨hL, hmem⟩ := hranges.liveExtents_record
  obtain ⟨hexec, hmerged⟩ := hranges.compaction
  have hev := Evolves.merge hranges.live_tiling hexec.planned (hranges.cold_tiling _) hexec.length
    hmem hL
  refine ⟨?_, h.cold, h.tier.mono hev.swallowed fun _ _ hI => .inl hI, trivial⟩
  intro tp I hI
  rw [hL] at hI
  split at hI
  · rename_i htp
    rcases hI with rfl | ⟨hI, -⟩
    · have := h.compaction
      rw [CompactionPresent, hmerged.extent, hmerged.topicPartition] at this
      rw [htp]
      exact this
    · exact h.live tp I hI
  · exact h.live tp I hI

theorem replace (h : Presence manifest index objects tiering (.recorded plan plans seg))
    (hranges : Ranges manifest index tiering (.recorded plan plans seg))
    (hreplace : index.replaceCold seg.topicPartition seg.startOffset seg.endOffset seg.objectKey
      seg.sizeBytes = some index') :
    Presence manifest index' objects tiering (.deleting plan.sourceKeys plans) := by
  obtain ⟨hexec, hmerged, hlive⟩ := hranges.compaction
  refine ⟨h.live, ?_, h.tier, trivial⟩
  intro tp I hI
  rw [coldExtents_replaceCold hreplace (hexec.lt (hranges.cold_tiling _) hmerged)] at hI
  split at hI
  · rename_i htp
    rcases hI with rfl | ⟨hI, -⟩
    · rw [htp]
      exact h.live _ _ hlive
    · exact h.cold tp I hI
  · exact h.cold tp I hI

theorem collect (h : Presence manifest index objects tiering compaction)
    (hT : ∀ tp, Tiling (liveExtents manifest tp))
    (hcold : ∀ tp, ∀ I ∈ coldExtents index tp, I ∈ liveExtents manifest tp)
    (hkeep : KeepsUnswallowed (liveExtents manifest) objects objects')
    (hcompaction : CompactionPresent objects' compaction') :
    Presence manifest index objects' tiering compaction' := by
  have hlive : ∀ tp, ∀ I ∈ liveExtents manifest tp, Present objects' tp I := fun tp I hI =>
    (hkeep tp I (h.live tp I hI)).resolve_right fun hsw => (hT tp).not_mem_of_swallowed hsw hI
  exact ⟨hlive, fun tp I hI => hlive tp I (hcold tp I hI), h.tier.mono (fun _ _ hsw => hsw) hkeep,
    hcompaction⟩

theorem compactStep {label : CompactLabel}
    (h : Presence s.manifest s.index s.objects tiering compaction)
    (hranges : Ranges s.manifest s.index tiering compaction)
    (hwhole : label = .advance → compaction.Whole cfg)
    (hstep : CompactStep cfg s compaction label s' compaction') :
    Presence s'.manifest s'.index s'.objects tiering compaction' := by
  cases hstep with
  | upload hend hupload =>
    obtain ⟨hgrow, hown⟩ := present_uploadRecords hupload
    obtain ⟨data, objects, -, rfl, -, -⟩ := uploadRecords_cases hupload
    exact h.grow hgrow (h.tier.mono (fun _ _ hsw => hsw) fun tp I hI => .inl (hgrow tp I hI))
      (hown (hwhole rfl))
  | record => exact h.record hranges
  | replace hreplace => exact h.replace hranges hreplace
  | @delete key keys plans deleted =>
    refine h.collect hranges.live_tiling
      (fun tp I hI => (hranges.cold_live tp I hI).resolve_right id) ?_ trivial
    split
    · exact .delete (hranges.compaction.2 key List.mem_cons_self)
    · exact .refl
  | start | plan | planned | cycleDone | skip | execute | download | downloadErr | mismatch
  | replacePanic | planDone | abortDownloading | abortUploaded => exact h.moveCompaction trivial

theorem restart {load : LoadResult} {records : List WalRecord}
    (h : Presence manifest index objects tiering compaction)
    (hranges : Ranges manifest index tiering compaction) (hload : fold manifest = some load) :
    Presence manifest
      (PartitionStore.indexHot cfg records (PartitionStore.indexCold load.live .new))
      (PartitionStore.collectOrphans load.orphanObjectKeys deleted objects) .idle .idle := by
  have hkeep : KeepsUnswallowed (liveExtents manifest) objects
      (PartitionStore.collectOrphans load.orphanObjectKeys deleted objects) := by
    refine .collectOrphans ?_
    rw [orphanObjectKeys_of_fold hload]
    exact hranges.orphans
  have hlive : ∀ tp, ∀ I ∈ liveExtents manifest tp, Present _ tp I := fun tp I hI =>
    (hkeep tp I (h.live tp I hI)).resolve_right fun hsw =>
      (hranges.live_tiling tp).not_mem_of_swallowed hsw hI
  have hindex : Ranges manifest
      (PartitionStore.indexHot cfg records (PartitionStore.indexCold load.live .new)) .idle .idle :=
    hranges.restart hload records
  exact ⟨hlive, fun tp I hI => hlive tp I ((hindex.cold_live tp I hI).resolve_right id), trivial,
    trivial⟩

end Presence

/-! ## Whole runs -/

def Engine.Presence (e : Engine) : Prop :=
  Store.Presence e.store.manifest e.store.index e.store.objects e.tiering e.compaction

theorem Engine.Presence.step {e e' : Engine} {label : Label} (h : e.Ranges ∧ e.Presence)
    (hkeeps : KeepsObjects cfg e label) (hstep : e.step cfg label = some e') :
    e'.Ranges ∧ e'.Presence := by
  obtain ⟨hranges, hpresence⟩ := h
  obtain ⟨hfits, hwhole⟩ := hkeeps
  refine ⟨hranges.step hfits hstep, ?_⟩
  cases Engine.step_cases hstep with
  | client hclient => exact Store.Presence.client hpresence hclient
  | tier htier =>
    exact Store.Presence.tierStep hpresence hranges (fun heq => by subst heq; exact hfits)
      (fun heq => by subst heq; exact hwhole) htier
  | compact hcompact =>
    exact Store.Presence.compactStep hpresence hranges (fun heq => by subst heq; exact hwhole)
      hcompact
  | restart hkept hload => exact Store.Presence.restart hpresence hranges hload

/-- **Every key of the cold index names a present object**, if tiering only registers and flips
ranges that fit and no upload is split into parts. -/
theorem cold_keys_present (cfg : StoreConfig) (labels : List Label) (e : Engine)
    (hkeeps : Along (Engine.step cfg) (KeepsObjects cfg) (.boot .empty) labels)
    (hexec : exec (Engine.step cfg) (.boot .empty) labels = some e)
    (tp : TopicPartition) (start : Nat) (range : ObjectRange)
    (hrange : (e.store.index.cold tp).get? start = some range) :
    (e.store.objects range.objectKey).isSome := by
  have hboot : (Engine.boot .empty).Ranges ∧ (Engine.boot .empty).Presence :=
    ⟨Store.Ranges.empty, Store.Presence.empty⟩
  obtain ⟨hranges, hpresence⟩ := exec_invariant (I := fun e => e.Ranges ∧ e.Presence)
    (fun _ _ _ h hP => Engine.Presence.step h hP) hboot hkeeps hexec
  rw [hranges.cold_keyed tp start range hrange]
  exact hpresence.cold tp (start, range.endOffset) ⟨range, hrange, rfl⟩

theorem cold_keys_present_mergedBesideFenced :
    ∃ e range, exec (Engine.step fencedConfig) (.boot .empty) mergedBesideFenced = some e ∧
      (e.store.index.cold ⟨"a", 0⟩).get? 0 = some range ∧
      (e.store.objects range.objectKey).isSome := by
  have hsome : ((exec (Engine.step fencedConfig) (.boot .empty) mergedBesideFenced).bind fun e =>
      (e.store.index.cold ⟨"a", 0⟩).get? 0).isSome = true := by decide +kernel
  obtain ⟨range, hrange⟩ := Option.isSome_iff_exists.mp hsome
  obtain ⟨e, he, hget⟩ := Option.bind_eq_some_iff.mp hrange
  exact ⟨e, range, he, hget, cold_keys_present fencedConfig mergedBesideFenced e
    (by decide +kernel) he ⟨"a", 0⟩ 0 range hget⟩

/-- The kept segment is tiered once more before the two sources are deleted, and the deletion takes
the object that the index points to. -/
theorem retiered_then_deleted : (exec (Engine.step fencedConfig) (.boot .empty)
      (replacedBesideFenced ++ keptSegment ++ deletedSources)).any (fun e =>
        (e.store.index.cold ⟨"a", 0⟩).entries.any fun entry =>
          (e.store.objects entry.2.objectKey).isNone) = true := by
  decide +kernel

end RustMq.Store
