import RustMq.Lib.CheckedFrames
import RustMq.Lib.Runs
import RustMq.Store.Manifest
import RustMq.Store.Objects

/-!
# The manifest file

`ColdIndexManifest` (`src/storage/cold_index.rs`) down to its bytes. `append_record` writes one
frame and syncs; the write may fail after any part of the frame, and the sync after all of it. A
crash keeps what was synced and any part of the rest. `load`, at the next start, scans the frames
from the front, cuts the file behind the last good one, and replays the records.
-/

namespace RustMq.Store

open Lib List

/-! ## The format -/

def coldSegmentCodec : Codec ColdSegment :=
  (topicPartitionCodec.pair ((Codec.uint 8).pair ((Codec.uint 8).pair
    (Codec.string.pair (.uint 8))))).iso
    (fun p => ⟨p.1, p.2.1, p.2.2.1, p.2.2.2.1, p.2.2.2.2⟩)
    (fun s => (s.topicPartition, s.startOffset, s.endOffset, s.objectKey, s.sizeBytes))
    fun _ => rfl

def manifestRecordCodec : Codec ManifestRecord :=
  (coldSegmentCodec.either (coldSegmentCodec.pair (Codec.list .string))).iso
    (fun
      | .inl segment => .register segment
      | .inr p => .compact p.1 p.2)
    (fun
      | .register segment => .inl segment
      | .compact merged sources => .inr (merged, sources))
    fun
      | .register _ => rfl
      | .compact _ _ => rfl

def manifestFormat : CheckedFormat ManifestRecord where
  codec := manifestRecordCodec
  checksum bytes := (crc32 bytes).toNat
  checksum_lt _ := UInt32.toNat_lt _

/-! ## The file -/

/-- The replay of a `load`, with the records that were acknowledged before it. -/
structure Replay where
  acked : List ManifestRecord
  records : List ManifestRecord

structure ManifestFile where
  bytes : List UInt8
  /-- How many of the bytes are on the disk for sure. -/
  synced : Nat
  /-- The records whose call returned `Ok`, in append order. -/
  acked : List ManifestRecord
  replays : List Replay

inductive WriteOutcome where
  | ok
  /-- The write fails after the first `written` bytes of the frame. -/
  | writeFailed (written : Nat)
  | syncFailed
  deriving DecidableEq

inductive ManifestLabel where
  /-- `register` or `record_compaction`, on a value of the Rust type. -/
  | append (record : manifestRecordCodec.Val) (outcome : WriteOutcome)
  /-- A crash that leaves the first `kept` bytes, then `open` and `load`. -/
  | restart (kept : Nat)

namespace ManifestFile

def scan (bytes : List UInt8) : List ManifestRecord × Nat :=
  manifestFormat.scan bytes.length bytes

def step (file : ManifestFile) : ManifestLabel → Option ManifestFile
  | .append record .ok =>
    let bytes := file.bytes ++ manifestFormat.frame record.1
    some { file with bytes := bytes, synced := bytes.length, acked := file.acked ++ [record.1] }
  | .append record (.writeFailed written) =>
    if written < (manifestFormat.frame record.1).length then
      some { file with bytes := file.bytes ++ (manifestFormat.frame record.1).take written }
    else none
  | .append record .syncFailed =>
    some { file with bytes := file.bytes ++ manifestFormat.frame record.1 }
  | .restart kept =>
    if file.synced ≤ kept ∧ kept ≤ file.bytes.length then
      let bytes := file.bytes.take kept
      let loaded := scan bytes
      some { file with
        bytes := bytes.take loaded.2
        synced := loaded.2
        replays := file.replays ++ [⟨file.acked, loaded.1⟩] }
    else none

def empty : ManifestFile := ⟨[], 0, [], []⟩

end ManifestFile

/-! ## The condition -/

/-- An append starts on a file of whole frames, and its frame can be read back: the length of the
body is written as a `u32`. -/
def AppendsClean (file : ManifestFile) : ManifestLabel → Prop
  | .append record _ => (ManifestFile.scan file.bytes).2 = file.bytes.length ∧
      (manifestRecordCodec.enc record.1).length < 256 ^ 4
  | .restart _ => True

instance (file : ManifestFile) (label) : Decidable (AppendsClean file label) := by
  unfold AppendsClean
  split <;> infer_instance

/-! ## The invariant -/

/-- The file is a run of frames and torn bytes; the acknowledged records are among the frames that
are synced. -/
structure FileInv (file : ManifestFile) : Prop where
  synced : file.synced ≤ file.bytes.length
  frames : ∃ records part, file.bytes = manifestFormat.frames records ++ part ∧
    (∀ r ∈ records, manifestFormat.Storable r) ∧ manifestFormat.Torn part ∧
    ∃ k ≤ records.length, (manifestFormat.frames (records.take k)).length ≤ file.synced ∧
      file.acked.Sublist (records.take k)
  replays : ∀ replay ∈ file.replays, replay.acked.Sublist replay.records

theorem torn_nil : manifestFormat.Torn [] := by
  refine .nil (a := .register ⟨⟨"", 0⟩, 0, 0, "", 0⟩) ⟨?_, by decide⟩
  have hempty : Codec.string.Fits "" := by
    show "".toUTF8.data.toList.length < 256 ^ 8
    decide
  have hzero : ∀ w, (Codec.uint w).Fits 0 := fun w => Nat.pow_pos (by decide)
  exact ⟨⟨hempty, hzero 4⟩, hzero 8, hzero 8, hempty, hzero 8⟩

theorem scan_of_frames {records : List ManifestRecord} {part : List UInt8}
    (hstorable : ∀ r ∈ records, manifestFormat.Storable r) (hpart : manifestFormat.Torn part) :
    ManifestFile.scan (manifestFormat.frames records ++ part) =
      (records, (manifestFormat.frames records).length) := by
  refine CheckedFormat.scan_frames hstorable hpart ?_
  rw [length_append]
  exact (manifestFormat.length_le_length_frames records).trans (Nat.le_add_right _ _)

namespace FileInv

variable {file file' : ManifestFile}

theorem empty : FileInv .empty where
  synced := le_rfl
  frames := ⟨[], [], rfl, fun _ h => (nomatch h), torn_nil, 0, le_rfl, le_rfl, List.Sublist.refl _⟩
  replays _ h := nomatch h

theorem whole (h : FileInv file) (hclean : (ManifestFile.scan file.bytes).2 = file.bytes.length) :
    ∃ records, file.bytes = manifestFormat.frames records ∧
      (∀ r ∈ records, manifestFormat.Storable r) ∧
      ∃ k ≤ records.length, (manifestFormat.frames (records.take k)).length ≤ file.synced ∧
        file.acked.Sublist (records.take k) := by
  obtain ⟨records, part, hbytes, hstorable, hpart, hacked⟩ := h.frames
  rw [hbytes, scan_of_frames hstorable hpart, length_append] at hclean
  have hnil : part = [] := length_eq_zero_iff.mp (by
    have : (manifestFormat.frames records).length =
      (manifestFormat.frames records).length + part.length := hclean
    omega)
  exact ⟨records, by rw [hbytes, hnil, append_nil], hstorable, hacked⟩

theorem append (h : FileInv file) {record : manifestRecordCodec.Val} {outcome : WriteOutcome}
    (hclean : AppendsClean file (.append record outcome))
    (hstep : file.step (.append record outcome) = some file') : FileInv file' := by
  obtain ⟨records, hbytes, hstorable, k, hk, hsynced, hacked⟩ := h.whole hclean.1
  have hnew : manifestFormat.Storable record.1 := ⟨record.2, hclean.2⟩
  have hall : ∀ r ∈ records ++ [record.1], manifestFormat.Storable r := by
    intro r hr
    rcases mem_append.mp hr with hr | hr
    · exact hstorable r hr
    · rw [mem_singleton.mp hr]
      exact hnew
  have hframes : file.bytes ++ manifestFormat.frame record.1 =
      manifestFormat.frames (records ++ [record.1]) ++ [] := by
    rw [hbytes, CheckedFormat.frames_append, CheckedFormat.frames_singleton, append_nil]
  have htake : (records ++ [record.1]).take k = records.take k :=
    take_append_of_le_length hk
  cases outcome with
  | ok =>
    cases hstep
    refine ⟨le_rfl, ⟨_, [], hframes, hall, torn_nil, records.length + 1, ?_, ?_, ?_⟩, h.replays⟩
    · rw [length_append, length_singleton]
    · rw [take_of_length_le (by rw [length_append, length_singleton])]
      show _ ≤ (file.bytes ++ manifestFormat.frame record.1).length
      rw [hframes, append_nil]
    · rw [take_of_length_le (by rw [length_append, length_singleton])]
      exact (hacked.trans (take_sublist k records)).append (Sublist.refl _)
  | writeFailed written =>
    simp only [ManifestFile.step] at hstep
    split at hstep
    · rename_i hlt
      cases hstep
      refine ⟨?_, ⟨records, _, ?_, hstorable, CheckedFormat.Torn.take_frame hnew hlt, k, hk,
        hsynced, hacked⟩, h.replays⟩
      · show file.synced ≤ (file.bytes ++ _).length
        rw [length_append]
        exact h.synced.trans (Nat.le_add_right _ _)
      · show file.bytes ++ _ = _
        rw [hbytes]
    · cases hstep
  | syncFailed =>
    cases hstep
    refine ⟨?_, ⟨_, [], hframes, hall, torn_nil, k, ?_, ?_, ?_⟩, h.replays⟩
    · show file.synced ≤ (file.bytes ++ _).length
      rw [length_append]
      exact h.synced.trans (Nat.le_add_right _ _)
    · rw [length_append]
      exact hk.trans (Nat.le_add_right _ _)
    · rw [htake]
      exact hsynced
    · rw [htake]
      exact hacked

/-- **The next load replays what was acknowledged** and leaves a file of whole frames. -/
theorem restart (h : FileInv file) {kept : Nat} (hstep : file.step (.restart kept) = some file') :
    FileInv file' := by
  simp only [ManifestFile.step] at hstep
  split at hstep
  · rename_i hkept
    cases hstep
    obtain ⟨records, part, hbytes, hstorable, hpart, k, hk, hsynced, hacked⟩ := h.frames
    obtain ⟨j, part', hcut, hpart', hmax⟩ :=
      CheckedFormat.exists_take_frames hstorable hpart kept
    have hkj : k ≤ j := hmax k hk (hsynced.trans hkept.1)
    have hstorable' : ∀ r ∈ records.take j, manifestFormat.Storable r :=
      fun r hr => hstorable r (mem_of_mem_take hr)
    have hscan : ManifestFile.scan (file.bytes.take kept) =
        (records.take j, (manifestFormat.frames (records.take j)).length) := by
      rw [hbytes, hcut, scan_of_frames hstorable' hpart']
    have hsub : file.acked.Sublist (records.take j) :=
      hacked.trans (take_sublist_take_left hkj)
    have hleft : (file.bytes.take kept).take (manifestFormat.frames (records.take j)).length =
        manifestFormat.frames (records.take j) := by
      rw [hbytes, hcut, take_left]
    simp only [hscan, hleft]
    refine ⟨le_rfl, ⟨records.take j, [], (append_nil _).symm, hstorable', torn_nil,
      (records.take j).length, le_rfl, ?_, ?_⟩, fun replay hreplay => ?_⟩
    · rw [take_length]
    · rw [take_length]
      exact hsub
    · rcases mem_append.mp hreplay with hreplay | hreplay
      · exact h.replays replay hreplay
      · rw [mem_singleton.mp hreplay]
        exact hsub
  · cases hstep

theorem step (h : FileInv file) {label : ManifestLabel} (hclean : AppendsClean file label)
    (hstep : file.step label = some file') : FileInv file' := by
  cases label with
  | append record outcome => exact h.append hclean hstep
  | restart kept => exact h.restart hstep

end FileInv

/-! ## The result -/

/-- **Every acknowledged record is replayed** by every later load, in order, if the appends start on
a clean file. -/
theorem acked_replayed {labels : List ManifestLabel} {file : ManifestFile}
    (hclean : Along ManifestFile.step AppendsClean .empty labels)
    (hexec : exec ManifestFile.step .empty labels = some file) :
    ∀ replay ∈ file.replays, replay.acked.Sublist replay.records :=
  (exec_invariant (I := FileInv) (fun _ _ _ h hP hs => h.step hP hs) .empty hclean hexec).replays

def ordersSegment (startOffset endOffset : Nat) : ColdSegment :=
  ⟨⟨"o", 0⟩, startOffset, endOffset, "k", 1⟩

theorem ordersSegment_fits {a b : Nat} (ha : a < 256 ^ 8) (hb : b < 256 ^ 8) :
    manifestRecordCodec.Fits (.register (ordersSegment a b)) := by
  have htopic : Codec.string.Fits "o" := by
    show "o".toUTF8.data.toList.length < 256 ^ 8
    decide
  have hkey : Codec.string.Fits "k" := by
    show "k".toUTF8.data.toList.length < 256 ^ 8
    decide
  exact ⟨⟨htopic, by show 0 < 256 ^ 4; decide⟩, ha, hb, hkey, by show 1 < 256 ^ 8; decide⟩

def registration (a b : Nat) (ha : a < 256 ^ 8) (hb : b < 256 ^ 8) : manifestRecordCodec.Val :=
  ⟨.register (ordersSegment a b), ordersSegment_fits ha hb⟩

/-- A failed write, and the next append only after a restart. -/
def cleanLife : List ManifestLabel :=
  [.append (registration 0 1 (by decide) (by decide)) (.writeFailed 1), .restart 1,
    .append (registration 0 1 (by decide) (by decide)) .ok, .restart 58]

theorem acked_replayed_cleanLife :
    ∃ file, exec ManifestFile.step .empty cleanLife = some file ∧ file.replays.length = 2 ∧
      file.acked = [.register (ordersSegment 0 1)] ∧
      ∀ replay ∈ file.replays, replay.acked.Sublist replay.records :=
  ⟨_, rfl, rfl, rfl, acked_replayed (by decide +kernel : Along _ AppendsClean _ cleanLife) rfl⟩

/-- A failed write, an append that is acknowledged, and a restart. -/
def tornLife : List ManifestLabel :=
  [.append (registration 0 1 (by decide) (by decide)) (.writeFailed 1),
    .append (registration 1 2 (by decide) (by decide)) .ok, .restart 59]

theorem acked_behind_torn : ∃ file, exec ManifestFile.step .empty tornLife = some file ∧
      file.acked = [.register (ordersSegment 1 2)] ∧
      file.replays = [⟨[.register (ordersSegment 1 2)], []⟩] :=
  ⟨_, rfl, rfl, rfl⟩

end RustMq.Store
