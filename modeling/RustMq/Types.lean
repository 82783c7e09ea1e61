import RustMq.Lib.Framing

/-!
# The record types, and their bincode format

The types of `src/types.rs` that the storage engine moves around, and the bytes
`bincode::serialize` writes for a `WalRecord`: fixed-width little-endian integers, strings and
byte strings behind a 64-bit length, options behind a one-byte tag, sequences behind a 64-bit
count, the fields of a structure one after another. `bincode::deserialize` is
`Codec.decode`: it reads one value and ignores the bytes behind it.

Integers are naturals here and the widths of the Rust fields are in the codec: a record
`Fits` when every field is in the range of its Rust type and the encoding is a `Vec<u8>` the
machine can hold. So `walRecordCodec.Val` is the Rust type `WalRecord`, while the layers above
that only compare and add offsets work on `WalRecord` itself.
-/

namespace RustMq

open Lib

/-- A partition of a topic (`partition` is a `u32`). -/
structure TopicPartition where
  topic : String
  partition : Nat
  deriving DecidableEq

instance : ToString TopicPartition where
  toString tp := tp.topic ++ ":" ++ toString tp.partition

structure Header where
  key : String
  value : List UInt8
  deriving DecidableEq

structure Record where
  key : Option (List UInt8)
  value : List UInt8
  headers : List Header
  timestamp : Int
  deriving DecidableEq

/-- A record as the log stores it (`offset` is a `u64`, `crc32` a `u32`). -/
structure WalRecord where
  topicPartition : TopicPartition
  offset : Nat
  record : Record
  crc32 : Nat
  deriving DecidableEq

/-- Where a record body lies in the segmented log. -/
structure PhysicalLocation where
  walSegmentSeq : Nat
  fileOffset : Nat
  frameLen : Nat
  deriving DecidableEq

inductive RustMqError where
  | io
  | serialization
  | storage (message : String)
  | notFound (message : String)
  | partitionNotFound (partition : String)
  | notLeader (partition : String)
  | offsetOutOfRange (message : String)
  | staleLeaderEpoch (requestEpoch currentEpoch : Nat)
  | invalidOperation (message : String)
  deriving DecidableEq

/-! ## bincode -/

def topicPartitionCodec : Codec TopicPartition :=
  (Codec.string.pair (.uint 4)).iso (fun p => ⟨p.1, p.2⟩) (fun t => (t.topic, t.partition))
    fun _ => rfl

def headerCodec : Codec Header :=
  (Codec.string.pair .bytes).iso (fun p => ⟨p.1, p.2⟩) (fun h => (h.key, h.value)) fun _ => rfl

def recordCodec : Codec Record :=
  ((Codec.option .bytes).pair (Codec.bytes.pair ((Codec.list headerCodec).pair (.sint 8)))).iso
    (fun p => ⟨p.1, p.2.1, p.2.2.1, p.2.2.2⟩)
    (fun r => (r.key, r.value, r.headers, r.timestamp)) fun _ => rfl

def walRecordFields : Codec WalRecord :=
  (topicPartitionCodec.pair ((Codec.uint 8).pair (recordCodec.pair (.uint 4)))).iso
    (fun p => ⟨p.1, p.2.1, p.2.2.1, p.2.2.2⟩)
    (fun r => (r.topicPartition, r.offset, r.record, r.crc32)) fun _ => rfl

theorem walRecordFields_enc_ne_nil (r : WalRecord) : walRecordFields.enc r ≠ [] := by
  intro h
  have hlen := congrArg List.length h
  simp only [walRecordFields, topicPartitionCodec, Codec.iso, Codec.pair, Codec.string,
    Codec.bytes, List.length_append, length_leBytes, List.length_nil] at hlen
  omega

theorem walRecordFields_decFits : walRecordFields.DecFits := by
  have htp : topicPartitionCodec.DecFits :=
    (Codec.decFits_string.pair (Codec.decFits_uint 4)).iso _ fun _ => rfl
  have hheader : headerCodec.DecFits :=
    (Codec.decFits_string.pair Codec.decFits_bytes).iso _ fun _ => rfl
  have hrecord : recordCodec.DecFits :=
    (Codec.decFits_bytes.option.pair (Codec.decFits_bytes.pair
      (hheader.list.pair (Codec.decFits_sint 8)))).iso _ fun _ => rfl
  exact (htp.pair ((Codec.decFits_uint 8).pair (hrecord.pair (Codec.decFits_uint 4)))).iso _
    fun _ => rfl

theorem walRecordFields_fits {r : WalRecord} (hheaders : r.record.headers = [])
    (htopic : r.topicPartition.topic.toUTF8.data.toList.length < 256 ^ 8)
    (hpartition : r.topicPartition.partition < 256 ^ 4) (hoffset : r.offset < 256 ^ 8)
    (hkey : (r.record.key.map List.length).getD 0 < 256 ^ 8)
    (hvalue : r.record.value.length < 256 ^ 8)
    (hlo : -(256 ^ 8 : Int) ≤ 2 * r.record.timestamp)
    (hhi : 2 * r.record.timestamp < 256 ^ 8) (hcrc : r.crc32 < 256 ^ 4) :
    walRecordFields.Fits r := by
  have hnone : (Codec.list headerCodec).Fits r.record.headers := by
    rw [hheaders]
    exact Codec.list_fits_nil headerCodec
  refine ⟨⟨htopic, hpartition⟩, hoffset, ⟨fun key hsome => ?_, hvalue, hnone, hlo, hhi⟩, hcrc⟩
  have heq : r.record.key = some key := hsome
  rw [heq] at hkey
  exact hkey

theorem walRecordFields_fits_value {topic : String} {offset : Nat} {value : List UInt8}
    (htopic : topic.toUTF8.data.toList.length < 256 ^ 8) (hoffset : offset < 256 ^ 8)
    (hvalue : value.length < 256 ^ 8) :
    walRecordFields.Fits ⟨⟨topic, 0⟩, offset, ⟨none, value, [], 0⟩, 0⟩ := by
  have hzero : 0 < 256 ^ 4 := by decide
  have hkey : 0 < 256 ^ 8 := by decide
  have hlo : -(256 ^ 8 : Int) ≤ 2 * 0 := by decide
  have hhi : (2 * 0 : Int) < 256 ^ 8 := by decide
  exact walRecordFields_fits rfl htopic hzero hoffset hkey hvalue hlo hhi hzero

/-- The bincode format of a `WalRecord`, on the values of the Rust type: a serialized body is a
`Vec<u8>`, so its length is at most `isize::MAX`. -/
def walRecordCodec : FramedCodec WalRecord where
  toCodec := walRecordFields.restrict fun r => (walRecordFields.enc r).length < 2 ^ 63
  enc_ne_nil := walRecordFields_enc_ne_nil
  enc_length_lt r h := by
    have hlt : (walRecordFields.enc r).length < 2 ^ 63 := h.2
    exact lt_trans hlt (by norm_num)

end RustMq
