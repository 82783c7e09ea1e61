import RustMq.Lib.Decimal
import RustMq.Types

/-!
# Object storage and the upload manager

`UploadManagerImpl` of `src/storage/object_storage.rs` over an object storage that is an ideal map
from keys to bytes. A segment is compressed (cloud storage) or left as it is (local storage), a
CRC-32 goes behind it, and the object is stored under a key built from the partition and the offset
range. Above `multipart_threshold` the bytes are written in chunks under `{key}.part{i}` instead,
and never under the key itself.

The download checks the CRC, decompresses, and parses the key back into its parts: a key the
parser rejects makes the object unreadable even though it is there.
-/

namespace RustMq.Store

open Lib List Function

abbrev Bytes := List UInt8

/-! ## CRC-32 -/

def crc32Bit (crc : UInt32) : UInt32 :=
  if crc &&& 1 = 1 then (crc >>> 1) ^^^ 0xEDB88320 else crc >>> 1

def crc32Byte (crc : UInt32) (byte : UInt8) : UInt32 :=
  (List.range 8).foldl (fun c _ => crc32Bit c) (crc ^^^ byte.toUInt32)

def crc32 (data : Bytes) : UInt32 := ~~~ (data.foldl crc32Byte 0xFFFFFFFF)

def crcBytes (data : Bytes) : Bytes := leBytes 4 (crc32 data).toNat

/-! ## Configuration -/

structure Lz4 where
  compress : Bytes → Bytes
  decompress : Bytes → Except String Bytes
  decompress_compress : ∀ data, decompress (compress data) = .ok data

inductive StorageType where
  | s3
  | gcs
  | azure
  | localFs
  deriving DecidableEq

structure ObjectStorageConfig where
  storageType : StorageType
  multipartThreshold : Nat
  lz4 : Lz4

structure WalSegment where
  startOffset : Nat
  endOffset : Nat
  sizeBytes : Nat
  data : Bytes
  topicPartition : TopicPartition
  deriving DecidableEq

/-! ## Object storage -/

abbrev Objects := String → Option Bytes

namespace Objects

def put (objects : Objects) (key : String) (data : Bytes) : Objects :=
  Function.update objects key (some data)

def get (objects : Objects) (key : String) : Except RustMqError Bytes :=
  match objects key with
  | some data => .ok data
  | none => .error (.notFound key)

def delete (objects : Objects) (key : String) : Objects :=
  Function.update objects key none

end Objects

/-! ## Keys -/

def objectKey (tp : TopicPartition) (startOffset endOffset : Nat) : String :=
  "topics/" ++ tp.topic ++ "/" ++ toString tp.partition ++ "/" ++ toString startOffset ++ "_" ++
    toString endOffset ++ ".seg"

def partKey (key : String) (i : Nat) : String := key ++ ".part" ++ toString i

/-- `trim_end_matches(".seg")`, on the reversed text. -/
def trimStartGes : List Char → List Char
  | 'g' :: 'e' :: 's' :: '.' :: rest => trimStartGes rest
  | text => text

/-- What `download_segment` reads off an object key. -/
def parseObjectKey (key : String) : Except RustMqError (TopicPartition × Nat × Nat) :=
  match key.toList.splitOn '/' with
  | _ :: topic :: partition :: filename :: _ =>
    match Decimal.parseUnsigned (2 ^ 32) partition with
    | none => .error (.storage "Invalid partition")
    | some partition =>
      match filename.splitOn '_' with
      | startText :: endText :: _ =>
        match Decimal.parseUnsigned (2 ^ 64) startText with
        | none => .error (.storage "Invalid start offset")
        | some startOffset =>
          match Decimal.parseUnsigned (2 ^ 64) (trimStartGes endText.reverse).reverse with
          | none => .error (.storage "Invalid end offset")
          | some endOffset => .ok (⟨String.ofList topic, partition⟩, startOffset, endOffset)
      | _ => .error (.storage "Invalid filename format")
  | _ => .error (.storage "Invalid object key format")

/-! ## Upload and download -/

def compressSegment (cfg : ObjectStorageConfig) (data : Bytes) : Bytes :=
  match cfg.storageType with
  | .s3 | .gcs | .azure => cfg.lz4.compress data
  | .localFs => data

def decompressSegment (cfg : ObjectStorageConfig) (data : Bytes) : Except RustMqError Bytes :=
  match cfg.storageType with
  | .s3 | .gcs | .azure =>
    match cfg.lz4.decompress data with
    | .ok data => .ok data
    | .error e => .error (.storage e)
  | .localFs => .ok data

def dataWithCrc (cfg : ObjectStorageConfig) (data : Bytes) : Bytes :=
  compressSegment cfg data ++ crcBytes (compressSegment cfg data)

def isMultipart (cfg : ObjectStorageConfig) (data : Bytes) : Bool :=
  (dataWithCrc cfg data).length > cfg.multipartThreshold

def chunkSize : Nat := 5 * 1024 * 1024

def putParts (key : String) : Nat → List Bytes → Objects → Objects
  | _, [], objects => objects
  | i, chunk :: chunks, objects => putParts key (i + 1) chunks (objects.put (partKey key i) chunk)

/-- A successful `upload_segment`: the objects after it and the key it returns. -/
def uploadSegment (cfg : ObjectStorageConfig) (objects : Objects) (segment : WalSegment) :
    Objects × String :=
  let key := objectKey segment.topicPartition segment.startOffset segment.endOffset
  let data := dataWithCrc cfg segment.data
  if isMultipart cfg segment.data then (putParts key 0 (data.toChunks chunkSize) objects, key)
  else (objects.put key data, key)

def downloadSegment (cfg : ObjectStorageConfig) (objects : Objects) (key : String) :
    Except RustMqError WalSegment := do
  let stored ← objects.get key
  if stored.length < 4 then .error (.storage "Segment file too small")
  else
    let valid := stored.take (stored.length - 4)
    if (crc32 valid).toNat ≠ ofLe (stored.drop (stored.length - 4)) then
      .error (.storage "Segment checksum mismatch")
    else
      let data ← decompressSegment cfg valid
      let (tp, startOffset, endOffset) ← parseObjectKey key
      .ok ⟨startOffset, endOffset, data.length, data, tp⟩

/-! ## Records in a segment -/

def walRecordsCodec : Codec (List WalRecord) := Codec.list walRecordFields

/-- `bincode::serialize(&records)`. No `Vec<u8>` is longer than `isize::MAX`. -/
def serializeRecords (records : List WalRecord) : Except RustMqError Bytes :=
  if (walRecordsCodec.enc records).length < 2 ^ 63 then .ok (walRecordsCodec.enc records)
  else .error .serialization

def deserializeRecords (data : Bytes) : Except RustMqError (List WalRecord) :=
  match walRecordsCodec.decode data with
  | some records => .ok records
  | none => .error .serialization

/-! ## Keys are told apart -/

theorem reverse_toList_objectKey (tp : TopicPartition) (startOffset endOffset : Nat) :
    (objectKey tp startOffset endOffset).toList.reverse =
      ".seg".toList.reverse ++ ((Nat.toDigits 10 endOffset).reverse ++ '_' ::
        ((Nat.toDigits 10 startOffset).reverse ++ '/' ::
          ((Nat.toDigits 10 tp.partition).reverse ++ '/' ::
            (tp.topic.toList.reverse ++ "topics/".toList.reverse)))) := by
  unfold objectKey
  simp only [String.toList_append, Decimal.toList_toString, reverse_append, append_assoc]
  rfl

variable {tp tp' : TopicPartition} {a b : Nat} {data : Bytes}

/-- **Different ranges have different keys**, whatever characters the topic has. -/
theorem objectKey_inj {a' b' : Nat} (h : objectKey tp a b = objectKey tp' a' b') :
    tp = tp' ∧ a = a' ∧ b = b' := by
  have hrev := congrArg (fun key => key.toList.reverse) h
  simp only [reverse_toList_objectKey] at hrev
  have hseg := append_cancel_left hrev
  obtain ⟨hb, -, hrest⟩ := Decimal.reverse_append_cons_inj (by decide) (by decide) hseg
  obtain ⟨ha, -, hrest⟩ := Decimal.reverse_append_cons_inj (by decide) (by decide) hrest
  obtain ⟨hp, -, hrest⟩ := Decimal.reverse_append_cons_inj (by decide) (by decide) hrest
  have htopic := String.toList_inj.mp (reverse_injective (append_cancel_right hrest))
  exact ⟨by cases tp; cases tp'; cases htopic; cases hp; rfl, ha, hb⟩

theorem partKey_ne_objectKey (key : String) (i : Nat) (tp : TopicPartition) (a b : Nat) :
    partKey key i ≠ objectKey tp a b := by
  intro h
  have hrev := congrArg (fun key => key.toList.reverse.head?) h
  simp only [reverse_toList_objectKey, partKey, String.toList_append, Decimal.toList_toString,
    reverse_append, append_assoc] at hrev
  cases hd : (Nat.toDigits 10 i).reverse with
  | nil => exact Nat.toDigits_ne_nil (reverse_eq_nil_iff.mp hd)
  | cons c cs =>
    rw [hd, cons_append, head?_cons] at hrev
    have hg : c = 'g' := Option.some.inj hrev
    have hmem : c ∈ Nat.toDigits 10 i := mem_reverse.mp (by rw [hd]; exact mem_cons_self)
    exact Decimal.not_mem (by rw [hg]; decide) hmem

/-- The name of the cache entry for a read of `tp` at `offset` (`format!("{tp}:{offset}")`). -/
def cacheKey (tp : TopicPartition) (offset : Nat) : String := toString tp ++ ":" ++ toString offset

theorem cacheKey_inj {a' : Nat} (h : cacheKey tp a = cacheKey tp' a') : tp = tp' ∧ a = a' := by
  have hrev := congrArg (fun key => key.toList.reverse) h
  have hform : ∀ (tp : TopicPartition) (a : Nat), (cacheKey tp a).toList.reverse =
      (Nat.toDigits 10 a).reverse ++ ':' :: ((Nat.toDigits 10 tp.partition).reverse ++ ':' ::
        tp.topic.toList.reverse) := by
    intro tp a
    show (tp.topic ++ ":" ++ toString tp.partition ++ ":" ++ toString a).toList.reverse = _
    simp only [String.toList_append, Decimal.toList_toString, reverse_append, append_assoc]
    rfl
  simp only [hform] at hrev
  obtain ⟨ha, -, hrest⟩ := Decimal.reverse_append_cons_inj (by decide) (by decide) hrev
  obtain ⟨hp, -, hrest⟩ := Decimal.reverse_append_cons_inj (by decide) (by decide) hrest
  have htopic := String.toList_inj.mp (reverse_injective hrest)
  exact ⟨by cases tp; cases tp'; cases htopic; cases hp; rfl, ha⟩

/-- **The download reads the key back**, when the topic has no slash. -/
theorem parseObjectKey_objectKey (htopic : '/' ∉ tp.topic.toList) (hp : tp.partition < 2 ^ 32)
    (ha : a < 2 ^ 64) (hb : b < 2 ^ 64) : parseObjectKey (objectKey tp a b) = .ok (tp, a, b) := by
  let filename := Nat.toDigits 10 a ++ '_' :: (Nat.toDigits 10 b ++ ".seg".toList)
  have hkey : (objectKey tp a b).toList =
      ['/'].intercalate ["topics".toList, tp.topic.toList, Nat.toDigits 10 tp.partition,
        filename] := by
    unfold objectKey
    simp only [String.toList_append, Decimal.toList_toString, filename, intercalate]
    simp
  have hsplit : (objectKey tp a b).toList.splitOn '/' =
      ["topics".toList, tp.topic.toList, Nat.toDigits 10 tp.partition, filename] := by
    rw [hkey]
    refine splitOn_intercalate '/' ?_ (by simp)
    intro l hl
    simp only [mem_cons, not_mem_nil, or_false] at hl
    rcases hl with rfl | rfl | rfl | rfl
    · decide
    · exact htopic
    · exact Decimal.not_mem (by decide)
    · have ha' : '/' ∉ Nat.toDigits 10 a := Decimal.not_mem (by decide)
      have hb' : '/' ∉ Nat.toDigits 10 b := Decimal.not_mem (by decide)
      simp [filename, ha', hb']
  have hfile : filename.splitOn '_' = [Nat.toDigits 10 a, Nat.toDigits 10 b ++ ".seg".toList] := by
    have hinter : filename =
        ['_'].intercalate [Nat.toDigits 10 a, Nat.toDigits 10 b ++ ".seg".toList] := by
      simp [filename, intercalate]
    rw [hinter]
    refine splitOn_intercalate '_' ?_ (by simp)
    intro l hl
    simp only [mem_cons, not_mem_nil, or_false] at hl
    have hb' : '_' ∉ Nat.toDigits 10 b := Decimal.not_mem (by decide)
    rcases hl with rfl | rfl
    · exact Decimal.not_mem (by decide)
    · simp [hb']
  have htrim : (trimStartGes (Nat.toDigits 10 b ++ ".seg".toList).reverse).reverse =
      Nat.toDigits 10 b := by
    have hges : (Nat.toDigits 10 b ++ ".seg".toList).reverse =
        'g' :: 'e' :: 's' :: '.' :: (Nat.toDigits 10 b).reverse := by
      rw [reverse_append]; rfl
    rw [hges, trimStartGes]
    cases hd : (Nat.toDigits 10 b).reverse with
    | nil => rw [reverse_eq_nil_iff.mp hd]; rfl
    | cons c cs =>
      have hg : c ≠ 'g' := by
        intro hg
        have hmem : c ∈ Nat.toDigits 10 b :=
          mem_reverse.mp (by rw [hd]; exact mem_cons_self)
        exact Decimal.not_mem (by rw [hg]; decide) hmem
      have hstop : trimStartGes (c :: cs) = c :: cs := by
        unfold trimStartGes
        split
        · rename_i heq
          exact absurd (cons.inj heq).1 hg
        · rfl
      rw [hstop, ← hd, reverse_reverse]
  unfold parseObjectKey
  simp only [hsplit, hfile, htrim, Decimal.parseUnsigned_toDigits hp,
    Decimal.parseUnsigned_toDigits ha, Decimal.parseUnsigned_toDigits hb, String.ofList_toList]

/-! ## What an upload stores -/

theorem putParts_objectKey (key : String) (i : Nat) (chunks : List Bytes) (objects : Objects)
    (tp : TopicPartition) (a b : Nat) :
    putParts key i chunks objects (objectKey tp a b) = objects (objectKey tp a b) := by
  induction chunks generalizing i objects with
  | nil => rfl
  | cons chunk chunks ih =>
    rw [putParts, ih, Objects.put, update_of_ne (partKey_ne_objectKey key i tp a b).symm]

theorem uploadSegment_key (cfg : ObjectStorageConfig) (objects : Objects) (segment : WalSegment) :
    (uploadSegment cfg objects segment).2 =
      objectKey segment.topicPartition segment.startOffset segment.endOffset := by
  unfold uploadSegment
  split <;> rfl

theorem uploadSegment_objects (cfg : ObjectStorageConfig) (objects : Objects)
    (segment : WalSegment) (tp : TopicPartition) (a b : Nat) :
    (uploadSegment cfg objects segment).1 (objectKey tp a b) =
      if isMultipart cfg segment.data = false ∧ tp = segment.topicPartition ∧
          a = segment.startOffset ∧ b = segment.endOffset then
        some (dataWithCrc cfg segment.data)
      else objects (objectKey tp a b) := by
  unfold uploadSegment
  by_cases hmulti : isMultipart cfg segment.data = true
  · rw [if_pos hmulti, if_neg fun h => absurd (hmulti.symm.trans h.1) (by decide)]
    exact putParts_objectKey _ _ _ _ tp a b
  · simp only [if_neg hmulti, Objects.put]
    have hfalse : isMultipart cfg segment.data = false := by simpa using hmulti
    by_cases hsame : tp = segment.topicPartition ∧ a = segment.startOffset ∧ b = segment.endOffset
    · obtain ⟨rfl, rfl, rfl⟩ := hsame
      rw [update_self, if_pos ⟨hfalse, rfl, rfl, rfl⟩]
    · rw [if_neg fun h => hsame h.2, update_of_ne]
      exact fun h => hsame (objectKey_inj h)

theorem decompressSegment_compressSegment (cfg : ObjectStorageConfig) (data : Bytes) :
    decompressSegment cfg (compressSegment cfg data) = .ok data := by
  unfold decompressSegment compressSegment
  cases cfg.storageType with
  | s3 | gcs | azure => simp only [cfg.lz4.decompress_compress]
  | localFs => rfl

/-- **Upload and download round-trip** for an object stored whole under a key that parses. -/
theorem downloadSegment_of_stored {cfg : ObjectStorageConfig} {objects : Objects}
    (hstored : objects (objectKey tp a b) = some (dataWithCrc cfg data))
    (hparse : parseObjectKey (objectKey tp a b) = .ok (tp, a, b)) :
    downloadSegment cfg objects (objectKey tp a b) = .ok ⟨a, b, data.length, data, tp⟩ := by
  have hlen : (crcBytes (compressSegment cfg data)).length = 4 := length_leBytes 4 _
  have hlt : (crc32 (compressSegment cfg data)).toNat < 256 ^ 4 := UInt32.toNat_lt _
  have hcut : (dataWithCrc cfg data).length - 4 = (compressSegment cfg data).length := by
    rw [dataWithCrc, length_append, hlen, Nat.add_sub_cancel]
  have hsmall : ¬ (dataWithCrc cfg data).length < 4 := by
    rw [dataWithCrc, length_append, hlen]; omega
  have htake : (dataWithCrc cfg data).take (compressSegment cfg data).length =
      compressSegment cfg data := take_left
  have hdrop : (dataWithCrc cfg data).drop (compressSegment cfg data).length =
      crcBytes (compressSegment cfg data) := drop_left
  have hcrc : ofLe (crcBytes (compressSegment cfg data)) =
      (crc32 (compressSegment cfg data)).toNat := ofLe_leBytes_of_lt hlt
  unfold downloadSegment Objects.get
  rw [hstored]
  show (if (dataWithCrc cfg data).length < 4 then _ else _) = _
  rw [if_neg hsmall, hcut, htake, hdrop, hcrc, if_neg (not_not.mpr rfl),
    decompressSegment_compressSegment, hparse]
  rfl

theorem deserializeRecords_of_serializeRecords {records : List WalRecord}
    (hfits : ∀ r ∈ records, walRecordFields.Fits r) (h : serializeRecords records = .ok data) :
    deserializeRecords data = .ok records := by
  unfold serializeRecords at h
  by_cases hlen : (walRecordsCodec.enc records).length < 2 ^ 63
  · rw [if_pos hlen] at h
    cases h
    have hcount : records.length ≤ (records.flatMap walRecordFields.enc).length := by
      clear hfits hlen
      induction records with
      | nil => exact Nat.zero_le _
      | cons r rs ih =>
        have hpos := length_pos_iff.mpr (walRecordFields_enc_ne_nil r)
        rw [flatMap_cons, length_append, length_cons]
        omega
    have henc : (walRecordsCodec.enc records).length =
        8 + (records.flatMap walRecordFields.enc).length := by
      show (leBytes 8 _ ++ _).length = _
      rw [length_append, length_leBytes]
    have hdec := walRecordsCodec.decode_enc (a := records) ⟨by omega, hfits⟩ []
    rw [append_nil] at hdec
    unfold deserializeRecords
    rw [hdec]
  · rw [if_neg hlen] at h
    cases h

end RustMq.Store
