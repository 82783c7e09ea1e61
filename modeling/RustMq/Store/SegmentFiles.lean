import RustMq.Lib.Fallible
import RustMq.Store.Objects

/-!
# Reading a segment back, and the files of segments

Two questions about the keys `upload_segment` builds. Does `download_segment` find the segment
again under the key it was given? And do the keys of different segments, those of the parts of a
multipart upload among them, name different files when the object storage is a directory
(`LocalObjectStorage`)?

The key has the topic in it as it is. `create_topic` accepts every name that does not begin with
two underscores, so a topic may hold slashes, at which the download splits the key, and characters
that `key_to_path` drops.

A file is what its path names: components between slashes, where empty ones and `.` do not count.
Which characters are alphanumeric beyond ASCII is a parameter.
-/

namespace RustMq.Store

open Lib List

/-- What `create_topic` asks of a name. -/
def acceptsTopicName (name : String) : Bool := !"__".toList.isPrefixOf name.toList

/-! ## Upload and download -/

variable {cfg : ObjectStorageConfig} {objects : Objects} {key : String} {tp : TopicPartition}
  {a b : Nat} {text : List Char} {part part' : Option Nat}

theorem downloadSegment_congr {objects' : Objects} (h : objects' key = objects key) :
    downloadSegment cfg objects' key = downloadSegment cfg objects key := by
  rw [downloadSegment, downloadSegment, Objects.get, Objects.get, h]

theorem parseObjectKey_of_downloadSegment {segment : WalSegment}
    (h : downloadSegment cfg objects key = .ok segment) :
    parseObjectKey key = .ok (segment.topicPartition, segment.startOffset, segment.endOffset) := by
  unfold downloadSegment at h
  obtain ⟨stored, -, h⟩ := bind_eq_ok.mp h
  split at h
  · cases h
  · dsimp only at h
    split at h
    · cases h
    · obtain ⟨data, -, h⟩ := bind_eq_ok.mp h
      obtain ⟨parsed, hparse, h⟩ := bind_eq_ok.mp h
      cases h
      exact hparse

def segmentName (a b : Nat) : List Char :=
  Nat.toDigits 10 a ++ '_' :: (Nat.toDigits 10 b ++ ".seg".toList)

theorem toList_objectKey (tp : TopicPartition) (a b : Nat) :
    (objectKey tp a b).toList = "topics".toList ++ '/' :: (tp.topic.toList ++ '/' ::
      (Nat.toDigits 10 tp.partition ++ '/' :: segmentName a b)) := by
  unfold objectKey segmentName
  simp only [String.toList_append, Decimal.toList_toString, append_assoc]
  rfl

theorem slash_not_mem_segmentName (a b : Nat) : '/' ∉ segmentName a b := by
  have ha : '/' ∉ Nat.toDigits 10 a := Decimal.not_mem (by decide)
  have hb : '/' ∉ Nat.toDigits 10 b := Decimal.not_mem (by decide)
  simp [segmentName, ha, hb]

theorem splitOn_digits (n : Nat) : (Nat.toDigits 10 n).splitOn '/' = [Nat.toDigits 10 n] :=
  splitOn_eq_singleton (Decimal.not_mem (by decide))

theorem splitOn_objectKey (tp : TopicPartition) (a b : Nat) :
    (objectKey tp a b).toList.splitOn '/' = "topics".toList :: (tp.topic.toList.splitOn '/' ++
      [Nat.toDigits 10 tp.partition, segmentName a b]) := by
  rw [toList_objectKey, splitOn_append_cons_self, splitOn_append_cons_self,
    splitOn_append_cons_self, splitOn_digits,
    splitOn_eq_singleton (slash_not_mem_segmentName a b)]
  rfl

theorem exists_splitOn_cons (text : List Char) :
    ∃ piece rest, text.splitOn '/' = piece :: rest ∧ '/' ∉ piece := by
  by_cases hmem : '/' ∈ text
  · obtain ⟨piece, rest, htext, hnot⟩ := eq_append_cons_of_mem hmem
    refine ⟨piece, rest.splitOn '/', ?_, hnot⟩
    rw [htext, splitOn_append_cons_self_of_not_mem hnot]
  · exact ⟨text, [], splitOn_eq_singleton hmem, hmem⟩

theorem not_mem_of_parseObjectKey {parsed : TopicPartition × Nat × Nat}
    (h : parseObjectKey (objectKey tp a b) = .ok parsed) : '/' ∉ parsed.1.topic.toList := by
  obtain ⟨piece, rest, hsplit, hnot⟩ := exists_splitOn_cons tp.topic.toList
  unfold parseObjectKey at h
  rw [splitOn_objectKey, hsplit] at h
  split at h
  · rename_i topic partition filename tail heq
    obtain ⟨-, heq⟩ := cons.inj heq
    obtain ⟨rfl, -⟩ := cons.inj heq
    split at h
    · cases h
    · split at h
      · split at h
        · cases h
        · split at h
          · cases h
          · cases h
            rw [String.toList_ofList]
            exact hnot
      · cases h
  · cases h

/-- **When a segment can be read back**: the topic has no slash, and the object was stored whole. -/
theorem download_upload_iff (cfg : ObjectStorageConfig) (objects : Objects) (segment : WalSegment)
    (hpartition : segment.topicPartition.partition < 2 ^ 32)
    (hstart : segment.startOffset < 2 ^ 64) (hend : segment.endOffset < 2 ^ 64) :
    (∃ downloaded, downloadSegment cfg (uploadSegment cfg objects segment).1
        (uploadSegment cfg objects segment).2 = .ok downloaded ∧
      downloaded.data = segment.data ∧ downloaded.topicPartition = segment.topicPartition ∧
      downloaded.startOffset = segment.startOffset ∧
      downloaded.endOffset = segment.endOffset) ↔
    '/' ∉ segment.topicPartition.topic.toList ∧ (isMultipart cfg segment.data = false ∨
        ∃ older, downloadSegment cfg objects (uploadSegment cfg objects segment).2 = .ok older ∧
          older.data = segment.data) := by
  have hstored := uploadSegment_objects cfg objects segment segment.topicPartition
    segment.startOffset segment.endOffset
  rw [uploadSegment_key]
  constructor
  · rintro ⟨downloaded, hdownload, hdata, htp, -, -⟩
    have hparse := parseObjectKey_of_downloadSegment hdownload
    refine ⟨htp ▸ not_mem_of_parseObjectKey hparse, ?_⟩
    cases hmulti : isMultipart cfg segment.data with
    | false => exact Or.inl rfl
    | true =>
      rw [hmulti, if_neg (by simp)] at hstored
      rw [downloadSegment_congr hstored] at hdownload
      exact Or.inr ⟨downloaded, hdownload, hdata⟩
  · rintro ⟨htopic, hcase⟩
    have hparse := parseObjectKey_objectKey htopic hpartition hstart hend
    cases hmulti : isMultipart cfg segment.data with
    | false =>
      rw [hmulti, if_pos (by simp)] at hstored
      exact ⟨_, downloadSegment_of_stored hstored hparse, rfl, rfl, rfl, rfl⟩
    | true =>
      rw [hmulti, if_neg (by simp)] at hstored
      obtain ⟨older, holder, hdata⟩ := hcase.resolve_left (by simp [hmulti])
      have hsame := Except.ok.inj ((parseObjectKey_of_downloadSegment holder).symm.trans hparse)
      obtain ⟨htp, hrange⟩ := Prod.mk.inj hsame
      obtain ⟨ha, hb⟩ := Prod.mk.inj hrange
      rw [← downloadSegment_congr hstored] at holder
      exact ⟨older, holder, hdata, htp, ha, hb⟩

/-- A directory, with a low threshold and a compression that turns the bytes around. -/
def smallParts : ObjectStorageConfig :=
  ⟨.localFs, 1024, ⟨List.reverse, fun bytes => .ok bytes.reverse,
    fun bytes => congrArg Except.ok (List.reverse_reverse bytes)⟩⟩

def testSegment (topic : String) (data : Bytes) : WalSegment :=
  ⟨0, 100, 128, data, ⟨topic, 0⟩⟩

theorem download_upload_iff_testSegment : ∃ downloaded, downloadSegment smallParts
        (uploadSegment smallParts (fun _ => none) (testSegment "test-topic" [1, 2, 3])).1
        (uploadSegment smallParts (fun _ => none) (testSegment "test-topic" [1, 2, 3])).2 =
          .ok downloaded ∧
      downloaded.data = [1, 2, 3] ∧ downloaded.topicPartition = ⟨"test-topic", 0⟩ ∧
      downloaded.startOffset = 0 ∧ downloaded.endOffset = 100 := by
  have hwhole : isMultipart smallParts [1, 2, 3] = false := by decide +kernel
  have htopic : '/' ∉ "test-topic".toList := by decide +kernel
  exact (download_upload_iff smallParts (fun _ => none) (testSegment "test-topic" [1, 2, 3])
    (by decide) (by decide) (by decide)).mpr ⟨htopic, Or.inl hwhole⟩

/-- A topic with a slash, and a segment above the threshold. -/
theorem uploaded_not_found : (acceptsTopicName "eu/orders" = true ∧ downloadSegment smallParts
        (uploadSegment smallParts (fun _ => none) (testSegment "eu/orders" [1, 2, 3])).1
        (uploadSegment smallParts (fun _ => none) (testSegment "eu/orders" [1, 2, 3])).2 =
          .error (.storage "Invalid partition")) ∧
    (acceptsTopicName "orders" = true ∧ downloadSegment { smallParts with multipartThreshold := 4 }
        (uploadSegment { smallParts with multipartThreshold := 4 } (fun _ => none)
          (testSegment "orders" [1, 2, 3])).1
        (uploadSegment { smallParts with multipartThreshold := 4 } (fun _ => none)
          (testSegment "orders" [1, 2, 3])).2 =
          .error (.notFound "topics/orders/0/0_100.seg")) := by
  decide +kernel

/-! ## Files -/

structure CharTable where
  isAlphanumeric : Char → Bool
  ascii : ∀ c, c.toNat < 128 → isAlphanumeric c = c.isAlphanum

abbrev PathParts := List (List Char)

/-- The components that count: `a//b` and `a/./b` name the file `a/b`. -/
def components (text : List Char) : PathParts :=
  (text.splitOn '/').filter fun c => c ≠ [] ∧ c ≠ ['.']

def hasDotDot : List Char → Bool
  | [] => false
  | c :: rest => (c = '.' && rest.head? = some '.') || hasDotDot rest

def InBase (basePath path : PathParts) : Prop :=
  ∃ rest, path = basePath ++ rest ∧ rest ≠ [] ∧ ['.', '.'] ∉ rest

namespace CharTable

variable (table : CharTable)

def keeps (c : Char) : Bool :=
  table.isAlphanumeric c || c = '/' || c = '-' || c = '_' || c = '.'

def sanitize (key : List Char) : List Char := key.filter table.keeps

/-- `LocalObjectStorage::key_to_path`. -/
def keyToPath (basePath : PathParts) (key : String) : Except String PathParts :=
  let sanitized := table.sanitize key.toList
  if hasDotDot sanitized || sanitized.head? = some '/' then .error "Invalid object key"
  else if sanitized.isEmpty then .error "Empty object key"
  else .ok (basePath ++ components sanitized)

end CharTable

/-! ### Texts between slashes -/

theorem hasDotDot_append_slash (A B : List Char) :
    hasDotDot (A ++ '/' :: B) = (hasDotDot A || hasDotDot B) := by
  induction A with
  | nil => simp [hasDotDot]
  | cons c A ih =>
    rw [cons_append, hasDotDot, hasDotDot, ih]
    cases A with
    | nil => simp [hasDotDot]
    | cons d A => simp [Bool.or_assoc]

theorem hasDotDot_dot_cons {rest : List Char} (h : rest.head? ≠ some '.') :
    hasDotDot ('.' :: rest) = hasDotDot rest := by
  simp [hasDotDot, h]

theorem hasDotDot_append_of_not_mem {A : List Char} (h : '.' ∉ A) (B : List Char) :
    hasDotDot (A ++ B) = hasDotDot B := by
  induction A with
  | nil => rfl
  | cons c A ih =>
    obtain ⟨hc, hA⟩ := not_or.mp (mt mem_cons.mpr h)
    rw [cons_append, hasDotDot, ih hA]
    simp [Ne.symm hc]

theorem hasDotDot_eq_any (text : List Char) :
    hasDotDot text = (text.splitOn '/').any hasDotDot := by
  by_cases hmem : '/' ∈ text
  · obtain ⟨piece, rest, htext, hnot⟩ := eq_append_cons_of_mem hmem
    have hrest := hasDotDot_eq_any rest
    rw [htext, hasDotDot_append_slash, splitOn_append_cons_self_of_not_mem hnot, hrest, any_cons]
  · rw [splitOn_eq_singleton hmem]
    simp
termination_by text.length
decreasing_by
  rw [htext]
  simp
  omega

theorem dotDot_not_mem_components (h : hasDotDot text = false) : ['.', '.'] ∉ components text := by
  intro hmem
  have hin := (mem_filter.mp hmem).1
  have hany : (text.splitOn '/').any hasDotDot = true := any_eq_true.mpr ⟨_, hin, rfl⟩
  rw [← hasDotDot_eq_any, h] at hany
  cases hany

theorem components_append_slash (A B : List Char) :
    components (A ++ '/' :: B) = components A ++ components B := by
  rw [components, splitOn_append_cons_self, filter_append]
  rfl

theorem components_eq_singleton (hslash : '/' ∉ text) (hne : text ≠ []) (hdot : text ≠ ['.']) :
    components text = [text] := by
  rw [components, splitOn_eq_singleton hslash, filter_eq_self]
  intro c hc
  rw [mem_singleton.mp hc]
  exact decide_eq_true ⟨hne, hdot⟩

theorem components_digits (n : Nat) : components (Nat.toDigits 10 n) = [Nat.toDigits 10 n] := by
  refine components_eq_singleton (Decimal.not_mem (by decide)) Nat.toDigits_ne_nil ?_
  intro hdot
  have hmem : '.' ∈ Nat.toDigits 10 n := by simp [hdot]
  exact Decimal.not_mem (by decide) hmem

theorem hasDotDot_digits (n : Nat) : hasDotDot (Nat.toDigits 10 n) = false := by
  have hnot : '.' ∉ Nat.toDigits 10 n := Decimal.not_mem (by decide)
  have hnil := hasDotDot_append_of_not_mem hnot []
  rw [append_nil] at hnil
  exact hnil

/-! ### The names of files -/

/-- The end of the key of a part; the whole object has none. -/
def partSuffix : Option Nat → List Char
  | none => []
  | some i => ".part".toList ++ Nat.toDigits 10 i

def uploadKey (tp : TopicPartition) (a b : Nat) : Option Nat → String
  | none => objectKey tp a b
  | some i => partKey (objectKey tp a b) i

def fileName (a b : Nat) (part : Option Nat) : List Char :=
  Nat.toDigits 10 a ++ '_' :: (Nat.toDigits 10 b ++ '.' :: ("seg".toList ++ partSuffix part))

theorem toList_uploadKey (tp : TopicPartition) (a b : Nat) (part : Option Nat) :
    (uploadKey tp a b part).toList = "topics".toList ++ '/' :: (tp.topic.toList ++ '/' ::
      (Nat.toDigits 10 tp.partition ++ '/' :: fileName a b part)) := by
  have hname : fileName a b part = segmentName a b ++ partSuffix part := by
    rw [segmentName, append_assoc, cons_append, append_assoc]
    rfl
  cases part with
  | none => rw [uploadKey, toList_objectKey, hname, partSuffix, append_nil]
  | some i =>
    rw [uploadKey, partKey, String.toList_append, String.toList_append, toList_objectKey,
      Decimal.toList_toString, hname, partSuffix]
    simp only [append_assoc, cons_append]

theorem slash_not_mem_partSuffix (part : Option Nat) : '/' ∉ partSuffix part := by
  cases part with
  | none => exact not_mem_nil
  | some i =>
    intro hmem
    rcases mem_append.mp hmem with hmem | hmem
    · exact absurd hmem (by decide)
    · exact Decimal.not_mem (by decide) hmem

theorem components_fileName (a b : Nat) (part : Option Nat) :
    components (fileName a b part) = [fileName a b part] := by
  have ha : '/' ∉ Nat.toDigits 10 a := Decimal.not_mem (by decide)
  have hb : '/' ∉ Nat.toDigits 10 b := Decimal.not_mem (by decide)
  have hpart := slash_not_mem_partSuffix part
  refine components_eq_singleton ?_ ?_ ?_
  · simp [fileName, ha, hb, hpart]
  · simp [fileName]
  · intro hdot
    have hlen := congrArg length hdot
    simp only [fileName, length_append, length_cons, length_nil] at hlen
    omega

theorem hasDotDot_partSuffix (part : Option Nat) : hasDotDot (partSuffix part) = false := by
  cases part with
  | none => rfl
  | some i =>
    show hasDotDot ('.' :: ("part".toList ++ Nat.toDigits 10 i)) = false
    rw [hasDotDot_dot_cons (by simp), hasDotDot_append_of_not_mem (by decide), hasDotDot_digits]

theorem hasDotDot_fileName (a b : Nat) (part : Option Nat) :
    hasDotDot (fileName a b part) = false := by
  have ha : '.' ∉ Nat.toDigits 10 a := Decimal.not_mem (by decide)
  have hb : '.' ∉ Nat.toDigits 10 b := Decimal.not_mem (by decide)
  have hunder : '.' ∉ ['_'] := by decide
  rw [fileName, hasDotDot_append_of_not_mem ha]
  show hasDotDot (['_'] ++ (Nat.toDigits 10 b ++ '.' :: ("seg".toList ++ partSuffix part))) = false
  rw [hasDotDot_append_of_not_mem hunder, hasDotDot_append_of_not_mem hb,
    hasDotDot_dot_cons (by simp), hasDotDot_append_of_not_mem (by decide), hasDotDot_partSuffix]

theorem partSuffix_inj (h : partSuffix part = partSuffix part') : part = part' := by
  cases part with
  | none =>
    cases part' with
    | none => rfl
    | some i => simp [partSuffix] at h
  | some i =>
    cases part' with
    | none => simp [partSuffix] at h
    | some j => rw [Decimal.toDigits_inj (append_cancel_left h)]

theorem fileName_inj {a' b' : Nat} (h : fileName a b part = fileName a' b' part') :
    a = a' ∧ b = b' ∧ part = part' := by
  obtain ⟨ha, -, hrest⟩ := Decimal.append_cons_inj (fun _ => Decimal.isDigit_of_mem)
    (fun _ => Decimal.isDigit_of_mem) (by decide) (by decide) h
  obtain ⟨hb, -, hrest⟩ := Decimal.append_cons_inj (fun _ => Decimal.isDigit_of_mem)
    (fun _ => Decimal.isDigit_of_mem) (by decide) (by decide) hrest
  exact ⟨Decimal.toDigits_inj ha, Decimal.toDigits_inj hb,
    partSuffix_inj (append_cancel_left hrest)⟩

/-! ### The file of a segment -/

namespace CharTable

variable (table : CharTable) {c : Char}

theorem toNat_lt_of_isDigit (h : c.isDigit = true) : c.toNat < 128 := by
  obtain ⟨-, hle⟩ := Bool.and_eq_true_iff.mp h
  have hle' : c.val ≤ 57 := of_decide_eq_true hle
  have := UInt32.le_iff_toNat_le.mp hle'
  exact lt_of_le_of_lt this (by decide)

theorem keeps_of_isDigit (h : c.isDigit = true) : table.keeps c = true := by
  rw [keeps, table.ascii c (toNat_lt_of_isDigit h), Char.isAlphanum, h]
  simp

theorem sanitize_digits (n : Nat) : table.sanitize (Nat.toDigits 10 n) = Nat.toDigits 10 n :=
  filter_eq_self.mpr fun _ hc => table.keeps_of_isDigit (Decimal.isDigit_of_mem hc)

theorem sanitize_of_ascii (h : ∀ c ∈ text, c.toNat < 128 ∧
      (c.isAlphanum || c = '/' || c = '-' || c = '_' || c = '.') = true) :
    table.sanitize text = text := by
  refine filter_eq_self.mpr fun c hc => ?_
  rw [keeps, table.ascii c (h c hc).1]
  exact (h c hc).2

/-- A name of characters that are kept and no slash stays as it is, in one piece. -/
theorem sanitize_of_kept {name : List Char}
    (h : (name.all fun c => table.keeps c && c ≠ '/') = true) :
    table.sanitize name = name ∧ '/' ∉ name := by
  have hchars : ∀ c ∈ name, table.keeps c = true ∧ c ≠ '/' := by
    simpa only [all_eq_true, Bool.and_eq_true, decide_eq_true_eq] using h
  exact ⟨filter_eq_self.mpr fun c hc => (hchars c hc).1, fun hmem => (hchars _ hmem).2 rfl⟩

theorem sanitize_append (A B : List Char) :
    table.sanitize (A ++ B) = table.sanitize A ++ table.sanitize B :=
  filter_append A B

theorem sanitize_cons (hlt : c.toNat < 128)
    (hkept : (c.isAlphanum || c = '/' || c = '-' || c = '_' || c = '.') = true) (B : List Char) :
    table.sanitize (c :: B) = c :: table.sanitize B := by
  refine filter_cons_of_pos ?_
  rw [keeps, table.ascii c hlt]
  exact hkept

theorem sanitize_partSuffix (part : Option Nat) :
    table.sanitize (partSuffix part) = partSuffix part := by
  cases part with
  | none => rfl
  | some i => rw [partSuffix, sanitize_append, sanitize_digits, sanitize_of_ascii table (by simp)]

theorem sanitize_fileName (a b : Nat) (part : Option Nat) :
    table.sanitize (fileName a b part) = fileName a b part := by
  rw [fileName, sanitize_append, sanitize_digits, sanitize_cons _ (by decide) (by decide),
    sanitize_append, sanitize_digits, sanitize_cons _ (by decide) (by decide), sanitize_append,
    sanitize_of_ascii table (by simp), sanitize_partSuffix]

theorem sanitize_uploadKey (tp : TopicPartition) (a b : Nat) (part : Option Nat) :
    table.sanitize (uploadKey tp a b part).toList = "topics".toList ++ '/' ::
      (table.sanitize tp.topic.toList ++ '/' ::
        (Nat.toDigits 10 tp.partition ++ '/' :: fileName a b part)) := by
  rw [toList_uploadKey, sanitize_append, sanitize_of_ascii table (by simp),
    sanitize_cons _ (by decide) (by decide), sanitize_append,
    sanitize_cons _ (by decide) (by decide), sanitize_append, sanitize_digits,
    sanitize_cons _ (by decide) (by decide), sanitize_fileName]

def uploadParts (tp : TopicPartition) (a b : Nat) (part : Option Nat) : PathParts :=
  "topics".toList :: (components (table.sanitize tp.topic.toList) ++
    [Nat.toDigits 10 tp.partition, fileName a b part])

theorem keyToPath_uploadKey (basePath : PathParts) (tp : TopicPartition) (a b : Nat)
    (part : Option Nat) :
    table.keyToPath basePath (uploadKey tp a b part) =
      if hasDotDot (table.sanitize tp.topic.toList) then .error "Invalid object key"
      else .ok (basePath ++ table.uploadParts tp a b part) := by
  have hdigits := hasDotDot_digits tp.partition
  have htopics : hasDotDot "topics".toList = false := by decide +kernel
  have hdots : hasDotDot (table.sanitize (uploadKey tp a b part).toList) =
      hasDotDot (table.sanitize tp.topic.toList) := by
    rw [sanitize_uploadKey, hasDotDot_append_slash, hasDotDot_append_slash,
      hasDotDot_append_slash, hdigits, hasDotDot_fileName, htopics, Bool.false_or,
      Bool.or_false, Bool.or_false]
  have hparts : components (table.sanitize (uploadKey tp a b part).toList) =
      table.uploadParts tp a b part := by
    rw [sanitize_uploadKey, components_append_slash, components_append_slash,
      components_append_slash, components_digits, components_fileName,
      components_eq_singleton (by decide) (by decide) (by decide)]
    rfl
  have hhead : (table.sanitize (uploadKey tp a b part).toList).head? = some 't' := by
    rw [sanitize_uploadKey]
    rfl
  have hempty : (table.sanitize (uploadKey tp a b part).toList).isEmpty = false := by
    rw [sanitize_uploadKey]
    rfl
  simp only [keyToPath, hdots, hparts, hhead, hempty]
  simp

theorem inBase_uploadParts (basePath : PathParts) (a b : Nat) (part : Option Nat)
    (h : hasDotDot (table.sanitize tp.topic.toList) = false) :
    InBase basePath (basePath ++ table.uploadParts tp a b part) := by
  refine ⟨_, rfl, cons_ne_nil _ _, ?_⟩
  have hdigits := hasDotDot_digits tp.partition
  intro hmem
  rcases mem_cons.mp hmem with htopics | hmem
  · exact absurd htopics (by decide +kernel)
  · rcases mem_append.mp hmem with hmem | hmem
    · exact dotDot_not_mem_components h hmem
    · simp only [mem_cons, not_mem_nil, or_false] at hmem
      rcases hmem with hpartition | hname
      · rw [← hpartition] at hdigits
        cases hdigits
      · have hdots := hasDotDot_fileName a b part
        rw [← hname] at hdots
        cases hdots

theorem uploadParts_inj {tp' : TopicPartition} {a' b' : Nat} :
    table.uploadParts tp a b part = table.uploadParts tp' a' b' part' ↔
      components (table.sanitize tp.topic.toList) = components (table.sanitize tp'.topic.toList) ∧
        tp.partition = tp'.partition ∧ a = a' ∧ b = b' ∧ part = part' := by
  constructor
  · intro h
    obtain ⟨htopic, hlast⟩ := append_inj' (cons.inj h).2 rfl
    obtain ⟨hpartition, hname⟩ := cons.inj hlast
    exact ⟨htopic, Decimal.toDigits_inj hpartition, fileName_inj (cons.inj hname).1⟩
  · rintro ⟨htopic, hpartition, rfl, rfl, rfl⟩
    rw [uploadParts, uploadParts, htopic, hpartition]

/-- **When two objects have files of their own.** -/
theorem files_differ_iff (basePath : PathParts) (tp tp' : TopicPartition) (a b a' b' : Nat)
    (part part' : Option Nat) :
    (∃ path path', table.keyToPath basePath (uploadKey tp a b part) = .ok path ∧
      table.keyToPath basePath (uploadKey tp' a' b' part') = .ok path' ∧
      InBase basePath path ∧ InBase basePath path' ∧ path ≠ path') ↔
    hasDotDot (table.sanitize tp.topic.toList) = false ∧
      hasDotDot (table.sanitize tp'.topic.toList) = false ∧
      (tp.partition = tp'.partition → a = a' → b = b' → part = part' →
        components (table.sanitize tp.topic.toList) ≠
          components (table.sanitize tp'.topic.toList)) := by
  rw [keyToPath_uploadKey, keyToPath_uploadKey]
  constructor
  · rintro ⟨path, path', hpath, hpath', -, -, hne⟩
    split at hpath
    · cases hpath
    · rename_i hclean
      split at hpath'
      · cases hpath'
      · rename_i hclean'
        cases hpath
        cases hpath'
        refine ⟨Bool.eq_false_iff.mpr hclean, Bool.eq_false_iff.mpr hclean', ?_⟩
        intro hpartition ha hb hpart htopic
        exact hne (congrArg _ (table.uploadParts_inj.mpr ⟨htopic, hpartition, ha, hb, hpart⟩))
  · rintro ⟨hclean, hclean', hdiffer⟩
    refine ⟨_, _, if_neg (Bool.eq_false_iff.mp hclean), if_neg (Bool.eq_false_iff.mp hclean'),
      table.inBase_uploadParts basePath a b part hclean,
      table.inBase_uploadParts basePath a' b' part' hclean', ?_⟩
    intro hsame
    obtain ⟨htopic, hpartition, ha, hb, hpart⟩ :=
      table.uploadParts_inj.mp (append_cancel_left hsame)
    exact hdiffer hpartition ha hb hpart htopic

/-- `key_to_path` keeps the topic as it is, and the topic is a directory of its own. -/
def OwnDirectory (topic : String) : Prop :=
  (topic.toList.all fun c => table.keeps c && c ≠ '/') = true ∧ topic ≠ "" ∧ topic ≠ "."

instance (topic : String) : Decidable (table.OwnDirectory topic) :=
  inferInstanceAs (Decidable (_ ∧ _))

variable {table} in
theorem OwnDirectory.components {topic : String} (h : table.OwnDirectory topic) :
    components (table.sanitize topic.toList) = [topic.toList] := by
  obtain ⟨hkept, hslash⟩ := table.sanitize_of_kept h.1
  rw [hkept]
  refine components_eq_singleton hslash ?_ ?_
  · exact fun hnil => h.2.1 (String.toList_eq_nil_iff.mp hnil)
  · exact fun hdot => h.2.2 (String.toList_inj.mp hdot)

variable {table} in
/-- Different objects of such topics have different files. -/
theorem OwnDirectory.file_inj {tp tp' : TopicPartition} {a' b' : Nat}
    (h : table.OwnDirectory tp.topic) (h' : table.OwnDirectory tp'.topic)
    (hsame : table.uploadParts tp a b part = table.uploadParts tp' a' b' part') :
    tp = tp' ∧ a = a' ∧ b = b' ∧ part = part' := by
  obtain ⟨htopic, hpartition, hrest⟩ := table.uploadParts_inj.mp hsame
  rw [h.components, h'.components] at htopic
  refine ⟨?_, hrest⟩
  cases tp
  cases tp'
  exact congrArg₂ TopicPartition.mk (String.toList_inj.mp (cons.inj htopic).1) hpartition

def asciiTable : CharTable := ⟨Char.isAlphanum, fun _ _ => rfl⟩

/-- A topic with a space in it has the file of the topic without. -/
theorem spaced_topic_overwrites : acceptsTopicName "a b" = true ∧ acceptsTopicName "ab" = true ∧
      asciiTable.keyToPath ["data".toList] (uploadKey ⟨"a b", 0⟩ 0 100 none) =
        asciiTable.keyToPath ["data".toList] (uploadKey ⟨"ab", 0⟩ 0 100 none) ∧
      asciiTable.keyToPath ["data".toList] (uploadKey ⟨"ab", 0⟩ 0 100 none) =
        .ok ["data".toList, "topics".toList, "ab".toList, "0".toList, "0_100.seg".toList] := by
  decide +kernel

end CharTable

end RustMq.Store
