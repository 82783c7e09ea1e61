import RustMq.Wal.FileTask

/-!
# The active segment as a stream of frames

What the writer keeps about the active segment is spread over the bytes in the file, the bytes in
`tail`, and the offset `base` where the second continues the first. `Stream` ties them to the bodies
handed to the writer since the segment was opened. With `s` the frames of those bodies, the file
holds the header and the first `n` bytes of `s`, zero-padded to whole blocks; `tail` is `s` from the
block boundary `b ≤ n` on; and the last successful sync covered the first `k` bodies.

`n` is a block boundary or the end of a frame. So whatever failed on the way, the file never
ends in a frame whose missing bytes read as zeros.
-/

namespace RustMq.Wal

open Lib List

theorem blockSize_pos : 0 < blockSize := by decide

/-! ## Files and writes -/

theorem get?_update (dir : Dir) (seq a : Nat) (f : SegFile → SegFile) :
    (dir.update seq f).get? a = if a = seq then (dir.get? a).map f else dir.get? a := by
  unfold Dir.update
  cases h : dir.get? seq with
  | none =>
    by_cases ha : a = seq
    · rw [if_pos ha, ha, h]; rfl
    · rw [if_neg ha]
  | some file =>
    simp only [SMap.get?_insert]
    by_cases ha : a = seq
    · rw [if_pos ha, if_pos ha, ha, h]; rfl
    · rw [if_neg ha, if_neg ha]

/-- The bytes a write put into the file: all of the padded data, or its leading blocks. -/
def WriteResult.written (res : WriteResult) (data : List UInt8) : List UInt8 :=
  match res with
  | .ok => zeroPad blockSize data
  | .fail w => (zeroPad blockSize data).take (blockSize * w)

def WriteResult.toExcept : WriteResult → Except RustMqError Unit
  | .ok => .ok ()
  | .fail _ => .error .io

theorem WriteResult.toExcept_eq_ok {res : WriteResult} : res.toExcept = .ok () ↔ res = .ok := by
  cases res with
  | ok => exact ⟨fun _ => rfl, fun _ => rfl⟩
  | fail w => exact ⟨fun h => (nomatch h), fun h => (nomatch h)⟩

theorem outcome_writeBlocks (res : WriteResult) (seq offset : Nat) (data : List UInt8)
    (t : FileTask) :
    outcome (writeBlocks res seq offset data) t = (res.toExcept,
      { t with dir := t.dir.update seq fun f =>
          { f with data := overwrite f.data offset (res.written data) } }) := by
  cases res with
  | ok | fail => rfl

theorem WriteResult.exists_written (res : WriteResult) (data : List UInt8) :
    ∃ m ≤ data.length, res.written data = zeroPad blockSize (data.take m) ∧
      (blockSize ∣ m ∨ m = data.length) ∧ (res = .ok → m = data.length) := by
  cases res with
  | ok => exact ⟨data.length, le_rfl, by rw [take_length]; rfl, .inr rfl, fun _ => rfl⟩
  | fail w =>
    obtain ⟨m, hm, heq, hcut⟩ := take_zeroPad_mul blockSize_pos data w
    exact ⟨m, hm, heq, hcut, fun h => nomatch h⟩

theorem outcome_syncFile (ok : Bool) (seq : Nat) (t : FileTask) :
    outcome (syncFile ok seq) t = if ok then
      (.ok (), { t with dir := t.dir.update seq fun f => { f with durable := f.data } })
    else (.error .io, t) := by
  cases ok with
  | true | false => rfl

/-! ## The stream invariant -/

/-- The file, `base` and `tail` of a segment to which the bodies `bs` were handed: the first `n`
bytes of their frames are in the file, those of the first `k` bodies are synced, and `tail`
starts at byte `b`. -/
structure Stream (bs : List Body) (hdr : List UInt8) (b n k : Nat) (file : SegFile) (base : Nat)
    (tail : List UInt8) : Prop where
  hdr_length : hdr.length = headerSize
  base_eq : base = headerSize + b
  tail_eq : tail = (frames bs).drop b
  aligned : blockSize ∣ b
  base_le : b ≤ n
  written_le : n ≤ (frames bs).length
  cut : blockSize ∣ n ∨ ∃ j, (frames bs).take n = frames (bs.take j)
  data_eq : file.data = hdr ++ zeroPad blockSize ((frames bs).take n)
  synced_le : k ≤ bs.length
  durable_le : (frames (bs.take k)).length ≤ n
  durable_eq : file.durable = hdr ++ zeroPad blockSize (frames (bs.take k))

variable {m : Nat} {file : SegFile}

namespace Stream

variable {bs : List Body} {hdr : List UInt8} {b n k : Nat} {file : SegFile} {base : Nat}
  {tail : List UInt8}

theorem length_tail (h : Stream bs hdr b n k file base tail) :
    b + tail.length = (frames bs).length := by
  have := h.base_le.trans h.written_le
  rw [h.tail_eq, length_drop]
  omega

theorem fresh (hlen : hdr.length = headerSize) : Stream [] hdr 0 0 0 ⟨hdr, hdr⟩ headerSize [] where
  hdr_length := hlen
  base_eq := rfl
  tail_eq := rfl
  aligned := dvd_zero _
  base_le := le_rfl
  written_le := Nat.zero_le _
  cut := Or.inl (dvd_zero _)
  data_eq := by simp [zeroPad, roundUp_of_dvd blockSize_pos (dvd_zero _)]
  synced_le := le_rfl
  durable_le := le_rfl
  durable_eq := by simp [zeroPad, roundUp_of_dvd blockSize_pos (dvd_zero _)]

variable (h : Stream bs hdr b n k file base tail)
include h

theorem snoc (body : Body) : Stream (bs ++ [body]) hdr b n k file base (tail ++ frame body) := by
  have hframes : frames (bs ++ [body]) = frames bs ++ frame body := by simp
  have htake : (frames bs ++ frame body).take n = (frames bs).take n :=
    take_append_of_le_length h.written_le
  have hsynced : (bs ++ [body]).take k = bs.take k := take_append_of_le_length h.synced_le
  refine ⟨h.hdr_length, h.base_eq, ?_, h.aligned, h.base_le, ?_, ?_, ?_, ?_, ?_, ?_⟩
  · rw [hframes, drop_append_of_le_length (h.base_le.trans h.written_le), ← h.tail_eq]
  · rw [hframes, length_append]
    exact h.written_le.trans (Nat.le_add_right _ _)
  · rcases h.cut with hd | ⟨j, hj⟩
    · exact .inl hd
    · refine .inr ⟨min j bs.length, ?_⟩
      rw [hframes, htake, hj, take_append_of_le_length (min_le_right _ _), ← take_take, take_length]
  · rw [hframes, htake]; exact h.data_eq
  · rw [length_append]
    exact h.synced_le.trans (Nat.le_add_right _ _)
  · rw [hsynced]; exact h.durable_le
  · rw [hsynced]; exact h.durable_eq

theorem write (hm : m ≤ tail.length) (hcut : blockSize ∣ m ∨ m = tail.length) :
    Stream bs hdr b (max n (b + m)) k
      { file with data := overwrite file.data base (zeroPad blockSize (tail.take m)) } base tail := by
  have hend : b + m ≤ (frames bs).length := by rw [← h.length_tail]; omega
  have hpiece : tail.take m = ((frames bs).take (b + m)).drop b := by
    rw [h.tail_eq, drop_take, Nat.add_sub_cancel_left]
  have hover : blockSize ∣ b + m ∨ n ≤ b + m := by
    rcases hcut with hd | rfl
    · exact .inl (dvd_add h.aligned hd)
    · rw [h.length_tail]; exact .inr h.written_le
  refine ⟨h.hdr_length, h.base_eq, h.tail_eq, h.aligned, h.base_le.trans (le_max_left _ _),
    max_le h.written_le hend, ?_, ?_, h.synced_le, h.durable_le.trans (le_max_left _ _),
    h.durable_eq⟩
  · rcases max_cases n (b + m) with ⟨hmax, _⟩ | ⟨hmax, _⟩
    · rw [hmax]; exact h.cut
    · rw [hmax]
      rcases hcut with hd | rfl
      · exact .inl (dvd_add h.aligned hd)
      · refine .inr ⟨bs.length, ?_⟩
        rw [h.length_tail, take_length, take_length]
  · show overwrite file.data base (zeroPad blockSize (tail.take m)) = _
    rw [h.data_eq, h.base_eq, ← h.hdr_length, overwrite_append, hpiece,
      overwrite_zeroPad blockSize_pos _ h.aligned h.base_le (Nat.le_add_right b m) h.written_le
        hend hover]

theorem drain (hm : blockSize ∣ m) (hle : b + m ≤ n) :
    Stream bs hdr (b + m) n k file (base + m) (tail.drop m) :=
  { h with
    base_eq := by rw [h.base_eq, Nat.add_assoc]
    tail_eq := by rw [h.tail_eq, drop_drop]
    aligned := dvd_add h.aligned hm
    base_le := hle }

theorem sync (hn : n = (frames bs).length) :
    Stream bs hdr b n bs.length { file with durable := file.data } base tail := by
  refine { h with synced_le := le_rfl, durable_le := ?_, durable_eq := ?_ }
  · rw [take_length, hn]
  · show file.data = _
    rw [h.data_eq, hn, take_length, take_length]

end Stream

/-! ## What the methods do to the stream -/

/-- The active segment of `t` is a stream of `bs` of which `n` bytes are in the file and `k`
bodies are synced. -/
def Active (bs : List Body) (n k : Nat) (t : FileTask) : Prop :=
  ∃ file hdr b, t.dir.get? t.activeSeq = some file ∧ Stream bs hdr b n k file t.base t.tail

/-- `t'` is `t` but for the active segment and its bookkeeping. -/
structure OnlyActive (t t' : FileTask) : Prop where
  activeSeq : t'.activeSeq = t.activeSeq
  fsyncOnWrite : t'.fsyncOnWrite = t.fsyncOnWrite
  others : ∀ seq, seq ≠ t.activeSeq → t'.dir.get? seq = t.dir.get? seq

theorem OnlyActive.refl (t : FileTask) : OnlyActive t t := ⟨rfl, rfl, fun _ _ => rfl⟩

theorem OnlyActive.trans {t t' t'' : FileTask} (h : OnlyActive t t') (h' : OnlyActive t' t'') :
    OnlyActive t t'' :=
  ⟨h'.activeSeq.trans h.activeSeq, h'.fsyncOnWrite.trans h.fsyncOnWrite, fun seq hne =>
    (h'.others seq (by rw [h.activeSeq]; exact hne)).trans (h.others seq hne)⟩

variable {bs : List Body} {n k : Nat} {t : FileTask}

theorem writeBlocks_spec {hdr : List UInt8} {b : Nat} (hfile : t.dir.get? t.activeSeq = some file)
    (hs : Stream bs hdr b n k file t.base t.tail) (res : WriteResult) (hm : m ≤ t.tail.length)
    (hcut : blockSize ∣ m ∨ m = t.tail.length) :
    ∃ dir' file' n', outcome (writeBlocks res t.activeSeq t.base (t.tail.take m)) t =
        (res.toExcept, { t with dir := dir' }) ∧
      dir'.get? t.activeSeq = some file' ∧ Stream bs hdr b n' k file' t.base t.tail ∧
      (∀ seq, seq ≠ t.activeSeq → dir'.get? seq = t.dir.get? seq) ∧ (res = .ok → b + m ≤ n') := by
  obtain ⟨m', hm', hwritten, hcut', hok⟩ := res.exists_written (t.tail.take m)
  rw [length_take_of_le hm] at hm' hcut' hok
  rw [take_take, Nat.min_eq_left hm'] at hwritten
  have hcut'' : blockSize ∣ m' ∨ m' = t.tail.length := by
    rcases hcut' with hd | rfl
    · exact .inl hd
    · exact hcut
  have hs' := hs.write (hm'.trans hm) hcut''
  refine ⟨_, _, _, outcome_writeBlocks res _ _ _ t, ?_, hs', ?_, ?_⟩
  · rw [get?_update, if_pos rfl, hfile, hwritten]; rfl
  · intro seq hne
    rw [get?_update, if_neg hne]
  · intro h
    rw [hok h]
    exact le_max_right _ _

theorem writeCompleteBlocks_spec (env : Env) (h : Active bs n k t) :
    Ensures (writeCompleteBlocks env) t fun r t' =>
      OnlyActive t t' ∧ t'.activeSize = t.activeSize ∧ (∃ n', Active bs n' k t') ∧
      (r = .ok () ↔ (blockSize ≤ t.tail.length → env.blocks = .ok)) ∧
      (r = .ok () → t'.tail.length = t.tail.length % blockSize) := by
  obtain ⟨file, hdr, b, hfile, hs⟩ := h
  have hpos := blockSize_pos
  unfold writeCompleteBlocks
  refine Ensures.get_bind ?_
  by_cases hfull : t.tail.length / blockSize * blockSize = 0
  · have hlt : t.tail.length < blockSize := by
      rcases Nat.mul_eq_zero.mp hfull with h0 | h0
      · exact (Nat.div_eq_zero_iff_lt hpos).mp h0
      · exact absurd h0 hpos.ne'
    simp only [hfull, if_true]
    refine Ensures.pure ⟨OnlyActive.refl t, rfl, ⟨n, file, hdr, b, hfile, hs⟩, ?_, ?_⟩
    · exact ⟨fun _ hle => absurd hle (not_le.mpr hlt), fun _ => rfl⟩
    · exact fun _ => (Nat.mod_eq_of_lt hlt).symm
  · have hge : blockSize ≤ t.tail.length := by
      rcases Nat.lt_or_ge t.tail.length blockSize with hlt | hge
      · exact absurd (by rw [Nat.div_eq_of_lt hlt, Nat.zero_mul]) hfull
      · exact hge
    have hdvd : blockSize ∣ t.tail.length / blockSize * blockSize := Nat.dvd_mul_left _ _
    obtain ⟨dir', file', n', hout, hfile', hs', hothers, hok⟩ :=
      writeBlocks_spec hfile hs env.blocks (Nat.div_mul_le_self _ _) (.inl hdvd)
    simp only [hfull, if_false]
    refine Ensures.bind (P := fun r t' => r = env.blocks.toExcept ∧ t' = { t with dir := dir' })
      (Ensures.of_outcome hout ⟨rfl, rfl⟩) ?_ ?_
    · -- the blocks are in the file, and leave the tail
      rintro ⟨⟩ _ ⟨hr, rfl⟩
      have hres := WriteResult.toExcept_eq_ok.mp hr.symm
      refine Ensures.modify ⟨⟨rfl, rfl, hothers⟩, rfl, ⟨n', file', hdr, _, hfile',
        hs'.drain hdvd (hok hres)⟩, ⟨fun _ _ => hres, fun _ => rfl⟩, fun _ => ?_⟩
      show (t.tail.drop _).length = _
      rw [length_drop, Nat.mod_eq_sub_div_mul]
    · -- the write failed: the blocks stay in the tail
      rintro e _ ⟨hr, rfl⟩
      refine ⟨⟨rfl, rfl, hothers⟩, rfl, ⟨n', file', hdr, b, hfile', hs'⟩, ?_, fun h => nomatch h⟩
      refine ⟨fun h => (nomatch h), fun himp => ?_⟩
      rw [himp hge] at hr
      cases hr

theorem flush_spec (env : Env) (h : Active bs n k t) : Ensures (flush env) t fun r t' =>
      OnlyActive t t' ∧ t'.activeSize = t.activeSize ∧ (∃ n' k', k ≤ k' ∧ Active bs n' k' t') ∧
      (r = .ok () ↔ (t.tail ≠ [] → env.tail = .ok) ∧ env.sync = true) ∧
      (r = .ok () → Active bs (frames bs).length bs.length t') := by
  obtain ⟨file, hdr, b, hfile, hs⟩ := h
  -- the write leaves the stream as it was, and all of it in the file if it succeeds
  have hwrite : Ensures (if t.tail ≠ [] then writeBlocks env.tail t.activeSeq t.base t.tail
      else pure ()) t fun r t' => ∃ dir' file' n', t' = { t with dir := dir' } ∧
        dir'.get? t.activeSeq = some file' ∧ Stream bs hdr b n' k file' t.base t.tail ∧
        (∀ seq, seq ≠ t.activeSeq → dir'.get? seq = t.dir.get? seq) ∧
        (r = .ok () ↔ (t.tail ≠ [] → env.tail = .ok)) ∧
        (r = .ok () → n' = (frames bs).length) := by
    by_cases htail : t.tail = []
    · rw [if_neg (not_not_intro htail)]
      refine Ensures.pure ⟨t.dir, file, n, rfl, hfile, hs, fun _ _ => rfl, ?_, fun _ => ?_⟩
      · exact ⟨fun _ hne => absurd htail hne, fun _ => rfl⟩
      · have hlen := hs.length_tail
        rw [htail, length_nil] at hlen
        have := hs.base_le
        have := hs.written_le
        omega
    · obtain ⟨dir', file', n', hout, hfile', hs', hothers, hok⟩ :=
        writeBlocks_spec hfile hs env.tail le_rfl (.inr rfl)
      rw [take_length] at hout
      rw [if_pos htail]
      refine Ensures.of_outcome hout ⟨dir', file', n', rfl, hfile', hs', hothers, ?_, ?_⟩
      · rw [WriteResult.toExcept_eq_ok]
        exact ⟨fun h _ => h, fun h => h htail⟩
      · intro hr
        have hle := hok (WriteResult.toExcept_eq_ok.mp hr)
        rw [hs.length_tail] at hle
        exact le_antisymm hs'.written_le hle
  unfold flush
  refine Ensures.get_bind (Ensures.bind hwrite ?_ ?_)
  · rintro ⟨⟩ _ ⟨dir', file', n', rfl, hfile', hs', hothers, hiff, hn⟩
    have hn := hn rfl
    subst hn
    have htail := hiff.mp rfl
    cases hsync : env.sync with
    | true =>
      refine Ensures.bind (P := fun r t' => r = .ok () ∧ t' = _)
        (Ensures.of_outcome (outcome_syncFile true _ _) ⟨rfl, rfl⟩) ?_ ?_
      · rintro ⟨⟩ _ ⟨_, rfl⟩
        have hfile'' : (dir'.update t.activeSeq fun f => { f with durable := f.data }).get?
            t.activeSeq = some { file' with durable := file'.data } := by
          rw [get?_update, if_pos rfl, hfile']; rfl
        have hs'' := hs'.sync rfl
        refine Ensures.modify ⟨⟨rfl, rfl, ?_⟩, rfl, ?_, ?_, ?_⟩
        · intro seq hne
          show (dir'.update _ _).get? seq = _
          rw [get?_update, if_neg hne, hothers seq hne]
        · exact ⟨_, _, hs'.synced_le, _, hdr, b, hfile'', hs''⟩
        · exact ⟨fun _ => ⟨htail, rfl⟩, fun _ => rfl⟩
        · exact fun _ => ⟨_, hdr, b, hfile'', hs''⟩
      · rintro e _ ⟨hr, _⟩
        cases hr
    | false =>
      refine Ensures.bind (P := fun r t' => r = .error .io ∧ t' = _)
        (Ensures.of_outcome (outcome_syncFile false _ _) ⟨rfl, rfl⟩) ?_ ?_
      · rintro ⟨⟩ _ ⟨hr, _⟩
        cases hr
      · rintro e _ ⟨_, rfl⟩
        refine ⟨⟨rfl, rfl, hothers⟩, rfl, ⟨_, k, le_rfl, file', hdr, b, hfile', hs'⟩, ?_,
          fun h => nomatch h⟩
        exact ⟨fun h => (nomatch h), fun h => (nomatch h.2)⟩
  · rintro e _ ⟨dir', file', n', rfl, hfile', hs', hothers, hiff, _⟩
    refine ⟨⟨rfl, rfl, hothers⟩, rfl, ⟨n', k, le_rfl, file', hdr, b, hfile', hs'⟩, ?_,
      fun h => nomatch h⟩
    exact ⟨fun h => (nomatch h), fun h => nomatch hiff.mpr h.1⟩

/-- Every I/O call that appending `framed` makes succeeds: the write of complete blocks is made
when there are any, and in fsync mode the partial block is written, if there is one, and
synced. -/
def AppendIo (env : Env) (t : FileTask) (framed : List UInt8) : Prop :=
  (blockSize ≤ t.tail.length + framed.length → env.blocks = .ok) ∧
  (t.fsyncOnWrite = true →
    ((t.tail.length + framed.length) % blockSize ≠ 0 → env.tail = .ok) ∧ env.sync = true)

/-- **An append puts its frame into the stream whether it returns or fails.** -/
theorem handleAppend_spec (env : Env) (body : Body) (h : Active bs n k t) :
    Ensures (handleAppend env (frame body)) t fun r t' =>
      OnlyActive t t' ∧
      (∃ n' k', k ≤ k' ∧ Active (bs ++ [body]) n' k' t' ∧
        (t.fsyncOnWrite = true → (∃ loc, r = .ok loc) → k' = (bs ++ [body]).length)) ∧
      ((∃ loc, r = .ok loc) ↔ AppendIo env t (frame body)) ∧
      (∀ loc, r = .ok loc → t'.activeSize = t.activeSize + (frame body).length ∧
        loc = ⟨t.activeSeq, headerSize + (frames bs).length + 8, body.bytes.length % 2 ^ 32⟩) ∧
      (∀ e, r = .error e → t'.activeSize = t.activeSize) := by
  obtain ⟨file, hdr, b, hfile, hs⟩ := h
  have hactive : Active (bs ++ [body]) n k { t with tail := t.tail ++ frame body } :=
    ⟨file, hdr, b, hfile, hs.snoc body⟩
  have hloc : (⟨t.activeSeq, t.base + t.tail.length + frameLenPrefix,
      ((frame body).length - frameLenPrefix) % 2 ^ 32⟩ : PhysicalLocation) =
      ⟨t.activeSeq, headerSize + (frames bs).length + 8, body.bytes.length % 2 ^ 32⟩ := by
    rw [hs.base_eq, ← hs.length_tail, length_frame]
    show (⟨_, headerSize + b + t.tail.length + 8, (8 + body.bytes.length - 8) % _⟩ :
      PhysicalLocation) = _
    rw [Nat.add_sub_cancel_left, Nat.add_assoc headerSize]
  unfold handleAppend
  refine Ensures.get_bind (Ensures.set_bind (Ensures.bind
    (writeCompleteBlocks_spec env hactive) ?_ ?_))
  · rintro ⟨⟩ t₁ ⟨hsame₁, hsize₁, ⟨n₁, hactive₁⟩, hio₁, htail₁⟩
    have hio₁ := hio₁.mp rfl
    have htail₁ := htail₁ rfl
    simp only [length_append] at hio₁ htail₁
    -- what `flush` sees of the tail is what the complete blocks left
    have hne₁ : t₁.tail ≠ [] ↔ (t.tail.length + (frame body).length) % blockSize ≠ 0 := by
      rw [← htail₁, ne_eq, ne_eq, length_eq_zero_iff]
    cases hfsync : t.fsyncOnWrite with
    | true =>
      refine Ensures.bind (flush_spec env hactive₁) ?_ ?_
      · rintro ⟨⟩ t₂ ⟨hsame₂, hsize₂, _, hio₂, hfull₂⟩
        have hio₂ := hio₂.mp rfl
        refine Ensures.modify_bind (Ensures.pure ⟨?_, ?_, ?_, ?_, fun e h => nomatch h⟩)
        · exact ⟨hsame₂.activeSeq.trans hsame₁.activeSeq,
            hsame₂.fsyncOnWrite.trans hsame₁.fsyncOnWrite, (hsame₁.trans hsame₂).others⟩
        · refine ⟨_, _, ?_, hfull₂ rfl, fun _ _ => rfl⟩
          obtain ⟨file₁, hdr₁, b₁, -, hs₁⟩ := hactive₁
          exact hs₁.synced_le
        · refine ⟨fun _ => ⟨hio₁, fun _ => ⟨fun hne => hio₂.1 (hne₁.mpr hne), hio₂.2⟩⟩,
            fun _ => ⟨_, rfl⟩⟩
        · rintro loc ⟨⟩
          refine ⟨?_, hloc⟩
          show t₂.activeSize + _ = _
          rw [hsize₂, hsize₁]
      · rintro e t₂ ⟨hsame₂, hsize₂, ⟨n₂, k₂, hk₂, hactive₂⟩, hio₂, _⟩
        refine ⟨?_, ⟨n₂, k₂, hk₂, hactive₂, fun _ h => (nomatch h)⟩, ?_, fun loc h => (nomatch h),
          fun _ _ => hsize₂.trans hsize₁⟩
        · exact ⟨hsame₂.activeSeq.trans hsame₁.activeSeq,
            hsame₂.fsyncOnWrite.trans hsame₁.fsyncOnWrite, (hsame₁.trans hsame₂).others⟩
        · refine ⟨fun h => (nomatch h), fun hio => ?_⟩
          have hok := hio.2 hfsync
          exact nomatch hio₂.mpr ⟨fun hne => hok.1 (hne₁.mp hne), hok.2⟩
    | false =>
      refine Ensures.modify_bind (Ensures.modify_bind (Ensures.pure ⟨?_, ?_, ?_, ?_,
        fun e h => nomatch h⟩))
      · exact { hsame₁ with }
      · exact ⟨n₁, k, le_rfl, hactive₁, fun h => nomatch h⟩
      · exact ⟨fun _ => ⟨hio₁, fun h => nomatch hfsync.symm.trans h⟩, fun _ => ⟨_, rfl⟩⟩
      · rintro loc ⟨⟩
        refine ⟨?_, hloc⟩
        show t₁.activeSize + _ = _
        rw [hsize₁]
  · rintro e t₁ ⟨hsame₁, hsize₁, ⟨n₁, hactive₁⟩, hio₁, _⟩
    refine ⟨{ hsame₁ with },
      ⟨n₁, k, le_rfl, hactive₁, fun _ h => (nomatch h)⟩, ?_, fun loc h => (nomatch h),
      fun _ _ => hsize₁⟩
    refine ⟨fun h => (nomatch h), fun hio => ?_⟩
    refine nomatch hio₁.mpr ?_
    simpa only [length_append] using hio.1

/-! ## Opening a segment -/

theorem length_buildHeader (seq createdMs : Nat) :
    (buildHeader seq createdMs).length = headerSize := by
  simp only [buildHeader, length_append, length_leBytes, length_replicate]
  rfl

theorem openNewSegment_spec (env : Env) (seq : Nat) (t : FileTask) :
    Ensures (openNewSegment env seq) t fun r t' => ∃ dir', t' = { t with dir := dir' } ∧
      (∀ a, a ≠ seq → dir'.get? a = t.dir.get? a) ∧
      (env.NoError → r = .ok ()) ∧
      (r = .ok () → ∃ hdr, hdr.length = headerSize ∧ dir'.get? seq = some ⟨hdr, hdr⟩) ∧
      (∀ e, r = .error e → dir'.get? seq = t.dir.get? seq ∨
        ∃ file, dir'.get? seq = some file ∧ file.data.length ≤ headerSize) := by
  have hpad : zeroPad blockSize (buildHeader seq env.createdMs) = buildHeader seq env.createdMs :=
    zeroPad_of_dvd blockSize_pos (by rw [length_buildHeader]; exact dvd_rfl)
  unfold openNewSegment
  cases hcreate : env.create with
  | false =>
    refine Ensures.bind (P := fun r t' => r = .error .io ∧ t' = t) ⟨rfl, rfl⟩ ?_ ?_
    · rintro ⟨⟩ _ ⟨hr, _⟩
      cases hr
    · rintro e t' ⟨_, rfl⟩
      refine ⟨_, rfl, fun _ _ => rfl, ?_, fun h => (nomatch h), fun _ _ => .inl rfl⟩
      intro henv
      exact nomatch hcreate.symm.trans henv.create
  | true =>
    refine Ensures.modify_bind ?_
    refine Ensures.bind (P := fun r t' => r = env.header.toExcept ∧ t' = _)
      (Ensures.of_outcome (outcome_writeBlocks _ _ _ _ _) ⟨rfl, rfl⟩) ?_ ?_
    · rintro ⟨⟩ _ ⟨hr, rfl⟩
      have hheader := WriteResult.toExcept_eq_ok.mp hr.symm
      -- after the header write the file is the header, not yet synced
      have hfile : (Dir.update (t.dir.insert seq ⟨[], []⟩) seq fun f => { f with
          data := overwrite f.data 0 (env.header.written (buildHeader seq env.createdMs)) }).get?
          seq = some ⟨buildHeader seq env.createdMs, []⟩ := by
        rw [get?_update, if_pos rfl, SMap.get?_insert_self, hheader, WriteResult.written, hpad]
        simp
      cases hsync : env.headerSync with
      | true =>
        refine Ensures.of_outcome (outcome_syncFile true _ _) ⟨_, rfl, ?_, fun _ => rfl, ?_,
          fun e h => (nomatch h)⟩
        · intro a ha
          rw [get?_update, if_neg ha, get?_update, if_neg ha, SMap.get?_insert, if_neg ha]
        · refine fun _ => ⟨_, length_buildHeader seq env.createdMs, ?_⟩
          rw [get?_update, if_pos rfl, hfile]; rfl
      | false =>
        refine Ensures.of_outcome (outcome_syncFile false _ _) ⟨_, rfl, ?_, ?_,
          fun h => (nomatch h), fun _ _ => .inr ⟨_, hfile, ?_⟩⟩
        · intro a ha
          rw [get?_update, if_neg ha, SMap.get?_insert, if_neg ha]
        · intro henv
          exact nomatch hsync.symm.trans henv.headerSync
        · exact (length_buildHeader seq env.createdMs).le
    · rintro e _ ⟨hr, rfl⟩
      refine ⟨_, rfl, ?_, ?_, fun h => (nomatch h), fun _ _ => .inr
        ⟨⟨env.header.written (buildHeader seq env.createdMs), []⟩, ?_, ?_⟩⟩
      · intro a ha
        rw [get?_update, if_neg ha, SMap.get?_insert, if_neg ha]
      · intro henv
        rw [henv.header] at hr
        cases hr
      · rw [get?_update, if_pos rfl, SMap.get?_insert_self, Option.map_some, overwrite_nil]
      · obtain ⟨m, hm, hwritten, -, -⟩ := env.header.exists_written (buildHeader seq env.createdMs)
        rw [hwritten, length_zeroPad blockSize_pos]
        refine roundUp_le_of_dvd blockSize_pos dvd_rfl ?_
        rw [length_take, ← length_buildHeader seq env.createdMs]
        exact min_le_right _ _

/-! ## Sealing -/

/-- The file of a segment that was flushed and left: exactly the frames of `bs`, all synced. -/
def ClosedFile (bs : List Body) (file : SegFile) : Prop :=
  ∃ hdr : List UInt8, hdr.length = headerSize ∧
    file.data = hdr ++ zeroPad blockSize (frames bs) ∧ file.durable = file.data

/-- A file that no longer changes: a closed one, or the file of a failed rotation, which is at
most a header long. -/
def SealedFile (bs : List Body) (file : SegFile) : Prop :=
  ClosedFile bs file ∨ (bs = [] ∧ file.data.length ≤ headerSize)

theorem ClosedFile.dvd_length (h : ClosedFile bs file) : blockSize ∣ file.data.length := by
  obtain ⟨hdr, hlen, hdata, -⟩ := h
  rw [hdata, length_append, hlen, length_zeroPad blockSize_pos]
  exact dvd_add dvd_rfl (dvd_roundUp _ _)

theorem Active.closedFile (h : Active bs (frames bs).length bs.length t) :
    ∃ file, t.dir.get? t.activeSeq = some file ∧ ClosedFile bs file := by
  obtain ⟨file, hdr, b, hfile, hs⟩ := h
  have hdata := hs.data_eq
  have hdurable := hs.durable_eq
  rw [take_length] at hdata hdurable
  exact ⟨file, hfile, hdr, hs.hdr_length, hdata, hdurable.trans hdata.symm⟩

theorem Active.congr_dir (h : Active bs n k t) {dir' : Dir}
    (hdir : dir'.get? t.activeSeq = t.dir.get? t.activeSeq) :
    Active bs n k { t with dir := dir' } := by
  obtain ⟨file, hdr, b, hfile, hs⟩ := h
  exact ⟨file, hdr, b, hdir.trans hfile, hs⟩

theorem handleMaybeSeal_spec (env : Env) (force : Bool) (h : Active bs n k t) :
    Ensures (handleMaybeSeal env force) t fun r t' =>
      t'.fsyncOnWrite = t.fsyncOnWrite ∧ (env.NoError → ∀ e, r ≠ .error e) ∧
      (r = .ok none → t' = t) ∧
      (∀ seq, r = .ok (some seq) → seq = t.activeSeq ∧ t'.activeSeq = t.activeSeq + 1 ∧
        Active [] 0 0 t' ∧
        (∀ a, a ≠ t.activeSeq → a ≠ t.activeSeq + 1 → t'.dir.get? a = t.dir.get? a) ∧
        ∃ file, t'.dir.get? t.activeSeq = some file ∧ ClosedFile bs file) ∧
      (∀ e, r = .error e → t'.activeSeq = t.activeSeq ∧ (∃ n' k', k ≤ k' ∧ Active bs n' k' t') ∧
        (∀ a, a ≠ t.activeSeq → a ≠ t.activeSeq + 1 → t'.dir.get? a = t.dir.get? a) ∧
        (t'.dir.get? (t.activeSeq + 1) = t.dir.get? (t.activeSeq + 1) ∨
          ∃ file, t'.dir.get? (t.activeSeq + 1) = some file ∧ file.data.length ≤ headerSize)) := by
  unfold handleMaybeSeal
  refine Ensures.get_bind ?_
  by_cases hseal : 0 < t.activeSize ∧ (force = true ∨ t.segmentSizeBytes ≤ t.activeSize ∨
      env.elapsed = true)
  · simp only [hseal]
    refine Ensures.bind (flush_spec env h) ?_ ?_
    · intro _ t₁ ⟨hsame₁, _, hactive₁, _, hflushed₁⟩
      have hflushed₁ := hflushed₁ rfl
      refine Ensures.bind (openNewSegment_spec env (t.activeSeq + 1) t₁) ?_ ?_
      · rintro _ _ ⟨dir', rfl, hothers, _, hopen, _⟩
        obtain ⟨hdr, hlen, hfile⟩ := hopen rfl
        obtain ⟨file, hold, hsealed⟩ := hflushed₁.closedFile
        rw [hsame₁.activeSeq] at hold
        refine Ensures.modify_bind (Ensures.pure ⟨hsame₁.fsyncOnWrite, fun _ e h => (nomatch h),
          fun h => (nomatch h), ?_, fun e h => (nomatch h)⟩)
        intro seq hseq
        cases hseq
        refine ⟨rfl, rfl, ⟨⟨hdr, hdr⟩, hdr, 0, hfile, Stream.fresh hlen⟩, ?_, file, ?_, hsealed⟩
        · intro a ha hnext
          exact (hothers a hnext).trans (hsame₁.others a ha)
        · exact (hothers _ (by omega)).trans hold
      · rintro e _ ⟨dir', rfl, hothers, hok, _, herr⟩
        refine ⟨hsame₁.fsyncOnWrite, fun henv => absurd (hok henv) (by simp),
          fun h => (nomatch h), fun seq h => (nomatch h), ?_⟩
        intro e' he
        obtain ⟨n', k', hk', hactive₁⟩ := hactive₁
        refine ⟨hsame₁.activeSeq, ⟨n', k', hk', hactive₁.congr_dir (hothers _ ?_)⟩, ?_, ?_⟩
        · rw [hsame₁.activeSeq]; omega
        · intro a ha hnext
          exact (hothers a hnext).trans (hsame₁.others a ha)
        · rcases herr e rfl with hsame | hfile
          · exact .inl (hsame.trans (hsame₁.others _ (by omega)))
          · exact .inr hfile
    · intro e t₁ ⟨hsame₁, _, hactive₁, hio₁, _⟩
      refine ⟨hsame₁.fsyncOnWrite, ?_, fun h => (nomatch h), fun seq h => (nomatch h), ?_⟩
      · intro henv
        exact absurd (hio₁.mpr ⟨fun _ => henv.tail, henv.sync⟩) (by simp)
      · intro _ _
        exact ⟨hsame₁.activeSeq, hactive₁, fun a ha _ => hsame₁.others a ha,
          .inl (hsame₁.others _ (by omega))⟩
  · simp only [hseal, not_false_eq_true, if_true]
    exact Ensures.pure ⟨rfl, fun _ e h => (nomatch h), fun _ => rfl, fun seq h => (nomatch h),
      fun e h => (nomatch h)⟩

end RustMq.Wal
