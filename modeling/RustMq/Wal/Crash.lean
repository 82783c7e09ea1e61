import RustMq.Wal.Lifetimes

/-!
# Crashes

A crash stops the writer at any I/O call and leaves of each file some whole blocks, each as it
was last synced or as it was last written (`Lib.Torn`). A command the crash interrupts is one
whose `Env` fails at the call the crash hits, so a run that ends in a crash is a run in which
only the last command may meet errors.

Sealed segments were synced when they were left, so they survive, and so does every frame of the
active segment that a sync covered (`Torn.take_eq`). What comes after is a mixture. The frame walk
trusts a length that survived, so recovery is right exactly when the first frame that is not whole
looks like the end of the log (`EndRecognisable`): its length is cut off by the end of the file,
reads as zero, or announces more bytes than are left.
-/

namespace RustMq.Wal

open Lib List

/-- What a crash may leave of a directory. -/
def Crash (dir dir' : Dir) : Prop :=
  ∀ seq, Option.Rel (fun file file' => Torn blockSize file.durable file.data file'.data)
    (dir.get? seq) (dir'.get? seq)

/-- Where the first frame that did not survive whole began, the surviving bytes end the frame
walk. -/
def EndRecognisable (bs : List Body) (rest : List UInt8) : Prop :=
  ∀ j < bs.length, frames (bs.take j) <+: rest → ¬ frames (bs.take (j + 1)) <+: rest →
    Stops (rest.drop (frames (bs.take j)).length)

/-! ## What survives in a segment -/

section

variable {bs : List Body} {hdr : List UInt8} {b n k base : Nat} {file : SegFile}
  {tail data : List UInt8}

theorem Stream.survives (hs : Stream bs hdr b n k file base tail)
    (ht : Torn blockSize file.durable file.data data) :
    ∃ rest, data = hdr ++ rest ∧ frames (bs.take k) <+: rest := by
  have hold : hdr ++ frames (bs.take k) <+: file.durable := by
    rw [hs.durable_eq, zeroPad, ← append_assoc]
    exact prefix_append _ _
  have hnew : hdr ++ frames (bs.take k) <+: file.data := by
    have hsplit : frames bs = frames (bs.take k) ++ frames (bs.drop k) := by
      rw [← frames_append, take_append_drop]
    have htake : frames (bs.take k) <+: (frames bs).take n := by
      rw [hsplit, take_append, take_of_length_le hs.durable_le]
      exact prefix_append _ _
    rw [hs.data_eq, zeroPad]
    exact (prefix_append_right_inj hdr).mpr (htake.trans (prefix_append _ _))
  obtain ⟨rest, hrest⟩ := ht.take_eq hold hnew
  exact ⟨frames (bs.take k) ++ rest, by rw [← hrest, append_assoc], prefix_append _ _⟩

theorem getElem?_append_replicate {p : List UInt8} {m i : Nat} (hp : p.length ≤ i)
    (hi : i < (p ++ List.replicate m (0 : UInt8)).length) :
    (p ++ List.replicate m (0 : UInt8))[i]? = some 0 := by
  rw [length_append, length_replicate] at hi
  rw [getElem?_append_right hp, getElem?_replicate, if_pos (by omega)]

variable (hs : Stream bs hdr b n k file base tail) (ht : Torn blockSize file.durable file.data data)
include hs ht

theorem Stream.stops_behind {rest : List UInt8} (hdata : data = hdr ++ rest) :
    Stops (rest.drop (frames bs).length) := by
  have hzero : ∀ i, i < (rest.drop (frames bs).length).length →
      (rest.drop (frames bs).length)[i]? = some 0 := by
    intro i hi
    rw [length_drop] at hi
    have hidx : hdr.length + ((frames bs).length + i) < data.length := by
      rw [hdata, length_append]; omega
    have hget : (rest.drop (frames bs).length)[i]? =
        data[hdr.length + ((frames bs).length + i)]? := by
      rw [hdata, getElem?_append_right (by omega), Nat.add_sub_cancel_left, getElem?_drop]
    -- both versions of the byte lie behind every frame
    have hwritten := hs.written_le
    have hsynced := hs.durable_le
    rw [hget]
    rcases ht.getElem? hidx with hbyte | hbyte
    · have hlt := lt_of_lt_of_le hidx ht.length_le
      rw [hs.data_eq, zeroPad, ← append_assoc] at hbyte hlt
      rw [hbyte]
      refine getElem?_append_replicate ?_ hlt
      rw [length_append, length_take]
      omega
    · have hlt : hdr.length + ((frames bs).length + i) <
          (file.durable ++ replicate (file.data.length - file.durable.length) 0).length := by
        rw [length_append, length_replicate]
        have := ht.length_le
        omega
      rw [hs.durable_eq, zeroPad, ← append_assoc, append_assoc,
        replicate_append_replicate] at hbyte hlt
      rw [hbyte]
      refine getElem?_append_replicate ?_ hlt
      rw [length_append]
      omega
  have heq : rest.drop (frames bs).length = replicate (rest.drop (frames bs).length).length 0 := by
    refine ext_getElem? fun i => ?_
    rcases Nat.lt_or_ge i (rest.drop (frames bs).length).length with hi | hi
    · rw [hzero i hi, getElem?_replicate, if_pos hi]
    · rw [getElem?_eq_none hi, getElem?_eq_none (by rw [length_replicate]; exact hi)]
  rw [heq]
  exact stops_replicate_zero _

theorem Stream.walkFrames_torn (hend : EndRecognisable bs (data.drop headerSize)) :
    ∃ j, k ≤ j ∧ j ≤ bs.length ∧ walkFrames data = located headerSize (bs.take j) := by
  obtain ⟨rest, rfl, hsynced⟩ := hs.survives ht
  rw [drop_left' hs.hdr_length] at hend
  -- the frames that survived whole, up to the first that did not
  obtain ⟨j, hj⟩ : ∃ j, j = Nat.findGreatest (fun j => frames (bs.take j) <+: rest) bs.length :=
    ⟨_, rfl⟩
  have hle : j ≤ bs.length := hj ▸ Nat.findGreatest_le _
  have hkj : k ≤ j := hj ▸ Nat.le_findGreatest hs.synced_le hsynced
  have hwhole : frames (bs.take j) <+: rest := by
    have := Nat.findGreatest_spec (P := fun j => frames (bs.take j) <+: rest) hs.synced_le hsynced
    rwa [← hj] at this
  have hstops : Stops (rest.drop (frames (bs.take j)).length) := by
    rcases Nat.lt_or_ge j bs.length with hlt | hge
    · refine hend j hlt hwhole ?_
      have := Nat.findGreatest_is_greatest (P := fun j => frames (bs.take j) <+: rest)
        (n := bs.length) (k := j + 1) (by omega) (by omega)
      exact this
    · have hall : bs.take j = bs := take_of_length_le hge
      rw [hall]
      exact hs.stops_behind ht rfl
  refine ⟨j, hkj, hle, ?_⟩
  obtain ⟨rest', rfl⟩ := hwhole
  rw [drop_left] at hstops
  exact walkFrames_frames hs.hdr_length _ hstops

end

/-! ## What survives of a directory -/

section

variable {β : Type} {ser : β → Body} {fsync : Bool} {log log' : Log β} {t : FileTask}

theorem SealedFile.walkFrames_torn {bs : List Body} {file : SegFile} {data : List UInt8}
    (h : SealedFile bs file) (ht : Torn blockSize file.durable file.data data) :
    walkFrames data = located headerSize bs := by
  rcases h with hclosed | ⟨hnil, hlen⟩
  · obtain ⟨hdr, hlen, hdata, hdurable⟩ := hclosed
    rw [hdurable] at ht
    rw [ht.eq_of_synced, hdata]
    exact walkFrames_zeroPad hlen bs
  · rw [hnil]
    exact walkFrames_of_length_le (ht.length_le.trans hlen)

theorem Refines.crash (h : Refines ser log t) {dir' : Dir} (hcrash : Crash t.dir dir')
    (hend : ∀ file, dir'.get? log.activeSeq = some file →
      EndRecognisable (log.active.map ser) (file.data.drop headerSize)) :
    ∃ j, log.synced ≤ j ∧
      DirReads ser dir' (log.sealedSegs.insert log.activeSeq (log.active.take j)) := by
  obtain ⟨n, k, hk, file, hdr, b, hfile, hs⟩ := h.active
  have hactive := hcrash log.activeSeq
  rw [← h.activeSeq, hfile, h.activeSeq] at hactive
  cases hfile' : dir'.get? log.activeSeq with
  | none => rw [hfile'] at hactive; cases hactive
  | some file' =>
    rw [hfile'] at hactive
    cases hactive with
    | some ht =>
      obtain ⟨j, hkj, hj, hwalk⟩ := hs.walkFrames_torn ht (hend file' hfile')
      refine ⟨j, hk.trans hkj, ?_⟩
      intro seq
      rw [SMap.get?_insert]
      by_cases hseq : seq = log.activeSeq
      · rw [if_pos hseq, hseq, hfile']
        refine .some ?_
        rw [map_take]
        exact hwalk
      · rw [if_neg hseq]
        have hsealed := h.sealedSegs seq hseq
        have htorn := hcrash seq
        generalize t.dir.get? seq = old?, dir'.get? seq = new?,
          log.sealedSegs.get? seq = xs? at hsealed htorn ⊢
        cases hsealed with
        | none =>
          cases htorn with
          | none => exact .none
        | some hsealed =>
          cases htorn with
          | some ht => exact .some (hsealed.walkFrames_torn ht)

/-! ## Runs that a crash ends -/

def sinceRotation (events : List (WalCommand β × Reply)) : List β :=
  events.foldl (fun xs e =>
    match e with
    | (.append x, _) => xs ++ [x]
    | (.maybeSeal _, .maybeSeal (.ok (some _))) => []
    | _ => xs) []

variable {events : List (WalCommand β × Reply)}

theorem Log.Run.active_eq (h : Log.Run ser fsync log events log') :
    log'.active = events.foldl (fun xs e =>
      match e with
      | (.append x, _) => xs ++ [x]
      | (.maybeSeal _, .maybeSeal (.ok (some _))) => []
      | _ => xs) log.active := by
  induction h with
  | nil log => rfl
  | @cons log log₁ log₂ cmd reply events step run ih =>
    rw [ih, foldl_cons]
    refine congrArg (foldl _ · events) ?_
    cases step with
    | append x =>
      cases fsync with
      | true | false => rfl
    | appendErr | sync | syncErr | tick | tickErr | tickIdle | rotate | rotateIdle | rotateErr
    | rotateSpill => rfl

theorem Log.Run.snoc {log'' : Log β} {cmd : WalCommand β} {reply : Reply}
    (h : Log.Run ser fsync log events log') (hstep : Log.Step ser fsync log' cmd reply log'') :
    Log.Run ser fsync log (events ++ [(cmd, reply)]) log'' := by
  induction h with
  | nil log => exact .cons hstep (.nil _)
  | cons step run ih => exact .cons step (ih hstep)

theorem flushedAcked_snoc {e : WalCommand β × Reply} (h : isFlush fsync e = false) :
    flushedAcked fsync (events ++ [e]) = flushedAcked fsync events := by
  induction events with
  | nil => exact flushedAcked_of_not_any (by simpa using h)
  | cons a es ih =>
    have hany : (a :: es ++ [e]).any (isFlush fsync) = (a :: es).any (isFlush fsync) := by
      rw [any_append, any_cons (a := e), h]
      simp
    rw [cons_append, flushedAcked, flushedAcked, ih, ← cons_append, hany]

theorem run_interrupted {cmds : List (Env × WalCommand β)}
    (hpre : ∀ c ∈ cmds.dropLast, c.1.NoError) (h : Refines ser Log.empty t) :
    ∃ log, Refines ser log (run ser cmds t).2 ∧
      log.durable ser = flushedAcked t.fsyncOnWrite (run ser cmds t).1 ∧
      (log.all ser).map Prod.fst = appended cmds ∧ log.active = sinceRotation (run ser cmds t).1 := by
  have hall : ∀ {log : Log β}, Log.Run ser t.fsyncOnWrite Log.empty (run ser cmds t).1 log →
      (log.all ser).map Prod.fst = appended cmds := by
    intro log hrun
    rw [hrun.map_fst_all, attempted_run]
    rfl
  rcases eq_nil_or_concat cmds with rfl | ⟨pre, c, rfl⟩
  · exact ⟨Log.empty, h, rfl, rfl, rfl⟩
  · rw [concat_eq_append, dropLast_concat] at hpre
    rw [concat_eq_append] at hall ⊢
    obtain ⟨log₁, hrun₁, href₁, hmode₁⟩ := run_refines pre h
    obtain ⟨log₂, hstep, href₂, -⟩ := exec_step c.1 c.2 href₁
    rw [hmode₁] at hstep
    have hrun₂ := hrun₁.snoc hstep
    have hok₁ := noAppendErr_of_ok (run_ok_of_noError hpre h)
    have hevents : (run ser (pre ++ [c]) t).1 =
        (run ser pre t).1 ++ [(c.2, (exec ser c.1 c.2 (run ser pre t).2).1)] := by
      rw [run_append]
      rfl
    rw [hevents] at hall ⊢
    refine ⟨log₂, ?_, ?_, hall hrun₂, hrun₂.active_eq⟩
    · rw [run_append]
      exact href₂
    · cases hflush : isFlush t.fsyncOnWrite (c.2, (exec ser c.1 c.2 (run ser pre t).2).1) with
      | true =>
        -- a command that flushed did not fail
        refine hrun₂.durable_eq_flushedAcked (noAppendErr_append.mpr ⟨hok₁, ?_⟩)
        intro x e he
        rw [← mem_singleton.mp he] at hflush
        cases hflush
      | false =>
        have hsame := hstep.durable_eq
        rw [hflush, if_neg (by simp)] at hsame
        rw [hsame, flushedAcked_snoc hflush]
        exact hrun₁.durable_eq_flushedAcked hok₁

end

/-! ## Recovery after a crash -/

/-- **Recovery after a crash whose damage is recognisable** gives what a sync covered and a prefix
of what was appended after. -/
theorem recover_crash {α : Type} (C : FramedCodec α) {config : WalConfig} {env : Env}
    {t : FileTask} (henv : env.NoError) (hnew : SegmentedWal.new config env SMap.empty = .ok t)
    {cmds : List (Env × WalCommand C.toCodec.Val)} (hpre : ∀ c ∈ cmds.dropLast, c.1.NoError)
    {dir : Dir} (hcrash : Crash (run C.body cmds t).2.dir dir)
    (hend : ∀ file, dir.get? (run C.body cmds t).2.activeSeq = some file →
      EndRecognisable ((sinceRotation (run C.body cmds t).1).map C.body)
        (file.data.drop headerSize))
    {config' : WalConfig} {env' : Env} (henv' : env'.NoError) :
    ∃ t' recs, SegmentedWal.new config' env' dir = .ok t' ∧
      recover C.toCodec t' = .ok (decoded C recs) ∧
      flushedAcked t.fsyncOnWrite (run C.body cmds t).1 <+: recs ∧
      recs.map Prod.fst <+: appended cmds := by
  obtain ⟨h, -⟩ := refines_empty C.body henv hnew
  obtain ⟨log, href, hdurable, hall, hactive⟩ := run_interrupted hpre h
  rw [href.activeSeq, ← hactive] at hend
  obtain ⟨j, hj, hreads⟩ := href.crash hcrash hend
  obtain ⟨t', hnew', hrecover⟩ := recover_new C henv' config' hreads
  refine ⟨t', _, hnew', hrecover, ?_, ?_⟩
  · rw [← hdurable, log.locateAll_insert_activeSeq]
    exact (prefix_append_right_inj _).mpr (locate_isPrefix _ _ _ (take_prefix_take_left hj))
  · rw [← hall, log.locateAll_insert_activeSeq]
    exact ((prefix_append_right_inj _).mpr (locate_isPrefix _ _ _ ( take_prefix j _))).map _

theorem intact_after_sync {β : Type} {ser : β → Body} {log : Log β} {t : FileTask}
    (h : Refines ser log t) (hsealed : log.sealedSegs = SMap.empty) :
    Crash (outcome (flush .ok) t).2.dir (outcome (flush .ok) t).2.dir ∧
      ∀ file, (outcome (flush .ok) t).2.dir.get? (outcome (flush .ok) t).2.activeSeq = some file →
        EndRecognisable (log.active.map ser) (file.data.drop headerSize) := by
  obtain ⟨-, hsame, hok, -, hflushed⟩ := h.flush .ok
  obtain ⟨h', hfull⟩ := hflushed (hok Env.ok_noError)
  rw [← length_map (f := ser)] at hfull
  obtain ⟨file, hfile, hclosed⟩ := hfull.closedFile
  generalize (outcome (flush .ok) t).2 = t' at *
  refine ⟨?_, ?_⟩
  · intro seq
    by_cases hseq : seq = t'.activeSeq
    · rw [hseq, hfile]
      refine .some ?_
      obtain ⟨hdr, -, -, hdurable⟩ := id hclosed
      rw [hdurable]
      exact Torn.refl_of_synced hclosed.dvd_length
    · have hrel := h'.sealedSegs seq (by rw [← h'.activeSeq]; exact hseq)
      rw [show log.flushed.sealedSegs = SMap.empty from hsealed] at hrel
      generalize t'.dir.get? seq = file? at hrel ⊢
      cases hrel with
      | none => exact .none
  · intro file' hfile' j hj _ hnot
    have hsame : file' = file := Option.some.inj (hfile'.symm.trans hfile)
    obtain ⟨hdr, hlen, hdata, -⟩ := hclosed
    refine absurd ?_ hnot
    rw [hsame, hdata, drop_left' hlen, zeroPad]
    have hsplit : frames (log.active.map ser) = frames ((log.active.map ser).take (j + 1)) ++
        frames ((log.active.map ser).drop (j + 1)) := by
      rw [← frames_append, take_append_drop]
    rw [hsplit, append_assoc]
    exact prefix_append _ _

/-- A crash after an append and a sync, which loses nothing. -/
theorem recover_crash_synced : ∃ t t' recs, SegmentedWal.new ⟨false, 1024⟩ .ok SMap.empty = .ok t ∧
      SegmentedWal.new ⟨false, 1024⟩ .ok (run walRecordCodec.body
        [(.ok, .append (plain [1] (by simp))), (.ok, .sync)] t).2.dir = .ok t' ∧
      recover walRecordCodec.toCodec t' = .ok (decoded walRecordCodec recs) ∧
      flushedAcked t.fsyncOnWrite (run walRecordCodec.body
        [(.ok, .append (plain [1] (by simp))), (.ok, .sync)] t).1 <+: recs ∧
      recs.map Prod.fst <+: [plain [1] (by simp)] := by
  obtain ⟨t, hnew, -⟩ := new_spec Env.ok_noError ⟨false, 1024⟩ SMap.empty
  obtain ⟨h, -⟩ := refines_empty walRecordCodec.body Env.ok_noError hnew
  obtain ⟨log, hstep, h₁, -⟩ := exec_step .ok (.append (plain [1] (by simp))) h
  have hlog : log.sealedSegs = SMap.empty ∧ log.active = [plain [1] (by simp)] := by
    generalize t.fsyncOnWrite = fsync,
      (exec walRecordCodec.body .ok (.append (plain [1] (by simp))) t).1 = r at hstep
    cases hstep with
    | append =>
      cases fsync with
      | true | false => exact ⟨rfl, rfl⟩
    | appendErr => exact ⟨rfl, rfl⟩
  obtain ⟨hcrash, hend⟩ := intact_after_sync h₁ hlog.1
  rw [hlog.2] at hend
  have hpre : ∀ c ∈ [((.ok, .append (plain [1] (by simp))) : Env × WalCommand _), (.ok, .sync)].dropLast,
      c.1.NoError := by
    intro c hc
    rw [mem_singleton.mp hc]
    exact Env.ok_noError
  obtain ⟨t', recs, hnew', hrecover, hflushed, happended⟩ :=
    recover_crash walRecordCodec Env.ok_noError hnew hpre hcrash hend Env.ok_noError
  exact ⟨t, t', recs, hnew, hnew', hrecover, hflushed, happended⟩

/-! ## A torn frame that is recovered -/

theorem handleAppend_aligned {t : FileTask} (hfsync : t.fsyncOnWrite = false) (htail : t.tail = [])
    {framed : List UInt8} (hdvd : blockSize ∣ framed.length) (hne : framed ≠ []) :
    Ensures (handleAppend .ok framed) t fun _ t' =>
      t'.dir = t.dir.update t.activeSeq fun f =>
        { f with data := overwrite f.data t.base framed } := by
  have hfull : framed.length / blockSize * blockSize = framed.length := Nat.div_mul_cancel hdvd
  have hpos : framed.length ≠ 0 := fun h => hne (length_eq_zero_iff.mp h)
  have hblocks : Ensures (writeCompleteBlocks .ok) { t with tail := framed } fun r t' =>
      r = .ok () ∧ t'.dir = t.dir.update t.activeSeq fun f =>
        { f with data := overwrite f.data t.base framed } := by
    unfold writeCompleteBlocks
    refine Ensures.get_bind ?_
    simp only [hfull, hpos, if_false, take_length]
    have hwritten : WriteResult.ok.written framed = framed := zeroPad_of_dvd blockSize_pos hdvd
    refine Ensures.bind (P := fun r t' => r = .ok () ∧ t'.dir = t.dir.update t.activeSeq fun f =>
        { f with data := overwrite f.data t.base framed })
      (Ensures.of_outcome (outcome_writeBlocks .ok _ _ _ _) ⟨rfl, ?_⟩) ?_ ?_
    · rw [hwritten]
    · intro _ t₁ ⟨_, hdir⟩
      exact Ensures.modify ⟨rfl, hdir⟩
    · intro e t₁ ⟨hr, _⟩
      cases hr
  unfold handleAppend
  refine Ensures.get_bind (Ensures.set_bind ?_)
  rw [htail, nil_append]
  refine Ensures.bind hblocks ?_ ?_
  · intro _ t₁ ⟨_, hdir⟩
    rw [hfsync]
    exact Ensures.modify_bind (Ensures.modify_bind (Ensures.pure hdir))
  · intro e t₁ ⟨hr, _⟩
    cases hr

def plainHead (len : Nat) : List UInt8 :=
  leBytes 8 (50 + len) ++ (leBytes 8 1 ++ [116] ++ leBytes 4 0 ++ leBytes 8 0 ++ [0] ++ leBytes 8 len)

theorem frame_plain (value : List UInt8) (h : value.length < 2 ^ 62) :
    frame (walRecordCodec.body (plain value h)) =
      plainHead value.length ++ (value ++ List.replicate 20 0) := by
  have hlen : (walRecordCodec.body (plain value h)).bytes.length = 50 + value.length :=
    length_enc_plainRecord value
  have htopic : Codec.string.enc "t" = leBytes 8 1 ++ [116] := by decide
  have hzeros : leBytes 8 0 ++ (leBytes 8 0 ++ leBytes 4 0) = replicate 20 (0 : UInt8) := by
    decide
  rw [frame, hlen, plainHead, ← hzeros]
  show _ ++ walRecordFields.enc (plainRecord value) = _
  simp only [walRecordFields, topicPartitionCodec, recordCodec, plainRecord, Codec.iso, Codec.pair,
    Codec.bytes, Codec.uint, Codec.sint, Codec.option, Codec.list, htopic, append_assoc,
    flatMap_nil, nil_append, length_nil]
  rfl

theorem length_plainHead (len : Nat) : (plainHead len).length = 38 := by
  simp [plainHead]

/-- A frame of two blocks, and what is left of it when the second block is lost. -/
def wideValue : List UInt8 := List.replicate 8134 1

def tornValue : List UInt8 := List.replicate 4058 1 ++ List.replicate 4076 0

theorem length_wideValue : wideValue.length = 8134 := List.length_replicate

theorem length_tornValue : tornValue.length = 8134 := by
  rw [tornValue, length_append, length_replicate, length_replicate]

theorem tornValue_ne : plainRecord tornValue ≠ plainRecord wideValue := by
  intro h
  have hvalue : tornValue = wideValue := congrArg (fun r => r.record.value) h
  have hmem : (0 : UInt8) ∈ wideValue := by
    rw [← hvalue]
    exact mem_append_right _ (mem_replicate.mpr ⟨by decide, rfl⟩)
  exact absurd (eq_of_mem_replicate hmem) (by decide)

def wide : walRecordCodec.toCodec.Val := plain wideValue (by rw [length_wideValue]; norm_num)

def torn : walRecordCodec.toCodec.Val := plain tornValue (by rw [length_tornValue]; norm_num)

theorem frame_wide : frame (walRecordCodec.body wide) =
    (plainHead 8134 ++ List.replicate 4058 1) ++ (List.replicate 4076 1 ++ List.replicate 20 0) := by
  have hsplit : wideValue = replicate 4058 1 ++ replicate 4076 1 := by
    rw [replicate_append_replicate]; rfl
  rw [wide, frame_plain, length_wideValue, hsplit]
  simp only [append_assoc]

theorem frame_torn : frame (walRecordCodec.body torn) =
    (plainHead 8134 ++ List.replicate 4058 1) ++ List.replicate 4096 0 := by
  rw [torn, frame_plain, length_tornValue, tornValue]
  simp only [append_assoc, replicate_append_replicate]

theorem block_of_three {a b c : List UInt8} (ha : a.length = blockSize) (hb : b.length = blockSize)
    (hc : c.length = blockSize) :
    block blockSize 0 (a ++ (b ++ c)) = a ∧ block blockSize 1 (a ++ (b ++ c)) = b ∧
      block blockSize 2 (a ++ (b ++ c)) = c := by
  refine ⟨?_, ?_, ?_⟩
  · rw [block, Nat.mul_zero, drop_zero, take_left' ha]
  · rw [block, Nat.mul_one, drop_left' ha, take_left' hb]
  · rw [block, Nat.mul_two, ← drop_drop, drop_left' ha, drop_left' hb, take_of_length_le hc.le]

theorem torn_wide {hdr : List UInt8} (hlen : hdr.length = headerSize) :
    Torn blockSize hdr (hdr ++ frame (walRecordCodec.body wide))
      (hdr ++ frame (walRecordCodec.body torn)) := by
  have hfirst : (plainHead 8134 ++ replicate 4058 (1 : UInt8)).length = blockSize := by
    rw [length_append, length_plainHead, length_replicate]; rfl
  have hsecond : (replicate 4076 (1 : UInt8) ++ replicate 20 0).length = blockSize := by
    rw [length_append, length_replicate, length_replicate]; rfl
  have hzeros : (replicate 4096 (0 : UInt8)).length = blockSize := length_replicate
  rw [frame_wide, frame_torn]
  generalize plainHead 8134 ++ replicate 4058 (1 : UInt8) = first at hfirst
  generalize replicate 4076 (1 : UInt8) ++ replicate 20 0 = second at hsecond
  have hpadded : hdr ++ replicate ((hdr ++ (first ++ second)).length - hdr.length) (0 : UInt8) =
      hdr ++ (replicate 4096 0 ++ replicate 4096 0) := by
    rw [replicate_append_replicate, length_append, length_append, hfirst, hsecond,
      Nat.add_sub_cancel_left]
    rfl
  have htorn := block_of_three hlen hfirst hzeros
  have hnew := block_of_three hlen hfirst hsecond
  have hold := block_of_three hlen hzeros hzeros
  refine ⟨?_, ?_, ?_, ?_⟩
  · rw [length_append, length_append, hlen, hfirst, hzeros]
    exact ⟨3, rfl⟩
  · rw [length_append]
    exact Nat.le_add_right _ _
  · simp only [length_append, hfirst, hsecond, hzeros]
    exact le_rfl
  · intro i hi
    rw [hpadded]
    match i with
    | 0 => exact .inl (htorn.1.trans hnew.1.symm)
    | 1 => exact .inl (htorn.2.1.trans hnew.2.1.symm)
    | 2 => exact .inr (htorn.2.2.trans hold.2.2.symm)
    | i + 3 =>
      rw [length_append, length_append, hlen, hfirst, hzeros] at hi
      simp only [blockSize, headerSize] at hi
      omega

/-- **A record nobody appended.** The crash loses the second block of a frame whose length survived,
and recovery takes the zeros for the rest of the value. -/
theorem torn_frame_recovered :
    ∃ t dir t', SegmentedWal.new ⟨false, 1048576⟩ .ok SMap.empty = .ok t ∧
      Crash (run walRecordCodec.body [(.ok, .append wide)] t).2.dir dir ∧
      SegmentedWal.new ⟨false, 1048576⟩ .ok dir = .ok t' ∧
      recover walRecordCodec.toCodec t' = .ok [(plainRecord tornValue, ⟨0, 4104, 8184⟩)] ∧
      plainRecord tornValue ≠ plainRecord wideValue := by
  obtain ⟨t, hnew, hmode, hseq, -, hothers, file, hdr, b, hfile, hs⟩ :=
    new_spec Env.ok_noError ⟨false, 1048576⟩ SMap.empty
  have hseq : t.activeSeq = 0 := hseq
  have hb : b = 0 := Nat.le_zero.mp hs.base_le
  have htail : t.tail = [] := by rw [hs.tail_eq, frames_nil, drop_nil]
  have hdata : file.data = hdr := by
    rw [hs.data_eq, frames_nil, take_nil, zeroPad_of_dvd blockSize_pos (dvd_zero _), append_nil]
  have hdurable : file.durable = hdr := by
    rw [hs.durable_eq, take_nil, frames_nil, zeroPad_of_dvd blockSize_pos (dvd_zero _), append_nil]
  have hbase : t.base = hdr.length + 0 := by rw [hs.base_eq, hb, hs.hdr_length]
  have hwrite : overwrite hdr t.base (frame (walRecordCodec.body wide)) =
      hdr ++ frame (walRecordCodec.body wide) := by
    have happ := overwrite_append hdr [] 0 (frame (walRecordCodec.body wide))
    rwa [append_nil, overwrite_nil, ← hbase] at happ
  have hdvd : blockSize ∣ (frame (walRecordCodec.body wide)).length := by
    rw [length_frame, show (walRecordCodec.body wide).bytes.length = 50 + wideValue.length from
      length_enc_plainRecord wideValue, length_wideValue]
    exact ⟨2, rfl⟩
  have hdir : (run walRecordCodec.body [(.ok, .append wide)] t).2.dir = t.dir.update t.activeSeq
      fun f => { f with data := overwrite f.data t.base (frame (walRecordCodec.body wide)) } :=
    handleAppend_aligned hmode htail hdvd (frame_ne_nil _)
  -- the directory after the crash: one segment, with the second block of the frame lost
  obtain ⟨dir, hdir'⟩ : ∃ dir : Dir, dir =
      SMap.empty.insert 0 ⟨hdr ++ frame (walRecordCodec.body torn), []⟩ := ⟨_, rfl⟩
  have hcrash : Crash (run walRecordCodec.body [(.ok, .append wide)] t).2.dir dir := by
    intro seq
    rw [hdir, hdir', get?_update, SMap.get?_insert, hseq]
    by_cases h0 : seq = 0
    · rw [if_pos h0, if_pos h0, h0, ← hseq, hfile]
      refine .some ?_
      show Torn blockSize file.durable (overwrite file.data t.base _) (hdr ++ _)
      rw [hdurable, hdata, hwrite]
      exact torn_wide hs.hdr_length
    · rw [if_neg h0, if_neg h0, hothers seq (by rw [hseq]; exact h0)]
      exact .none
  have hreads : DirReads walRecordCodec.body dir (SMap.empty.insert 0 [torn]) := by
    intro seq
    rw [hdir', SMap.get?_insert, SMap.get?_insert]
    by_cases h0 : seq = 0
    · rw [if_pos h0, if_pos h0]
      refine .some ?_
      have hwalk := walkFrames_frames hs.hdr_length [walRecordCodec.body torn] stops_nil
      rwa [append_nil, frames_cons, frames_nil, append_nil] at hwalk
    · rw [if_neg h0, if_neg h0]
      exact .none
  obtain ⟨t', hnew', hrecover⟩ := recover_new walRecordCodec Env.ok_noError ⟨false, 1048576⟩ hreads
  refine ⟨t, dir, t', hnew, hcrash, hnew', ?_, tornValue_ne⟩
  have hlen : (walRecordCodec.body torn).bytes.length = 8184 := by
    rw [show (walRecordCodec.body torn).bytes.length = 50 + tornValue.length from
      length_enc_plainRecord tornValue, length_tornValue]
  rw [hrecover]
  show Except.ok [(plainRecord tornValue, (⟨0, headerSize + 8,
    (walRecordCodec.body torn).bytes.length % 2 ^ 32⟩ : PhysicalLocation))] = _
  rw [hlen]
  rfl

end RustMq.Wal
