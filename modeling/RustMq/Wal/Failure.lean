import RustMq.Wal.Roundtrip

/-!
# What a failed append leaves behind

The accounting of a run: which appends returned (`acked`), and which of those a successful
flush followed (`flushedAcked`). Along any run of the log in which no append failed, the first
list is everything the log holds and the second is what its syncs cover (`Run.all_eq`,
`Run.durable_eq`), whatever else failed.
-/

namespace RustMq.Wal

open Lib List

/-! ## Flushes in a run -/

variable {β : Type} {fsync : Bool} {t : FileTask}

section

/-- The command ended with a successful flush. In fsync mode an append that returned did. -/
def isFlush (fsync : Bool) : WalCommand β × Reply → Bool
  | (.append _, .append (.ok _)) => fsync
  | (.sync, .sync (.ok _)) => true
  | (.maybeSeal _, .maybeSeal (.ok (some _))) => true
  | (.flushTick, .flushTick (some (.ok _))) => true
  | _ => false

/-- The appends that returned and that a successful flush followed. -/
def flushedAcked (fsync : Bool) : List (WalCommand β × Reply) → List (β × PhysicalLocation)
  | [] => []
  | e :: es => if (e :: es).any (isFlush fsync) then acked [e] ++ flushedAcked fsync es else []

theorem flushedAcked_of_not_any {events : List (WalCommand β × Reply)}
    (h : events.any (isFlush fsync) = false) : flushedAcked fsync events = [] := by
  cases events with
  | nil => rfl
  | cons e es => rw [flushedAcked, if_neg (by simp [h])]

def NoAppendErr (events : List (WalCommand β × Reply)) : Prop :=
  ∀ x e, (WalCommand.append x, Reply.append (.error e)) ∉ events

variable {ser : β → Body} {log log' : Log β} {cmd : WalCommand β} {reply : Reply}
  {events : List (WalCommand β × Reply)}

theorem acked_cons (e : WalCommand β × Reply) (es : List (WalCommand β × Reply)) :
    acked (e :: es) = acked [e] ++ acked es :=
  filterMap_append (l := [e])

theorem Log.Step.all_append {x : β} (h : Log.Step ser fsync log (.append x) reply log') :
    log'.all ser = log.all ser ++ [(x, log.nextLoc ser x)] := by
  cases h with
  | append => rw [Log.all_ite_flushed, Log.all_append]
  | appendErr _ e => exact Log.all_append ser log x

section

variable (h : Log.Step ser fsync log cmd reply log')
include h

theorem Log.Step.all_of_not_append (hcmd : ∀ x, cmd ≠ .append x) : log'.all ser = log.all ser := by
  cases h with
  | append x => exact absurd rfl (hcmd x)
  | appendErr x e => exact absurd rfl (hcmd x)
  | sync | syncErr | tick | tickErr | tickIdle | rotateIdle | rotateErr => rfl
  | rotate force => exact Log.all_rotate ser log
  | rotateSpill force e => exact Log.all_spill ser log

theorem Log.Step.all_eq (hok : NoAppendErr [(cmd, reply)]) :
    log'.all ser = log.all ser ++ acked [(cmd, reply)] := by
  cases cmd with
  | append x =>
    rw [h.all_append]
    cases h with
    | append => rfl
    | appendErr _ e => exact absurd (mem_singleton.mpr rfl) (hok x e)
  | sync | maybeSeal | flushTick =>
    rw [h.all_of_not_append (by rintro x ⟨⟩)]
    exact (append_nil _).symm

theorem Log.Step.durable_eq :
    log'.durable ser = if isFlush fsync (cmd, reply) then log'.all ser else log.durable ser := by
  cases h with
  | append x =>
    cases fsync with
    | true => exact Log.durable_flushed ser (log.append x)
    | false => exact Log.durable_append ser log x
  | appendErr x e => exact Log.durable_append ser log x
  | sync | tick => exact Log.durable_flushed ser log
  | syncErr | tickErr | tickIdle | rotateIdle | rotateErr => rfl
  | rotate force =>
    rw [Log.durable_rotate, ← Log.all_rotate]
    rfl
  | rotateSpill force e => exact Log.durable_spill ser log

end

theorem Log.Run.all_eq (h : Log.Run ser fsync log events log') (hok : NoAppendErr events) :
    log'.all ser = log.all ser ++ acked events := by
  induction h with
  | nil log => exact (append_nil _).symm
  | @cons log log₁ log₂ cmd reply events step run ih =>
    rw [ih fun x e he => hok x e (mem_cons_of_mem _ he),
      step.all_eq fun x e he => hok x e (mem_cons.mpr (.inl (mem_singleton.mp he))),
      acked_cons _ events, append_assoc]

theorem Log.Run.durable_eq (h : Log.Run ser fsync log events log') (hok : NoAppendErr events) :
    log'.durable ser = (if events.any (isFlush fsync) then log.all ser else log.durable ser) ++
      flushedAcked fsync events := by
  induction h with
  | nil log => exact (append_nil _).symm
  | @cons log log₁ log₂ cmd reply events step run ih =>
    have hstep : NoAppendErr [(cmd, reply)] := fun x e he =>
      hok x e (mem_cons.mpr (.inl (mem_singleton.mp he)))
    rw [ih fun x e he => hok x e (mem_cons_of_mem _ he), flushedAcked, any_cons]
    cases hlater : events.any (isFlush fsync) with
    | true =>
      rw [Bool.or_true, if_pos rfl, if_pos rfl, if_pos rfl, step.all_eq hstep, append_assoc]
    | false =>
      rw [flushedAcked_of_not_any hlater, append_nil, append_nil, Bool.or_false,
        if_neg (by simp), step.durable_eq]
      cases hnow : isFlush fsync (cmd, reply) with
      | true =>
        rw [if_pos rfl, if_pos rfl, if_pos rfl]
        exact step.all_eq hstep
      | false => rw [if_neg (by simp), if_neg (by simp), if_neg (by simp), append_nil]

theorem Log.Run.durable_eq_flushedAcked
    (h : Log.Run ser fsync Log.empty events log) (hok : NoAppendErr events) :
    log.durable ser = flushedAcked fsync events := by
  have hnil : Log.durable ser (Log.empty : Log β) = Log.all ser Log.empty := rfl
  rw [h.durable_eq hok, hnil, ite_self]
  rfl

end

/-! ## No trace -/

variable {α : Type}

section

variable (C : FramedCodec α)

/-- What the log returns is what was acknowledged: a fresh process recovers acknowledged records
only, each once, and every one that a flush followed; and so does reading one segment. -/
structure Faithful (fsync : Bool) (events : List (WalCommand C.toCodec.Val × Reply))
    (t : FileTask) : Prop where
  recover : ∀ config env, env.NoError → ∃ t' recs,
    SegmentedWal.new config env t.dir = .ok t' ∧
    recover C.toCodec t' = .ok (decoded C recs) ∧ recs.Nodup ∧ recs.Sublist (acked events) ∧
    (flushedAcked fsync events).Sublist recs
  readSegment : ∀ seq ∈ scanSegmentSeqs t.dir, ∃ recs,
    readSegmentRecords C.toCodec t seq = .ok (recs.map fun e => e.1.1) ∧ recs.Nodup ∧
    recs.Sublist ((acked events).filter fun e => decide (e.2.walSegmentSeq = seq)) ∧
    ((flushedAcked fsync events).filter fun e => decide (e.2.walSegmentSeq = seq)).Sublist recs

/-- However the run goes on without further errors, the log returns what was acknowledged. -/
def NoTrace (t : FileTask) (cmds : List (Env × WalCommand C.toCodec.Val)) : Prop :=
  ∀ more : List (Env × WalCommand C.toCodec.Val), (∀ c ∈ more, c.1.NoError) →
    Faithful C t.fsyncOnWrite (run C.body (cmds ++ more) t).1 (run C.body (cmds ++ more) t).2

theorem readSegmentRecords_eq {segs : SMap Nat (List C.toCodec.Val)}
    (h : DirReads C.body t.dir segs) {seq : Nat} {xs : List C.toCodec.Val}
    (hxs : segs.get? seq = some xs) :
    readSegmentRecords C.toCodec t seq = .ok (xs.map Subtype.val) := by
  have hrel := h seq
  rw [hxs] at hrel
  unfold readSegmentRecords
  generalize t.dir.get? seq = file? at hrel ⊢
  cases hrel with
  | some hwalk =>
    simp only [hwalk]
    generalize headerSize = pos
    refine mapM_ok_of_forall₂ ?_
    clear hwalk hxs
    induction xs generalizing pos with
    | nil => exact .nil
    | cons x xs ih => exact .cons (deserialize_body C x) (ih _)

theorem faithful_of_refines {events : List (WalCommand C.toCodec.Val × Reply)}
    {log : Log C.toCodec.Val} (h : Refines C.body log t) (hall : log.all C.body = acked events)
    (hdurable : log.durable C.body = flushedAcked fsync events) : Faithful C fsync events t := by
  obtain ⟨j, hsynced, -, -, hreads⟩ := h.dirReads
  have hrecs := log.locateAll_insert_activeSeq C.body (log.active.take j)
  -- what is read is a prefix of the log, and the synced part is a prefix of what is read
  have hsub : (locateAll C.body (log.sealedSegs.insert log.activeSeq (log.active.take j))).Sublist
      (acked events) := by
    rw [hrecs, ← hall]
    exact ((prefix_append_right_inj _).mpr (locate_isPrefix _ _ _ ( take_prefix j _))).sublist
  have hsup : (flushedAcked fsync events).Sublist
      (locateAll C.body (log.sealedSegs.insert log.activeSeq (log.active.take j))) := by
    rw [hrecs, ← hdurable]
    exact ((prefix_append_right_inj _).mpr
      (locate_isPrefix _ _ _ (take_prefix_take_left hsynced))).sublist
  refine ⟨?_, ?_⟩
  · intro config env henv
    obtain ⟨t', hnew, hrecover⟩ := recover_new C henv config hreads
    exact ⟨t', _, hnew, hrecover, nodup_locateAll _ _, hsub, hsup⟩
  · intro seq hseq
    obtain ⟨file, hfile⟩ := SMap.mem_keys.mp hseq
    have hrel := hreads seq
    rw [hfile] at hrel
    cases hget : (log.sealedSegs.insert log.activeSeq (log.active.take j)).get? seq with
    | none => rw [hget] at hrel; cases hrel
    | some xs =>
      have hfilter := filter_locateAll C.body hget
      refine ⟨locate C.body seq headerSize xs, ?_, nodup_locate _ _ _ _, ?_, ?_⟩
      · rw [readSegmentRecords_eq C hreads hget]
        have hfst := map_fst_locate C.body seq headerSize xs
        have hval := congrArg (map Subtype.val) hfst
        rw [map_map] at hval
        exact congrArg Except.ok hval.symm
      · rw [← hfilter]; exact hsub.filter _
      · rw [← hfilter]; exact hsup.filter _

end

/-! ## Exactly when -/

section

variable {ser : β → Body} {log log' : Log β}

def AppendsOk (ser : β → Body) : List (Env × WalCommand β) → FileTask → Prop
  | [], _ => True
  | (env, cmd) :: cmds, t =>
    (∀ x, cmd = .append x → AppendIo env t (frame (ser x))) ∧
      AppendsOk ser cmds (exec ser env cmd t).2

variable {events : List (WalCommand β × Reply)}

theorem noAppendErr_append {events' : List (WalCommand β × Reply)} :
    NoAppendErr (events ++ events') ↔ NoAppendErr events ∧ NoAppendErr events' := by
  constructor
  · intro h
    exact ⟨fun x e he => h x e (mem_append_left _ he), fun x e he => h x e (mem_append_right _ he)⟩
  · intro h x e he
    rcases mem_append.mp he with he | he
    · exact h.1 x e he
    · exact h.2 x e he

theorem noAppendErr_of_ok (h : ∀ e ∈ events, e.2.Ok) : NoAppendErr events := by
  intro x e he
  obtain ⟨loc, hloc⟩ := h _ he
  cases hloc

theorem noAppendErr_run_iff (cmds : List (Env × WalCommand β)) (h : Refines ser log t) :
    NoAppendErr (run ser cmds t).1 ↔ AppendsOk ser cmds t := by
  induction cmds generalizing log t with
  | nil => exact ⟨fun _ => trivial, fun _ x e he => absurd he (by simp [run])⟩
  | cons c cmds ih =>
    obtain ⟨env, cmd⟩ := c
    obtain ⟨log₁, hstep, h₁, -⟩ := exec_step env cmd h
    have hcons : (run ser ((env, cmd) :: cmds) t).1 =
        [(cmd, (exec ser env cmd t).1)] ++ (run ser cmds (exec ser env cmd t).2).1 := rfl
    rw [hcons, noAppendErr_append, ih h₁, AppendsOk]
    refine and_congr_left fun _ => ?_
    constructor
    · intro hok x hx
      subst hx
      refine (exec_append_ok_iff env x h).mp ?_
      generalize (exec ser env (.append x) t).1 = reply at hstep hok ⊢
      cases hstep with
      | append => exact ⟨_, rfl⟩
      | appendErr _ e => exact absurd (mem_singleton.mpr rfl) (hok x e)
    · intro hio x e he
      have he := mem_singleton.mp he
      have hcmd : cmd = .append x := (congrArg Prod.fst he).symm
      subst hcmd
      obtain ⟨loc, hloc⟩ := (exec_append_ok_iff env x h).mpr (hio x rfl)
      have hreply : Reply.append (.error e) = (exec ser env (.append x) t).1 :=
        congrArg Prod.snd he
      cases (Reply.append.inj hreply).trans hloc

def attempted (events : List (WalCommand β × Reply)) : List β :=
  events.filterMap fun
    | (.append x, _) => some x
    | _ => none

theorem attempted_append (events events' : List (WalCommand β × Reply)) :
    attempted (events ++ events') = attempted events ++ attempted events' :=
  filterMap_append

theorem attempted_run (cmds : List (Env × WalCommand β)) (t : FileTask) :
    attempted (run ser cmds t).1 = appended cmds := by
  induction cmds generalizing t with
  | nil => rfl
  | cons c cmds ih =>
    obtain ⟨env, cmd⟩ := c
    have ih := ih (exec ser env cmd t).2
    cases cmd with
    | append x => exact congrArg (x :: ·) ih
    | sync | maybeSeal | flushTick => exact ih

theorem Log.Run.map_fst_all (h : Log.Run ser fsync log events log') :
    (log'.all ser).map Prod.fst = (log.all ser).map Prod.fst ++ attempted events := by
  induction h with
  | nil log => exact (append_nil _).symm
  | @cons log log₁ log₂ cmd reply events step run ih =>
    have hcons : attempted ((cmd, reply) :: events) =
        attempted [(cmd, reply)] ++ attempted events := attempted_append [(cmd, reply)] events
    have hstep : (log₁.all ser).map Prod.fst =
        (log.all ser).map Prod.fst ++ attempted [(cmd, reply)] := by
      cases cmd with
      | append x =>
        rw [step.all_append, map_append]
        rfl
      | sync | maybeSeal | flushTick =>
        rw [step.all_of_not_append (by rintro x ⟨⟩)]
        exact (append_nil _).symm
    rw [ih, hstep, hcons, append_assoc]

theorem length_acked_le (events : List (WalCommand β × Reply)) :
    (acked events).length ≤ (attempted events).length := by
  induction events with
  | nil => exact le_rfl
  | cons e es ih =>
    rw [acked_cons, length_append, show attempted (e :: es) = attempted [e] ++ attempted es from
      attempted_append [e] es, length_append]
    refine Nat.add_le_add ?_ ih
    obtain ⟨cmd, reply⟩ := e
    cases cmd with
    | append x => exact length_filterMap_le _ [_]
    | sync | maybeSeal | flushTick => exact le_rfl

theorem length_acked_lt {x : β} {e : RustMqError}
    (h : (WalCommand.append x, Reply.append (.error e)) ∈ events) :
    (acked events).length < (attempted events).length := by
  obtain ⟨before, after, rfl⟩ := append_of_mem h
  have hbefore := length_acked_le before
  have hafter := length_acked_le after
  have hacked : acked (before ++ (WalCommand.append x, Reply.append (.error e)) :: after) =
      acked before ++ acked after := by
    rw [acked, filterMap_append]
    rfl
  have hattempted : attempted (before ++ (WalCommand.append x, Reply.append (.error e)) :: after) =
      attempted before ++ x :: attempted after := by
    rw [attempted_append]
    rfl
  rw [hacked, hattempted, length_append, length_append, length_cons]
  omega

end

section

variable (C : FramedCodec α)

theorem faithful_run {cmds : List (Env × WalCommand C.toCodec.Val)} (h : Refines C.body Log.empty t)
    (hok : NoAppendErr (run C.body cmds t).1) :
    Faithful C t.fsyncOnWrite (run C.body cmds t).1 (run C.body cmds t).2 := by
  obtain ⟨log, hrun, hrefines, -⟩ := run_refines cmds h
  exact faithful_of_refines C hrefines (hrun.all_eq hok) (hrun.durable_eq_flushedAcked hok)

theorem length_recover_after_sync (h : Refines C.body Log.empty t)
    (cmds : List (Env × WalCommand C.toCodec.Val)) (config : WalConfig) :
    ∃ t' recs, SegmentedWal.new config .ok (run C.body (cmds ++ [(.ok, .sync)]) t).2.dir = .ok t' ∧
      recover C.toCodec t' = .ok (decoded C recs) ∧
      recs.length = (attempted (run C.body (cmds ++ [(.ok, .sync)]) t).1).length := by
  obtain ⟨log, hrun, hrefines, -⟩ := run_refines cmds h
  obtain ⟨-, -, hok, -, hflushed⟩ := hrefines.flush .ok
  obtain ⟨hrefines', hactive⟩ := hflushed (hok Env.ok_noError)
  obtain ⟨j, -, -, hj, hreads⟩ := hrefines'.dirReads
  have hj := hj _ hactive
  obtain ⟨t', hnew, hrecover⟩ := recover_new C Env.ok_noError config hreads
  refine ⟨t', _, ?_, hrecover, ?_⟩
  · rw [run_append]
    exact hnew
  · have hall := congrArg length hrun.map_fst_all
    rw [length_map] at hall
    rw [log.flushed.locateAll_insert_activeSeq, hj, take_length, run_append, attempted_append]
    show (log.all C.body).length = (attempted _ ++ []).length
    rw [hall, append_nil]
    rfl

end

/-! ## A failed append that is recovered -/

def syncFails : Env := { Env.ok with sync := false }

theorem recover_failed_append {α : Type} (C : FramedCodec α) (x : C.toCodec.Val)
    (config : WalConfig) (hfsync : config.fsyncOnWrite = true) :
    ∃ t e, SegmentedWal.new config .ok SMap.empty = .ok t ∧
      (run C.body [(syncFails, .append x), (.ok, .sync)] t).1 =
        [(.append x, .append (.error e)), (.sync, .sync (.ok ()))] ∧
      ∃ t', SegmentedWal.new config .ok
          (run C.body [(syncFails, .append x), (.ok, .sync)] t).2.dir = .ok t' ∧
        recover C.toCodec t' =
          .ok [(x.1, ⟨0, headerSize + 8, (C.body x).bytes.length % 2 ^ 32⟩)] := by
  obtain ⟨t, hnew, -⟩ := new_spec Env.ok_noError config SMap.empty
  obtain ⟨h, hmode⟩ := refines_empty C.body Env.ok_noError hnew
  obtain ⟨log, hstep, h₁, -⟩ := exec_step syncFails (.append x) h
  have hfails : ¬ AppendIo syncFails t (frame (C.body x)) := fun hio =>
    nomatch (hio.2 (hmode.trans hfsync)).2
  have hreply : ∃ e, (exec C.body syncFails (.append x) t).1 = .append (.error e) ∧
      log = Log.empty.append x := by
    have hnot := mt (exec_append_ok_iff syncFails x h).mp hfails
    generalize (exec C.body syncFails (.append x) t).1 = reply at hstep hnot
    cases hstep with
    | append => exact absurd ⟨_, rfl⟩ hnot
    | appendErr _ e => exact ⟨e, rfl, rfl⟩
  obtain ⟨e, hreply, rfl⟩ := hreply
  obtain ⟨-, -, hok, -, hflushed⟩ := h₁.flush .ok
  have hok := hok Env.ok_noError
  obtain ⟨h₂, hactive⟩ := hflushed hok
  obtain ⟨j, -, -, hj, hreads⟩ := h₂.dirReads
  rw [hj _ hactive, take_length] at hreads
  obtain ⟨t', hnew', hrecover⟩ := recover_new C Env.ok_noError config hreads
  refine ⟨t, e, hnew, ?_, t', hnew', hrecover⟩
  show [(_, (exec C.body _ (.append x) t).1), (_, Reply.sync _)] = _
  rw [hreply]
  exact congrArg (fun r => [_, (_, Reply.sync r)]) hok

def plainRecord (value : List UInt8) : WalRecord := ⟨⟨"t", 0⟩, 0, ⟨none, value, [], 0⟩, 0⟩

theorem length_enc_plainRecord (value : List UInt8) :
    (walRecordFields.enc (plainRecord value)).length = 50 + value.length := by
  have htopic : (Codec.string.enc "t").length = 9 := by decide
  simp only [walRecordFields, topicPartitionCodec, recordCodec, plainRecord, Codec.iso, Codec.pair,
    Codec.bytes, Codec.uint, Codec.sint, Codec.option, Codec.list, length_append,
    length_leBytes, htopic, length_singleton, flatMap_nil, length_nil]
  omega

theorem plainRecord_fits {value : List UInt8} (h : value.length < 2 ^ 62) :
    walRecordCodec.Fits (plainRecord value) := by
  refine ⟨?_, ?_⟩
  · have hvalue : value.length < 256 ^ 8 := lt_trans h (by decide)
    exact walRecordFields_fits_value (by decide) (by decide) hvalue
  · show (walRecordFields.enc (plainRecord value)).length < 2 ^ 63
    rw [length_enc_plainRecord]
    omega

def plain (value : List UInt8) (h : value.length < 2 ^ 62) : walRecordCodec.toCodec.Val :=
  ⟨plainRecord value, plainRecord_fits h⟩

end RustMq.Wal
