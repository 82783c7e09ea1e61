import RustMq.Wal.Reading

/-!
# Framing round trip

A fresh segment to which bodies are appended, with flushes at any points and no I/O error.
`run_active` says that the segment stays the stream of the bodies appended so far, and that each
append returned where the walk will find its body. Once the last command flushed, or sealed the
segment, the file reads back as exactly those bodies.
-/

namespace RustMq.Wal

open Lib List

def FreshSegment (t : FileTask) : Prop :=
  t.base = headerSize ∧ t.tail = [] ∧
    ∃ hdr : List UInt8, hdr.length = headerSize ∧ t.dir.get? t.activeSeq = some ⟨hdr, hdr⟩

variable {t : FileTask} {bs : List Body} {n k : Nat} {env : Env} {cmd : WalCommand Body}

theorem FreshSegment.active (h : FreshSegment t) : Active [] 0 0 t := by
  obtain ⟨hbase, htail, hdr, hlen, hfile⟩ := h
  refine ⟨⟨hdr, hdr⟩, hdr, 0, hfile, ?_⟩
  rw [hbase, htail]
  exact Stream.fresh hlen

theorem exec_active (h : Active bs n k t) (henv : env.NoError)
    (hcmd : ∀ force, cmd ≠ .maybeSeal force) :
    ∃ n' k', Active (bs ++ appended [(env, cmd)]) n' k' (exec id env cmd t).2 ∧
      (exec id env cmd t).2.activeSeq = t.activeSeq ∧
      acked [(cmd, (exec id env cmd t).1)] =
        locate id t.activeSeq (headerSize + (frames bs).length) (appended [(env, cmd)]) := by
  obtain ⟨hsame, -, ⟨n', k', -, hflush⟩, -⟩ := flush_spec env h
  cases cmd with
  | append b =>
    obtain ⟨hsame, ⟨n', k', -, hactive, -⟩, hio, hloc, -⟩ := handleAppend_spec env b h
    obtain ⟨loc, hr⟩ := hio.mpr (appendIo_of_noError henv t _)
    refine ⟨n', k', hactive, hsame.activeSeq, ?_⟩
    have hreply : (exec id env (.append b) t).1 = .append (.ok loc) := congrArg Reply.append hr
    rw [hreply, (hloc loc hr).2]
    rfl
  | sync =>
    refine ⟨n', k', ?_, hsame.activeSeq, rfl⟩
    rw [show appended [(env, WalCommand.sync)] = ([] : List Body) from rfl, append_nil]
    exact hflush
  | maybeSeal force => exact absurd rfl (hcmd force)
  | flushTick =>
    rw [show appended [(env, WalCommand.flushTick)] = ([] : List Body) from rfl, append_nil]
    unfold exec
    cases hneeds : t.needsFlush with
    | false => exact ⟨n, k, h, rfl, rfl⟩
    | true => exact ⟨n', k', hflush, hsame.activeSeq, rfl⟩

theorem run_active (h : Active bs n k t) {cmds : List (Env × WalCommand Body)}
    (hcmds : ∀ c ∈ cmds, c.1.NoError ∧ ∀ force, c.2 ≠ .maybeSeal force) :
    ∃ n' k', Active (bs ++ appended cmds) n' k' (run id cmds t).2 ∧
      (run id cmds t).2.activeSeq = t.activeSeq ∧
      acked (run id cmds t).1 =
        locate id t.activeSeq (headerSize + (frames bs).length) (appended cmds) := by
  induction cmds generalizing bs n k t with
  | nil => exact ⟨n, k, by rw [appended, filterMap_nil, append_nil]; exact h, rfl, rfl⟩
  | cons c cmds ih =>
    obtain ⟨henv, hcmd⟩ := hcmds c mem_cons_self
    obtain ⟨n₁, k₁, h₁, hseq₁, hacked₁⟩ := exec_active h henv hcmd
    obtain ⟨n₂, k₂, h₂, hseq₂, hacked₂⟩ :=
      ih h₁ (fun c' hc => hcmds c' (mem_cons_of_mem _ hc))
    have happ : appended (c :: cmds) = appended [c] ++ appended cmds :=
      filterMap_append (l := [c])
    have hack : acked (run id (c :: cmds) t).1 = acked [(c.2, (exec id c.1 c.2 t).1)] ++
        acked (run id cmds (exec id c.1 c.2 t).2).1 :=
      filterMap_append (l := [(c.2, (exec id c.1 c.2 t).1)])
    refine ⟨n₂, k₂, ?_, hseq₂.trans hseq₁, ?_⟩
    · rw [happ, ← append_assoc]
      exact h₂
    · rw [hack, hacked₁, hacked₂, hseq₁, happ, locate_append, map_id, frames_append,
        length_append, Nat.add_assoc]

/-- The last command flushes the segment: a sync, or a seal that rotated. -/
def Closes (env : Env) (cmd : WalCommand Body) (t : FileTask) : Prop :=
  cmd = .sync ∨ ∃ force seq, cmd = .maybeSeal force ∧
    (exec id env cmd t).1 = .maybeSeal (.ok (some seq))

theorem exec_closes (h : Active bs n k t) (henv : env.NoError) (hclose : Closes env cmd t) :
    acked [(cmd, (exec id env cmd t).1)] = [] ∧
      ∃ file, (exec id env cmd t).2.dir.get? t.activeSeq = some file ∧ ClosedFile bs file := by
  rcases hclose with rfl | ⟨force, seq, rfl, hreply⟩
  · obtain ⟨hsame, -, -, hio, hfull⟩ := flush_spec env h
    obtain ⟨file, hfile, hsealed⟩ :=
      (hfull (hio.mpr ⟨fun _ => henv.tail, henv.sync⟩)).closedFile
    rw [hsame.activeSeq] at hfile
    exact ⟨rfl, file, hfile, hsealed⟩
  · obtain ⟨-, -, -, hsealed, -⟩ := handleMaybeSeal_spec env force h
    obtain ⟨-, -, -, -, hfile⟩ := hsealed seq (Reply.maybeSeal.inj hreply)
    exact ⟨rfl, hfile⟩

/-- **Framing round-trips**: the closed file walks as the appended bodies, in order, at the offsets
the appends returned. -/
theorem walkFrames_run {t : FileTask} (hfresh : FreshSegment t)
    {cmds : List (Env × WalCommand Body)}
    (hcmds : ∀ c ∈ cmds, c.1.NoError ∧ ∀ force, c.2 ≠ .maybeSeal force)
    {env : Env} (henv : env.NoError) {last : WalCommand Body}
    (hclose : Closes env last (run id cmds t).2) :
    ∃ file, (run id (cmds ++ [(env, last)]) t).2.dir.get? t.activeSeq = some file ∧
      (acked (run id (cmds ++ [(env, last)]) t).1).map Prod.fst = appended cmds ∧
      walkFrames file.data = (acked (run id (cmds ++ [(env, last)]) t).1).map
        (fun e => (e.2.fileOffset, e.1.bytes)) ∧
      (∀ e ∈ acked (run id (cmds ++ [(env, last)]) t).1,
        e.2.walSegmentSeq = t.activeSeq ∧ e.2.frameLen = e.1.bytes.length % 2 ^ 32) ∧
      blockSize ∣ file.data.length := by
  obtain ⟨n, k, hactive, hseq, hacked⟩ := run_active hfresh.active hcmds
  obtain ⟨hnone, file, hfile, hclosed⟩ := exec_closes hactive henv hclose
  rw [nil_append] at hclosed
  rw [hseq] at hfile
  have hack : acked (run id (cmds ++ [(env, last)]) t).1 =
      locate id t.activeSeq headerSize (appended cmds) := by
    rw [run_append, acked, filterMap_append, ← acked, hacked]
    show _ ++ acked [(last, (exec id env last (run id cmds t).2).1)] = _
    rw [hnone, append_nil]
    rfl
  rw [hack]
  refine ⟨file, ?_, map_fst_locate id _ _ _, ?_, ?_, ?_⟩
  · rw [run_append]
    exact hfile
  · rw [SealedFile.walkFrames_eq (Or.inl hclosed)]
    have := map_locate_eq_located id t.activeSeq headerSize (appended cmds)
    rw [map_id] at this
    exact this.symm
  · intro e he
    exact (mem_locate id he).imp_right And.left
  · exact hclosed.dvd_length

def openedTask (fsyncOnWrite : Bool) : FileTask :=
  ⟨SMap.empty.insert 0 ⟨buildHeader 0 0, buildHeader 0 0⟩, headerSize, [], 0, 0, false,
    fsyncOnWrite, 0, 0⟩

theorem openedTask_fresh (fsyncOnWrite : Bool) : FreshSegment (openedTask fsyncOnWrite) :=
  ⟨rfl, rfl, buildHeader 0 0, length_buildHeader 0 0, SMap.get?_insert_self _ _ _⟩

def twoAppends : List (Env × WalCommand Body) :=
  [(.ok, .append ⟨[1], by simp, by simp⟩), (.ok, .sync), (.ok, .append ⟨[2, 3], by simp, by simp⟩)]

theorem twoAppends_noError : ∀ c ∈ twoAppends, c.1.NoError ∧ ∀ force, c.2 ≠ .maybeSeal force := by
  intro c hc
  simp only [twoAppends, mem_cons, not_mem_nil, or_false] at hc
  rcases hc with rfl | rfl | rfl
  · exact ⟨Env.ok_noError, fun _ h => nomatch h⟩
  · exact ⟨Env.ok_noError, fun _ h => nomatch h⟩
  · exact ⟨Env.ok_noError, fun _ h => nomatch h⟩

theorem walkFrames_run_twoAppends :
    ∃ events t, run id (twoAppends ++ [(Env.ok, WalCommand.sync)]) (openedTask false) = (events, t) ∧
      ∃ file, t.dir.get? 0 = some file ∧ (acked events).map Prod.fst = appended twoAppends ∧
      walkFrames file.data = (acked events).map (fun e => (e.2.fileOffset, e.1.bytes)) ∧
      (∀ e ∈ acked events, e.2.walSegmentSeq = 0 ∧ e.2.frameLen = e.1.bytes.length % 2 ^ 32) ∧
      blockSize ∣ file.data.length := by
  have hclose : Closes .ok .sync (run id twoAppends (openedTask false)).2 := Or.inl rfl
  exact ⟨_, _, Prod.mk.eta.symm,
    walkFrames_run (openedTask_fresh false) twoAppends_noError Env.ok_noError hclose⟩

end RustMq.Wal
