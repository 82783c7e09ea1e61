import RustMq.Wal.Failure

/-!
# The log over process lifetimes

A log lives longer than the process that writes it. `Alive ser t hist deleted` is every state a log
can be in when no I/O call fails: a process opened an empty directory and has since executed
commands, deleted sealed segments, or stopped after a sync and been started again, any number of
times. `hist` lists the appends of all lifetimes with their locations, and `deleted` the segments
that were removed.
-/

namespace RustMq.Wal

open Lib List SMap

section

variable {β : Type} {ser : β → Body} {log : Log β} {t : FileTask} {seq : Nat} {env : Env}
  {deleted : List Nat}

/-! ## Deleting and reopening -/

theorem Refines.delete (h : Refines ser log t) (hne : seq ≠ log.activeSeq) :
    Refines ser (log.delete seq) (deleteSegment t seq) := by
  refine ⟨h.activeSeq, ?_, ?_⟩
  · intro a ha
    show Option.Rel _ ((t.dir.erase seq).get? a) ((log.sealedSegs.erase seq).get? a)
    rw [get?_erase, get?_erase]
    by_cases hseq : a = seq
    · rw [if_pos hseq, if_pos hseq]
      exact .none
    · rw [if_neg hseq, if_neg hseq]
      exact h.sealedSegs a ha
  · obtain ⟨n, k, hk, hactive⟩ := h.active
    refine ⟨n, k, hk, hactive.congr_dir ?_⟩
    rw [SMap.get?_erase, if_neg (by rw [h.activeSeq]; exact hne.symm)]

theorem Refines.mem_keys (h : Refines ser log t) :
    seq ∈ t.dir.keys ↔ seq = log.activeSeq ∨ ∃ xs, log.sealedSegs.get? seq = some xs := by
  rw [SMap.mem_keys]
  by_cases hseq : seq = log.activeSeq
  · obtain ⟨n, k, -, file, hdr, b, hfile, -⟩ := h.active
    refine iff_of_true ⟨file, ?_⟩ (.inl hseq)
    rw [hseq, ← h.activeSeq]
    exact hfile
  · have hrel := h.sealedSegs seq hseq
    generalize t.dir.get? seq = file?, log.sealedSegs.get? seq = xs? at hrel ⊢
    cases hrel with
    | none =>
      constructor
      · rintro ⟨_, hfile⟩
        cases hfile
      · rintro (hactive | ⟨_, hxs⟩)
        · exact absurd hactive hseq
        · cases hxs
    | some _ => exact iff_of_true ⟨_, rfl⟩ (.inr ⟨_, rfl⟩)

/-- **A restart after a sync is a rotation.** -/
theorem Refines.reopen (h : Refines ser log t)
    (hflushed : Active (log.active.map ser) (frames (log.active.map ser)).length
      log.active.length t)
    (hbound : ∀ seq xs, log.sealedSegs.get? seq = some xs → seq < log.activeSeq)
    (henv : env.NoError) (config : WalConfig) :
    ∃ t', SegmentedWal.new config env t.dir = .ok t' ∧ Refines ser log.rotate t' := by
  obtain ⟨t', hnew, -, hseq, -, hothers, hactive⟩ := new_spec henv config t.dir
  have hmax : (scanSegmentSeqs t.dir).max? = some log.activeSeq := by
    refine max?_eq_some_iff.mpr ⟨h.mem_keys.mpr (.inl rfl), ?_⟩
    intro seq hmem
    rcases h.mem_keys.mp hmem with rfl | ⟨xs, hxs⟩
    · exact le_rfl
    · exact (hbound seq xs hxs).le
  rw [hmax] at hseq
  have hseq : t'.activeSeq = log.activeSeq + 1 := hseq
  refine ⟨t', hnew, hseq, ?_, 0, 0, le_rfl, hactive⟩
  intro seq hne
  have hne : seq ≠ log.activeSeq + 1 := hne
  show Option.Rel _ _
    (((log.sealedSegs.erase (log.activeSeq + 1)).insert log.activeSeq log.active).get? seq)
  rw [hothers seq (by rw [hseq]; exact hne), get?_insert, get?_erase, if_neg hne]
  by_cases hold : seq = log.activeSeq
  · rw [← length_map (f := ser)] at hflushed
    obtain ⟨file, hfile, hclosed⟩ := hflushed.closedFile
    rw [if_pos hold, hold, ← h.activeSeq, hfile]
    exact .some (.inl hclosed)
  · rw [if_neg hold]
    exact h.sealedSegs seq hold

/-! ## Histories -/

/-- The states of a log without I/O errors, with the appends that returned and the segments that
were deleted since its directory was created. -/
inductive Alive (ser : β → Body) :
    FileTask → List (β × PhysicalLocation) → List Nat → Prop
  | create {config : WalConfig} {env : Env} {t : FileTask} (henv : env.NoError)
      (hnew : SegmentedWal.new config env SMap.empty = .ok t) : Alive ser t [] []
  | command {t : FileTask} {hist : List (β × PhysicalLocation)} {deleted : List Nat} {env : Env}
      (h : Alive ser t hist deleted) (henv : env.NoError) (cmd : WalCommand β) :
      Alive ser (exec ser env cmd t).2 (hist ++ acked [(cmd, (exec ser env cmd t).1)]) deleted
  | delete {t : FileTask} {hist : List (β × PhysicalLocation)} {deleted : List Nat} {seq : Nat}
      (h : Alive ser t hist deleted) (hseq : seq ∈ sealedSegments t) :
      Alive ser (deleteSegment t seq) hist (seq :: deleted)
  | restart {t t' : FileTask} {hist : List (β × PhysicalLocation)} {deleted : List Nat}
      {env env' : Env} {config : WalConfig} (h : Alive ser t hist deleted) (henv : env.NoError)
      (henv' : env'.NoError)
      (hnew : SegmentedWal.new config env' (exec ser env .sync t).2.dir = .ok t') :
      Alive ser t' hist deleted

/-- The part of a history that lies in segments that still exist. -/
def surviving (hist : List (β × PhysicalLocation)) (deleted : List Nat) :
    List (β × PhysicalLocation) :=
  hist.filter fun e => e.2.walSegmentSeq ∉ deleted

/-- The log holds the surviving history, in all segments numbered so far that were not deleted. -/
structure Represents (ser : β → Body) (log : Log β) (hist : List (β × PhysicalLocation))
    (deleted : List Nat) : Prop where
  all_eq : log.all ser = surviving hist deleted
  keys : ∀ seq, (∃ xs, log.sealedSegs.get? seq = some xs) ↔ seq < log.activeSeq ∧ seq ∉ deleted
  deleted_lt : ∀ seq ∈ deleted, seq < log.activeSeq

namespace Represents

variable {hist : List (β × PhysicalLocation)}

theorem bound (h : Represents ser log hist deleted) (seq : Nat) (xs : List β)
    (hxs : log.sealedSegs.get? seq = some xs) : seq < log.activeSeq :=
  ((h.keys seq).mp ⟨xs, hxs⟩).1

theorem empty : Represents ser Log.empty [] [] :=
  ⟨rfl, fun _ => ⟨fun ⟨_, h⟩ => (nomatch h), fun h => absurd h.1 (Nat.not_lt_zero _)⟩,
    fun _ h => absurd h (by simp)⟩

variable (h : Represents ser log hist deleted) {log' : Log β}
include h

theorem onlyActive {log' : Log β} (hsealed : log'.sealedSegs = log.sealedSegs)
    (hseq : log'.activeSeq = log.activeSeq) {new : List (β × PhysicalLocation)}
    (hall : log'.all ser = log.all ser ++ new) (hnew : ∀ e ∈ new, e.2.walSegmentSeq = log.activeSeq) :
    Represents ser log' (hist ++ new) deleted := by
  have hkeep : surviving new deleted = new := by
    refine filter_eq_self.mpr fun e he => decide_eq_true fun hmem => ?_
    have hlt := h.deleted_lt _ hmem
    rw [hnew e he] at hlt
    exact lt_irrefl _ hlt
  refine ⟨?_, ?_, ?_⟩
  · have hsplit : surviving (hist ++ new) deleted = surviving hist deleted ++ surviving new deleted :=
      filter_append _ _
    rw [hall, h.all_eq, hsplit, hkeep]
  · rw [hsealed, hseq]; exact h.keys
  · rw [hseq]; exact h.deleted_lt

theorem rotate : Represents ser log.rotate hist deleted := by
  have hfresh : log.activeSeq ∉ deleted := fun hmem => lt_irrefl _ (h.deleted_lt _ hmem)
  refine ⟨?_, ?_, ?_⟩
  · rw [Log.all_rotate]; exact h.all_eq
  · intro seq
    show (∃ xs, ((log.sealedSegs.erase (log.activeSeq + 1)).insert log.activeSeq log.active).get?
      seq = some xs) ↔ seq < log.activeSeq + 1 ∧ _
    rw [get?_insert, get?_erase]
    by_cases hseq : seq = log.activeSeq
    · rw [if_pos hseq]
      exact iff_of_true ⟨_, rfl⟩ ⟨by omega, by rw [hseq]; exact hfresh⟩
    · rw [if_neg hseq]
      by_cases hnext : seq = log.activeSeq + 1
      · rw [if_pos hnext]
        refine ⟨?_, fun h => absurd h.1 (by omega)⟩
        rintro ⟨_, hget⟩
        cases hget
      · rw [if_neg hnext, h.keys seq]
        exact and_congr_left fun _ => ⟨fun h => by omega, fun h => by omega⟩
  · intro seq hmem
    exact (h.deleted_lt seq hmem).trans (Nat.lt_succ_self _)

theorem delete {xs : List β} (hxs : log.sealedSegs.get? seq = some xs) :
    Represents ser (log.delete seq) hist (seq :: deleted) := by
  have hlt := h.bound seq xs hxs
  refine ⟨?_, ?_, ?_⟩
  · rw [Log.all_delete ser log hlt.ne, h.all_eq, surviving, surviving, filter_filter]
    refine filter_congr fun e _ => ?_
    simp only [mem_cons, not_or, Bool.decide_and]
  · intro a
    show (∃ xs, (log.sealedSegs.erase seq).get? a = some xs) ↔ a < log.activeSeq ∧ _
    rw [get?_erase, mem_cons, not_or]
    by_cases ha : a = seq
    · rw [if_pos ha]
      refine ⟨?_, fun h => absurd ha h.2.1⟩
      rintro ⟨_, hget⟩
      cases hget
    · rw [if_neg ha, h.keys a]
      exact ⟨fun h => ⟨h.1, ha, h.2⟩, fun h => ⟨h.1, h.2.2⟩⟩
  · intro a hmem
    rcases mem_cons.mp hmem with rfl | hmem
    · exact hlt
    · exact h.deleted_lt a hmem

theorem step {fsync : Bool} {cmd : WalCommand β} {reply : Reply}
    (hstep : Log.Step ser fsync log cmd reply log') (hok : reply.Ok) :
    Represents ser log' (hist ++ acked [(cmd, reply)]) deleted := by
  have hall := hstep.all_eq (noAppendErr_of_ok fun e he => by
    rw [mem_singleton.mp he]; exact hok)
  have hnone : Represents ser log (hist ++ []) deleted := by rw [append_nil]; exact h
  cases hstep with
  | append x =>
    have hloc : ∀ e ∈ acked [(WalCommand.append x, Reply.append (.ok (log.nextLoc ser x)))],
        e.2.walSegmentSeq = log.activeSeq := by
      intro e he
      rw [mem_singleton.mp he]
      rfl
    cases fsync with
    | true | false => exact h.onlyActive (by rfl) (by rfl) hall hloc
  | appendErr x e =>
    obtain ⟨loc, hloc⟩ := hok
    cases hloc
  | sync | tick => exact h.onlyActive (by rfl) (by rfl) hall fun e he => absurd he (by simp [acked])
  | syncErr e => cases hok
  | tickErr | tickIdle | rotateIdle | rotateErr => exact hnone
  | rotate force =>
    show Represents ser log.rotate (hist ++ []) deleted
    rw [append_nil]
    exact h.rotate
  | rotateSpill force e =>
    obtain ⟨seq, hseq⟩ := hok
    cases hseq

end Represents

theorem eq_of_sorted_of_mem_iff {l l' : List Nat} (h : l.Pairwise (· < ·))
    (h' : l'.Pairwise (· < ·)) (hmem : ∀ a, a ∈ l ↔ a ∈ l') : l = l' := by
  have hperm := (perm_ext_iff_of_nodup h.nodup h'.nodup).mpr hmem
  refine hperm.eq_of_pairwise ?_ h h'
  intro a b _ _ hab hba
  exact absurd hab (Nat.lt_asymm hba)

variable {hist : List (β × PhysicalLocation)}

theorem sealedSegments_eq (h : Refines ser log t) (hrep : Represents ser log hist deleted) :
    sealedSegments t = (List.range t.activeSeq).filter fun seq => seq ∉ deleted := by
  refine eq_of_sorted_of_mem_iff (t.dir.sorted_keys.filter _) (pairwise_lt_range.filter _) ?_
  intro seq
  rw [sealedSegments, scanSegmentSeqs, mem_filter, mem_filter, h.mem_keys,
    mem_range, h.activeSeq, hrep.keys, decide_eq_true_eq, decide_eq_true_eq]
  constructor
  · intro ⟨hkey, hne⟩
    exact hkey.resolve_left hne
  · intro hkey
    exact ⟨.inr hkey, hkey.1.ne⟩

theorem Represents.restart (hrep : Represents ser log hist deleted) (href : Refines ser log t)
    {env' : Env} (henv : env.NoError) (henv' : env'.NoError) (config : WalConfig) :
    ∃ t' log', SegmentedWal.new config env' (exec ser env .sync t).2.dir = .ok t' ∧
      Refines ser log' t' ∧ Represents ser log' hist deleted ∧ log'.active = [] := by
  obtain ⟨-, -, hok, -, hflushed⟩ := href.flush env
  obtain ⟨href', hactive⟩ := hflushed (hok henv)
  have hrep' : Represents ser log.flushed (hist ++ []) deleted :=
    hrep.onlyActive (by rfl) (by rfl) (append_nil _).symm fun e he => absurd he (by simp)
  rw [append_nil] at hrep'
  obtain ⟨t', hnew, href''⟩ := href'.reopen hactive hrep'.bound henv' config
  exact ⟨t', _, hnew, href'', hrep'.rotate, rfl⟩

/-- **Every state of a log represents its history.** -/
theorem Alive.represents (h : Alive ser t hist deleted) :
    ∃ log, Refines ser log t ∧ Represents ser log hist deleted := by
  induction h with
  | create henv hnew => exact ⟨Log.empty, (refines_empty ser henv hnew).1, Represents.empty⟩
  | command h henv cmd ih =>
    obtain ⟨log, href, hrep⟩ := ih
    obtain ⟨log', hstep, href', -⟩ := exec_step _ cmd href
    exact ⟨log', href', hrep.step hstep (exec_ok_of_noError henv cmd href)⟩
  | @delete t hist deleted seq h hseq ih =>
    obtain ⟨log, href, hrep⟩ := ih
    obtain ⟨hkey, hne⟩ := mem_filter.mp hseq
    have hne : seq ≠ log.activeSeq := by
      rw [← href.activeSeq]
      exact of_decide_eq_true hne
    obtain ⟨xs, hxs⟩ := (href.mem_keys.mp hkey).resolve_left hne
    exact ⟨log.delete seq, href.delete hne, hrep.delete hxs⟩
  | @restart t t' hist deleted env env' config h henv henv' hnew ih =>
    obtain ⟨log, href, hrep⟩ := ih
    obtain ⟨t'', log', hnew', href', hrep', -⟩ := hrep.restart href henv henv' config
    have hsame : t'' = t' := Except.ok.inj (hnew'.symm.trans hnew)
    rw [hsame] at href'
    exact ⟨log', href', hrep'⟩

end

/-! ## Recovery -/

/-- **The segmented log keeps order and locations** over any lifetimes that each ended in a sync. -/
theorem recover_alive {α : Type} (C : FramedCodec α) {t : FileTask}
    {hist : List (C.toCodec.Val × PhysicalLocation)} {deleted : List Nat}
    (h : Alive C.body t hist deleted) {env env' : Env} (henv : env.NoError)
    (henv' : env'.NoError) (config : WalConfig) :
    ∃ t', SegmentedWal.new config env' (exec C.body env .sync t).2.dir = .ok t' ∧
      recover C.toCodec t' = .ok (decoded C (surviving hist deleted)) ∧
      sealedSegments t' = (List.range t'.activeSeq).filter fun seq => seq ∉ deleted := by
  obtain ⟨log, href, hrep⟩ := h.represents
  obtain ⟨t', log', hnew, href', hrep', hfresh⟩ := hrep.restart href henv henv' config
  refine ⟨t', hnew, ?_, sealedSegments_eq href' hrep'⟩
  have hall : log'.all C.body = locateAll C.body log'.sealedSegs := by
    rw [Log.all, hfresh]
    exact append_nil _
  rw [← hrep'.all_eq, hall]
  refine recover_eq C ?_ ?_
  · rw [href'.activeSeq]
    exact log'.get?_activeSeq
  · intro seq hne
    rw [href'.activeSeq] at hne
    exact href'.reads hne

/-- One append in the first lifetime, recovered in the second. -/
theorem recover_alive_one : ∃ t, SegmentedWal.new ⟨false, 1024⟩ .ok SMap.empty = .ok t ∧
      ∃ t', SegmentedWal.new ⟨false, 1024⟩ .ok (exec walRecordCodec.body .ok .sync
          (exec walRecordCodec.body .ok (.append (plain [1] (by simp))) t).2).2.dir =
          .ok t' ∧
        recover walRecordCodec.toCodec t' = .ok (decoded walRecordCodec (surviving
          ([] ++ acked [(.append (plain [1] (by simp)),
            (exec walRecordCodec.body .ok (.append (plain [1] (by simp))) t).1)]) [])) ∧
        sealedSegments t' = (List.range t'.activeSeq).filter fun seq => seq ∉ [] := by
  obtain ⟨t, hnew, -⟩ := new_spec Env.ok_noError ⟨false, 1024⟩ SMap.empty
  exact ⟨t, hnew, recover_alive walRecordCodec
    (.command (.create Env.ok_noError hnew) Env.ok_noError _) Env.ok_noError Env.ok_noError _⟩

end RustMq.Wal
