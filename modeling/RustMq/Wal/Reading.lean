import RustMq.Wal.Log

/-!
# Opening a directory and reading it back

`recover` and `sealed_segments` look only at the files, so what they return is a function of
what each file walks as. `DirReads dir segs` records that, one list of values per file, and
`recover_new` turns it into the answer of a fresh process: `SegmentedWal::new` opens a segment
behind all of them, and `recover` returns their values in order, each with the location its
append returned.
-/

namespace RustMq.Wal

open Lib List

/-! ## A fresh process -/

variable {env : Env} {bs : List Body} {t : FileTask}

theorem new_spec (henv : env.NoError) (config : WalConfig) (dir : Dir) :
    ∃ t, SegmentedWal.new config env dir = .ok t ∧ t.fsyncOnWrite = config.fsyncOnWrite ∧
      t.activeSeq = ((scanSegmentSeqs dir).max?.map (· + 1)).getD 0 ∧
      (∀ seq ∈ dir.keys, seq < t.activeSeq) ∧
      (∀ seq, seq ≠ t.activeSeq → t.dir.get? seq = dir.get? seq) ∧ Active [] 0 0 t := by
  obtain ⟨seq, hseq⟩ : ∃ seq, seq = ((scanSegmentSeqs dir).max?.map (· + 1)).getD 0 := ⟨_, rfl⟩
  have hlt : ∀ a ∈ dir.keys, a < seq := by
    intro a ha
    cases hmax : (scanSegmentSeqs dir).max? with
    | none =>
      rw [show dir.keys = [] from max?_eq_none_iff.mp hmax] at ha
      exact absurd ha (by simp)
    | some m =>
      rw [hseq, hmax]
      exact Nat.lt_succ_of_le ((max?_eq_some_iff.mp hmax).2 a ha)
  obtain ⟨t₀, ht₀⟩ : ∃ t₀ : FileTask, t₀ = ⟨dir, headerSize, [], seq, 0, false,
    config.fsyncOnWrite, config.segmentSizeBytes, 0⟩ := ⟨_, rfl⟩
  obtain ⟨dir', hdir', hothers, hok, hopen, -⟩ := openNewSegment_spec env seq t₀
  have hok := hok henv
  obtain ⟨hdr, hlen, hfile⟩ := hopen hok
  refine ⟨{ t₀ with dir := dir' }, ?_, ?_, ?_, ?_, ?_, ?_⟩
  · unfold SegmentedWal.new
    simp only [← hseq, ← ht₀]
    unfold outcome at hok hdir'
    cases hrun : (openNewSegment env seq).run t₀ with
    | ok u t =>
      rw [hrun] at hdir'
      exact congrArg Except.ok hdir'
    | error e t =>
      rw [hrun] at hok
      cases hok
  · rw [ht₀]
  · rw [ht₀]; exact hseq
  · rw [ht₀]; exact hlt
  · intro a ha
    rw [ht₀] at ha hothers
    exact hothers a ha
  · rw [ht₀]
    exact ⟨⟨hdr, hdr⟩, hdr, 0, hfile, Stream.fresh hlen⟩

/-! ## Recovery from what the files read as -/

/-- Every file of the directory walks as the frames of its list of values. -/
def DirReads {β : Type} (ser : β → Body) (dir : Dir) (segs : SMap Nat (List β)) : Prop :=
  ∀ seq, Option.Rel (fun file xs => walkFrames file.data = located headerSize (xs.map ser))
    (dir.get? seq) (segs.get? seq)

theorem SealedFile.walkFrames_eq {file : SegFile} (h : SealedFile bs file) :
    walkFrames file.data = located headerSize bs := by
  rcases h with ⟨hdr, hlen, hdata, -⟩ | ⟨hnil, hlen⟩
  · rw [hdata]
    exact walkFrames_zeroPad hlen bs
  · rw [hnil]
    exact walkFrames_of_length_le hlen

theorem mapM_ok_of_forall₂ {ε γ δ η : Type} {f : γ → Except ε η} {g : δ → η} {l : List γ}
    {l' : List δ} (h : List.Forall₂ (fun a b => f a = .ok (g b)) l l') :
    l.mapM f = .ok (l'.map g) := by
  induction h with
  | nil => rfl
  | cons hab _ ih =>
    rw [mapM_cons, hab, ih]
    rfl

section

variable {α : Type} (C : FramedCodec α) {segs : SMap Nat (List C.toCodec.Val)}

def decoded (es : List (C.toCodec.Val × PhysicalLocation)) : List (α × PhysicalLocation) :=
  es.map fun e => (e.1.1, e.2)

theorem deserialize_body (x : C.toCodec.Val) :
    deserialize C.toCodec (C.body x).bytes = .ok x.1 := by
  rw [deserialize, C.decode_body x]

theorem recoverSegment_eq {buf : List UInt8} {xs : List C.toCodec.Val}
    (h : walkFrames buf = located headerSize (xs.map C.body)) (seq : Nat) :
    recoverSegment C.toCodec seq buf = .ok (decoded C (locate C.body seq headerSize xs)) := by
  unfold recoverSegment
  rw [h]
  clear h
  generalize headerSize = pos
  unfold decoded
  refine mapM_ok_of_forall₂ ?_
  induction xs generalizing pos with
  | nil => exact .nil
  | cons x xs ih =>
    refine .cons ?_ (ih _)
    show (do
      let record ← deserialize C.toCodec (C.body x).bytes
      return (record, (⟨seq, pos + 8, (C.body x).bytes.length % 2 ^ 32⟩ : PhysicalLocation))) = _
    rw [deserialize_body]
    rfl

theorem recover_eq (hactive : segs.get? t.activeSeq = none) (h : ∀ seq, seq ≠ t.activeSeq →
      Option.Rel (fun file xs => walkFrames file.data = located headerSize (xs.map C.body))
        (t.dir.get? seq) (segs.get? seq)) :
    recover C.toCodec t = .ok (decoded C (locateAll C.body segs)) := by
  have hrel : ∀ seq, Option.Rel
      (fun file xs => walkFrames file.data = located headerSize (xs.map C.body))
      ((t.dir.filterKeys (· ≠ t.activeSeq)).get? seq) (segs.get? seq) := by
    intro seq
    rw [SMap.get?_filterKeys]
    by_cases hseq : seq = t.activeSeq
    · rw [if_neg (by simpa using hseq), hseq, hactive]
      exact .none
    · rw [if_pos (by simpa using hseq)]
      exact h seq hseq
  have hsegments : ((t.dir.filterKeys (· ≠ t.activeSeq)).entries).mapM
      (fun e => recoverSegment C.toCodec e.1 e.2.data) =
      .ok (segs.entries.map fun e => decoded C (locate C.body e.1 headerSize e.2)) := by
    refine mapM_ok_of_forall₂ ((SMap.forall₂_entries hrel).imp ?_)
    intro e e' hee
    rw [hee.1]
    exact recoverSegment_eq C hee.2 e'.1
  have hflat : (segs.entries.map fun e => decoded C (locate C.body e.1 headerSize e.2)).flatten =
      decoded C (locateAll C.body segs) := by
    rw [locateAll, decoded, map_flatMap, flatMap_def]
    rfl
  show (do
    let segments ← ((t.dir.filterKeys (· ≠ t.activeSeq)).entries).mapM
      (fun e : Nat × SegFile => recoverSegment C.toCodec e.1 e.2.data)
    return segments.flatten) = _
  rw [hsegments, ← hflat]
  rfl

/-- **What a fresh process recovers**: every value of every file, in order, with its location. -/
theorem recover_new (henv : env.NoError) (config : WalConfig) {dir : Dir}
    (h : DirReads C.body dir segs) :
    ∃ t, SegmentedWal.new config env dir = .ok t ∧
      recover C.toCodec t = .ok (decoded C (locateAll C.body segs)) := by
  obtain ⟨t, hnew, -, -, hlt, hothers, -⟩ := new_spec henv config dir
  refine ⟨t, hnew, recover_eq C ?_ ?_⟩
  · have hrel := h t.activeSeq
    have hnone : dir.get? t.activeSeq = none := by
      cases hget : dir.get? t.activeSeq with
      | none => rfl
      | some file =>
        exact absurd (hlt _ (SMap.mem_keys.mpr ⟨file, hget⟩)) (lt_irrefl _)
    rw [hnone] at hrel
    cases hget : segs.get? t.activeSeq with
    | none => rfl
    | some xs => rw [hget] at hrel; cases hrel
  · intro seq hne
    rw [hothers seq hne]
    exact h seq

end

/-! ## What a log's directory reads as -/

theorem Active.walkFrames_eq {n k : Nat} (h : Active bs n k t) :
    ∃ file j, t.dir.get? t.activeSeq = some file ∧ k ≤ j ∧ j ≤ bs.length ∧
      (n = (frames bs).length → j = bs.length) ∧
      walkFrames file.data = located headerSize (bs.take j) := by
  obtain ⟨file, hdr, b, hfile, hs⟩ := h
  have hdata := hs.data_eq
  -- more synced or written frames than the cut leaves would not fit in front of it
  have hlast : ∀ j, j ≤ bs.length → (∀ k, k ≤ bs.length → (frames (bs.take k)).length ≤ n → k ≤ j) →
      k ≤ j ∧ (n = (frames bs).length → j = bs.length) := by
    intro j hj hmax
    refine ⟨hmax k hs.synced_le hs.durable_le, ?_⟩
    intro hn
    refine le_antisymm hj (hmax bs.length le_rfl ?_)
    rw [take_length, hn]
  rcases hs.cut with hd | ⟨j, hj⟩
  · obtain ⟨j, part, htake, hstops, hj, hmax⟩ := exists_take_frames bs n
    obtain ⟨hk, hall⟩ := hlast j hj hmax
    refine ⟨file, j, hfile, hk, hj, hall, ?_⟩
    have hdvd : blockSize ∣ ((frames bs).take n).length := by
      rwa [length_take_of_le hs.written_le]
    rw [hdata, zeroPad_of_dvd blockSize_pos hdvd, htake]
    exact walkFrames_frames hs.hdr_length _ hstops
  · have hlen : (frames (bs.take j)).length = n := by
      rw [← hj, length_take_of_le hs.written_le]
    obtain ⟨hk, hall⟩ := hlast (min j bs.length) (min_le_right _ _) (by
      intro k hk hle
      rw [← hlen] at hle
      exact le_min (le_of_length_frames_take_le hk hle) hk)
    refine ⟨file, min j bs.length, hfile, hk, min_le_right _ _, hall, ?_⟩
    rw [hdata, hj, ← take_take, take_length]
    exact walkFrames_zeroPad hs.hdr_length _

section

variable {β : Type} {ser : β → Body} {log : Log β} (h : Refines ser log t)
include h

theorem Refines.reads {seq : Nat} (hne : seq ≠ log.activeSeq) :
    Option.Rel (fun file xs => walkFrames file.data = located headerSize (xs.map ser))
      (t.dir.get? seq) (log.sealedSegs.get? seq) := by
  have hrel := h.sealedSegs seq hne
  generalize t.dir.get? seq = file?, log.sealedSegs.get? seq = xs? at hrel ⊢
  cases hrel with
  | none => exact .none
  | some hsealed => exact .some hsealed.walkFrames_eq

theorem Refines.dirReads : ∃ j, log.synced ≤ j ∧ j ≤ log.active.length ∧
      (∀ k, Active (log.active.map ser) (frames (log.active.map ser)).length k t →
        j = log.active.length) ∧
      DirReads ser t.dir (log.sealedSegs.insert log.activeSeq (log.active.take j)) := by
  obtain ⟨n, k, hk, hactive⟩ := h.active
  obtain ⟨file, j, hfile, hkj, hj, -, hwalk⟩ := hactive.walkFrames_eq
  rw [length_map] at hj
  refine ⟨j, hk.trans hkj, hj, ?_, ?_⟩
  · intro k' hfull
    obtain ⟨file', j', hfile', -, -, hall, hwalk'⟩ := hfull.walkFrames_eq
    have hj' := hall rfl
    have hlen := congrArg length (hwalk.symm.trans
      ((Option.some.inj (hfile.symm.trans hfile')) ▸ hwalk'))
    rw [length_located, length_located, hj', take_length, length_take, length_map] at hlen
    omega
  · intro seq
    rw [SMap.get?_insert]
    by_cases hseq : seq = log.activeSeq
    · rw [if_pos hseq, hseq, ← h.activeSeq, hfile]
      refine .some ?_
      rw [map_take]
      exact hwalk
    · rw [if_neg hseq]
      exact h.reads hseq

end

theorem refines_empty {β : Type} (ser : β → Body) {config : WalConfig} (henv : env.NoError)
    (hnew : SegmentedWal.new config env SMap.empty = .ok t) :
    Refines ser Log.empty t ∧ t.fsyncOnWrite = config.fsyncOnWrite := by
  obtain ⟨t', hnew', hmode, hseq, -, hothers, hactive⟩ := new_spec henv config SMap.empty
  rw [hnew, Except.ok.injEq] at hnew'
  subst hnew'
  refine ⟨⟨hseq, ?_, 0, 0, le_rfl, hactive⟩, hmode⟩
  intro seq hne
  rw [hothers seq (by rw [hseq]; exact hne)]
  exact .none

end RustMq.Wal
