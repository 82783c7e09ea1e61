import RustMq.Wal.Stream

/-!
# The log as lists of values

What the segmented log is for, without blocks, offsets and padding: sealed segments by number,
each a list of values, and one active segment that values are appended to. `Log.Step` says what
a command may do to it, failures included, and `exec_step` is the simulation: under every `Env`,
one turn of the writer's loop is one `Log.Step`, with the answer the step gives.

Two things the byte level does are visible here. A failed append still appends, and a rotation
that fails after the new file was created leaves an empty segment behind, which the next
rotation truncates (`Log.spill`).
-/

namespace RustMq.Wal

open Lib List SMap

/-! ## Reading a segment's bytes -/

theorem walkFramesFrom_eq_walk (buf : List UInt8) (fuel pos : Nat) :
    walkFramesFrom buf fuel pos = walk fuel pos (buf.drop pos) := by
  induction fuel generalizing pos with
  | zero => rfl
  | succ fuel ih =>
    have hlen : (buf.drop pos).length = buf.length - pos := length_drop
    simp only [walkFramesFrom, walk, Stops, frameLenPrefix, hlen]
    by_cases h8 : pos + 8 ≤ buf.length
    · by_cases h0 : ofLe ((buf.drop pos).take 8) = 0
      · rw [if_pos h8, if_pos h0, if_pos (.inr (.inl h0))]
      · by_cases hend : buf.length < pos + 8 + ofLe ((buf.drop pos).take 8)
        · rw [if_pos h8, if_neg h0, if_pos hend, if_pos (.inr (.inr (by omega)))]
        · rw [if_pos h8, if_neg h0, if_neg hend, if_neg (by omega), ih, drop_drop,
            drop_drop, Nat.add_assoc pos 8]
    · rw [if_neg h8, if_pos (.inl (by omega))]

theorem walkFrames_eq_walk (buf : List UInt8) :
    walkFrames buf = walk buf.length headerSize (buf.drop headerSize) :=
  walkFramesFrom_eq_walk buf buf.length headerSize

variable {hdr : List UInt8}

theorem walkFrames_frames {rest : List UInt8} (hlen : hdr.length = headerSize) (bs : List Body)
    (hs : Stops rest) : walkFrames (hdr ++ (frames bs ++ rest)) = located headerSize bs := by
  rw [walkFrames_eq_walk, drop_left' hlen]
  refine walk_frames_of_stops hs ?_ headerSize
  have := length_le_length_frames bs
  simp only [length_append]
  omega

theorem walkFrames_zeroPad (hlen : hdr.length = headerSize) (bs : List Body) :
    walkFrames (hdr ++ zeroPad blockSize (frames bs)) = located headerSize bs :=
  walkFrames_frames hlen bs (stops_replicate_zero _)

theorem walkFrames_of_length_le {data : List UInt8} (h : data.length ≤ headerSize) :
    walkFrames data = [] := by
  rw [walkFrames_eq_walk, drop_of_length_le h]
  exact walk_of_stops stops_nil _ _

/-! ## The log -/

/-- Sealed segments by number and the active one. The only sealed segment that can lie above the
active one is the empty file a failed rotation left. -/
structure Log (β : Type) where
  sealedSegs : SMap Nat (List β)
  activeSeq : Nat
  active : List β
  synced : Nat
  synced_le : synced ≤ active.length
  bound : ∀ seq xs, sealedSegs.get? seq = some xs →
    seq < activeSeq ∨ (seq = activeSeq + 1 ∧ xs = [])

variable {β : Type}

namespace Log

def append (log : Log β) (x : β) : Log β where
  sealedSegs := log.sealedSegs
  activeSeq := log.activeSeq
  active := log.active ++ [x]
  synced := log.synced
  synced_le := by
    rw [List.length_append]
    exact log.synced_le.trans (Nat.le_add_right _ _)
  bound := log.bound

def flushed (log : Log β) : Log β where
  sealedSegs := log.sealedSegs
  activeSeq := log.activeSeq
  active := log.active
  synced := log.active.length
  synced_le := le_rfl
  bound := log.bound

/-- A rotation that failed after it created the next file. -/
def spill (log : Log β) : Log β where
  sealedSegs := log.sealedSegs.insert (log.activeSeq + 1) []
  activeSeq := log.activeSeq
  active := log.active
  synced := log.synced
  synced_le := log.synced_le
  bound seq xs h := by
    rw [SMap.get?_insert] at h
    by_cases hseq : seq = log.activeSeq + 1
    · rw [if_pos hseq, Option.some.injEq] at h
      exact Or.inr ⟨hseq, h.symm⟩
    · rw [if_neg hseq] at h
      exact log.bound seq xs h

def rotate (log : Log β) : Log β where
  sealedSegs := (log.sealedSegs.erase (log.activeSeq + 1)).insert log.activeSeq log.active
  activeSeq := log.activeSeq + 1
  active := []
  synced := 0
  synced_le := le_rfl
  bound seq xs h := by
    rw [SMap.get?_insert, SMap.get?_erase] at h
    by_cases hseq : seq = log.activeSeq
    · exact Or.inl (by omega)
    · rw [if_neg hseq] at h
      by_cases hnext : seq = log.activeSeq + 1
      · rw [if_pos hnext] at h
        exact nomatch h
      · rw [if_neg hnext] at h
        rcases log.bound seq xs h with hlt | ⟨heq, -⟩
        · exact Or.inl (by omega)
        · exact absurd heq hnext

def delete (log : Log β) (seq : Nat) : Log β where
  sealedSegs := log.sealedSegs.erase seq
  activeSeq := log.activeSeq
  active := log.active
  synced := log.synced
  synced_le := log.synced_le
  bound a xs h := by
    rw [SMap.get?_erase] at h
    by_cases ha : a = seq
    · rw [if_pos ha] at h
      exact nomatch h
    · rw [if_neg ha] at h
      exact log.bound a xs h

def empty : Log β where
  sealedSegs := SMap.empty
  activeSeq := 0
  active := []
  synced := 0
  synced_le := le_rfl
  bound _ _ h := nomatch h

theorem get?_activeSeq (log : Log β) : log.sealedSegs.get? log.activeSeq = none := by
  cases h : log.sealedSegs.get? log.activeSeq with
  | none => rfl
  | some xs =>
    rcases log.bound _ _ h with hlt | ⟨heq, -⟩
    · exact absurd hlt (lt_irrefl _)
    · omega

end Log

/-! ## Locations -/

section

variable (ser : β → Body)

/-- The values of a segment with the locations of their bodies, when the first frame starts at
`pos`. -/
def locate (seq : Nat) : Nat → List β → List (β × PhysicalLocation)
  | _, [] => []
  | pos, x :: xs =>
    (x, ⟨seq, pos + 8, (ser x).bytes.length % 2 ^ 32⟩) ::
      locate seq (pos + 8 + (ser x).bytes.length) xs

theorem locate_append (seq pos : Nat) (xs ys : List β) : locate ser seq pos (xs ++ ys) =
      locate ser seq pos xs ++ locate ser seq (pos + (frames (xs.map ser)).length) ys := by
  induction xs generalizing pos with
  | nil => rfl
  | cons x xs ih =>
    have hpos : pos + 8 + (ser x).bytes.length + (frames (xs.map ser)).length =
        pos + (frames ((x :: xs).map ser)).length := by
      rw [map_cons, frames_cons, length_append, length_frame]
      omega
    rw [cons_append, locate, locate, ih, hpos, cons_append]

variable {xs : List β} {e : β × PhysicalLocation} {seq : Nat}

theorem locate_isPrefix (seq pos : Nat) {ys : List β} (h : xs <+: ys) :
    locate ser seq pos xs <+: locate ser seq pos ys := by
  obtain ⟨zs, rfl⟩ := h
  rw [locate_append]
  exact prefix_append _ _

theorem map_fst_locate (seq pos : Nat) (xs : List β) :
    (locate ser seq pos xs).map Prod.fst = xs := by
  induction xs generalizing pos with
  | nil => rfl
  | cons x xs ih => rw [locate, map_cons, ih]

theorem map_locate_eq_located (seq pos : Nat) (xs : List β) :
    (locate ser seq pos xs).map (fun e => (e.2.fileOffset, (ser e.1).bytes)) =
      located pos (xs.map ser) := by
  induction xs generalizing pos with
  | nil => rfl
  | cons x xs ih => rw [locate, map_cons, ih, map_cons, located]

theorem mem_locate {pos : Nat} (h : e ∈ locate ser seq pos xs) :
    e.2.walSegmentSeq = seq ∧ e.2.frameLen = (ser e.1).bytes.length % 2 ^ 32 ∧
      pos < e.2.fileOffset := by
  induction xs generalizing pos with
  | nil => exact absurd h (by simp [locate])
  | cons x xs ih =>
    rcases mem_cons.mp h with rfl | h
    · exact ⟨rfl, rfl, Nat.lt_add_of_pos_right (by decide)⟩
    · obtain ⟨hseq, hlen, hlt⟩ := ih h
      exact ⟨hseq, hlen, lt_of_le_of_lt (by omega) hlt⟩

/-- The values of sealed segments, oldest segment first, with their locations. -/
def locateAll (segs : SMap Nat (List β)) : List (β × PhysicalLocation) :=
  segs.entries.flatMap fun e => locate ser e.1 headerSize e.2

def Log.nextLoc (log : Log β) (x : β) : PhysicalLocation :=
  ⟨log.activeSeq, headerSize + (frames (log.active.map ser)).length + 8,
    (ser x).bytes.length % 2 ^ 32⟩

/-- Everything in the log, sealed and active, in order and with its location. -/
def Log.all (log : Log β) : List (β × PhysicalLocation) :=
  locateAll ser log.sealedSegs ++ locate ser log.activeSeq headerSize log.active

/-- The part of it that syncs are known to cover. -/
def Log.durable (log : Log β) : List (β × PhysicalLocation) :=
  locateAll ser log.sealedSegs ++
    locate ser log.activeSeq headerSize (log.active.take log.synced)

theorem flatMap_filter_of_eq_nil {γ δ : Type} {f : γ → List δ} {p : γ → Bool} {l : List γ}
    (h : ∀ a ∈ l, p a = false → f a = []) : (l.filter p).flatMap f = l.flatMap f := by
  induction l with
  | nil => rfl
  | cons a l ih =>
    have ih := ih fun b hb => h b (mem_cons_of_mem _ hb)
    cases hp : p a with
    | true => rw [filter_cons_of_pos hp, flatMap_cons, flatMap_cons, ih]
    | false =>
      rw [filter_cons_of_neg (by simp [hp]), flatMap_cons, h a mem_cons_self hp, nil_append, ih]

theorem nodup_locate (seq pos : Nat) (xs : List β) : (locate ser seq pos xs).Nodup := by
  induction xs generalizing pos with
  | nil => exact nodup_nil
  | cons x xs ih =>
    refine nodup_cons.mpr ⟨fun hmem => ?_, ih _⟩
    have hlt := (mem_locate ser hmem).2.2
    simp only at hlt
    omega

theorem nodup_locateAll (segs : SMap Nat (List β)) : (locateAll ser segs).Nodup := by
  refine nodup_flatMap.mpr ⟨fun e _ => nodup_locate ser _ _ _, ?_⟩
  refine segs.sorted.imp fun {a b} hab e ha hb => ?_
  have hne := (mem_locate ser ha).1.symm.trans (mem_locate ser hb).1
  exact hab.ne hne

theorem filter_locateAll {segs : SMap Nat (List β)} (h : segs.get? seq = some xs) :
    (locateAll ser segs).filter (fun e => decide (e.2.walSegmentSeq = seq)) =
      locate ser seq headerSize xs := by
  have hother : ∀ e ∈ segs.entries, decide (e.1 = seq) = false →
      (locate ser e.1 headerSize e.2).filter (fun e => decide (e.2.walSegmentSeq = seq)) = [] := by
    intro e _ hne
    refine filter_eq_nil_iff.mpr fun a ha => ?_
    rw [(mem_locate ser ha).1]
    simpa using hne
  have hsame : (locate ser seq headerSize xs).filter (fun e => decide (e.2.walSegmentSeq = seq)) =
      locate ser seq headerSize xs :=
    filter_eq_self.mpr fun a ha => decide_eq_true (mem_locate ser ha).1
  rw [locateAll, filter_flatMap, ← flatMap_filter_of_eq_nil hother,
    filter_entries_of_get? h, flatMap_singleton, hsame]

theorem locateAll_erase (segs : SMap Nat (List β)) (seq : Nat) : locateAll ser (segs.erase seq) =
      (locateAll ser segs).filter fun e => decide (e.2.walSegmentSeq ≠ seq) := by
  show (segs.entries.filter fun e => decide (e.1 ≠ seq)).flatMap _ = (segs.entries.flatMap _).filter _
  induction segs.entries with
  | nil => rfl
  | cons e es ih =>
    rw [flatMap_cons, filter_append, ← ih]
    by_cases hseq : e.1 = seq
    · have hnone : (locate ser e.1 headerSize e.2).filter
          (fun e => decide (e.2.walSegmentSeq ≠ seq)) = [] := by
        refine filter_eq_nil_iff.mpr fun a ha => ?_
        simpa [(mem_locate ser ha).1] using hseq
      rw [filter_cons_of_neg (by simpa using hseq), hnone, nil_append]
    · have hall : (locate ser e.1 headerSize e.2).filter
          (fun e => decide (e.2.walSegmentSeq ≠ seq)) = locate ser e.1 headerSize e.2 := by
        refine filter_eq_self.mpr fun a ha => ?_
        simpa [(mem_locate ser ha).1] using hseq
      rw [filter_cons_of_pos (by simpa using hseq), flatMap_cons, hall]

namespace Log

variable (log : Log β)

/-- A new segment above all that hold anything comes last. -/
theorem locateAll_insert {m : SMap Nat (List β)} (habove : ∀ e ∈ m.entries, ¬ e.1 < seq → e.2 = [])
    (xs : List β) :
    locateAll ser (m.insert seq xs) = locateAll ser m ++ locate ser seq headerSize xs := by
  have hnil : ∀ e ∈ m.entries, ¬ e.1 < seq → locate ser e.1 headerSize e.2 = [] := by
    intro e he hge
    rw [habove e he hge]
    rfl
  have hbelow : (m.entries.filter fun e => decide (e.1 < seq)).flatMap
      (fun e => locate ser e.1 headerSize e.2) = locateAll ser m :=
    flatMap_filter_of_eq_nil fun e he hp => hnil e he (by simpa using hp)
  have hrest : (m.entries.filter fun e => decide (seq < e.1)).flatMap
      (fun e => locate ser e.1 headerSize e.2) = [] := by
    refine flatMap_eq_nil_iff.mpr fun e he => ?_
    obtain ⟨hmem, hlt⟩ := mem_filter.mp he
    exact hnil e hmem (not_lt.mpr (of_decide_eq_true hlt).le)
  show ((m.entries.filter _) ++ (seq, xs) :: (m.entries.filter _)).flatMap _ = _
  rw [flatMap_append, flatMap_cons, hbelow, hrest, append_nil]

theorem locateAll_insert_activeSeq (xs : List β) :
    locateAll ser (log.sealedSegs.insert log.activeSeq xs) =
      locateAll ser log.sealedSegs ++ locate ser log.activeSeq headerSize xs :=
  locateAll_insert ser (fun e he hge =>
    ((log.bound e.1 e.2 (get?_eq_some_iff.mpr he)).resolve_left hge).2) xs

theorem all_append (x : β) : (log.append x).all ser = log.all ser ++ [(x, log.nextLoc ser x)] := by
  show _ ++ locate ser log.activeSeq headerSize (log.active ++ [x]) = _
  rw [locate_append, ← append_assoc]
  rfl

theorem all_ite_flushed (fsync : Bool) :
    (if fsync then log.flushed else log).all ser = log.all ser := by
  cases fsync with
  | true | false => rfl

theorem durable_append (x : β) : (log.append x).durable ser = log.durable ser := by
  show _ ++ locate ser _ _ ((log.active ++ [x]).take log.synced) = _
  rw [take_append_of_le_length log.synced_le]
  rfl

theorem durable_flushed : log.flushed.durable ser = log.all ser := by
  show _ ++ locate ser _ _ (log.active.take log.active.length) = _
  rw [take_length]
  rfl

theorem locateAll_spill : locateAll ser log.spill.sealedSegs = locateAll ser log.sealedSegs := by
  refine (locateAll_insert ser (fun e he hge => ?_) []).trans (append_nil _)
  exact ((log.bound e.1 e.2 (get?_eq_some_iff.mpr he)).resolve_left fun hlt =>
    hge (hlt.trans (Nat.lt_succ_self _))).2

theorem all_spill : log.spill.all ser = log.all ser := by
  show locateAll ser log.spill.sealedSegs ++ _ = _
  rw [locateAll_spill]
  rfl

theorem durable_spill : log.spill.durable ser = log.durable ser := by
  show locateAll ser log.spill.sealedSegs ++ _ = _
  rw [locateAll_spill]
  rfl

theorem locateAll_rotate : locateAll ser log.rotate.sealedSegs = log.all ser := by
  -- the leftover file that a rotation truncates held nothing
  have herase : locateAll ser (log.sealedSegs.erase (log.activeSeq + 1)) =
      locateAll ser log.sealedSegs := by
    refine flatMap_filter_of_eq_nil fun e he hp => ?_
    rcases log.bound e.1 e.2 (get?_eq_some_iff.mpr he) with hlt | ⟨-, hnil⟩
    · exact absurd (by simpa using hp) (hlt.trans (Nat.lt_succ_self _)).ne
    · rw [hnil]; rfl
  have hinsert := locateAll_insert_activeSeq ser (log.delete (log.activeSeq + 1)) log.active
  exact hinsert.trans (congrArg (· ++ _) herase)

theorem all_delete (hne : seq ≠ log.activeSeq) : (log.delete seq).all ser =
      (log.all ser).filter fun e => decide (e.2.walSegmentSeq ≠ seq) := by
  have hactive : (locate ser log.activeSeq headerSize log.active).filter
      (fun e => decide (e.2.walSegmentSeq ≠ seq)) = locate ser log.activeSeq headerSize log.active := by
    refine filter_eq_self.mpr fun a ha => ?_
    simpa [(mem_locate ser ha).1] using hne.symm
  rw [Log.all, Log.all, filter_append, hactive, ← locateAll_erase]
  rfl

theorem all_rotate : log.rotate.all ser = log.all ser := by
  show locateAll ser log.rotate.sealedSegs ++ [] = _
  rw [locateAll_rotate, append_nil]

theorem durable_rotate : log.rotate.durable ser = log.all ser := by
  show locateAll ser log.rotate.sealedSegs ++ [] = _
  rw [locateAll_rotate, append_nil]

end Log

end

/-! ## What a command may do to the log -/

/-- One command with its answer. `fsync` is the writer's mode, in which an append that returns
has also flushed. -/
inductive Log.Step {β : Type} (ser : β → Body) (fsync : Bool) :
    Log β → WalCommand β → Reply → Log β → Prop
  | append (log : Log β) (x : β) :
      Step ser fsync log (.append x) (.append (.ok (log.nextLoc ser x)))
        (if fsync then (log.append x).flushed else log.append x)
  | appendErr (log : Log β) (x : β) (e : RustMqError) :
      Step ser fsync log (.append x) (.append (.error e)) (log.append x)
  | sync (log : Log β) : Step ser fsync log .sync (.sync (.ok ())) log.flushed
  | syncErr (log : Log β) (e : RustMqError) : Step ser fsync log .sync (.sync (.error e)) log
  | tick (log : Log β) :
      Step ser fsync log .flushTick (.flushTick (some (.ok ()))) log.flushed
  | tickErr (log : Log β) (e : RustMqError) :
      Step ser fsync log .flushTick (.flushTick (some (.error e))) log
  | tickIdle (log : Log β) : Step ser fsync log .flushTick (.flushTick none) log
  | rotate (log : Log β) (force : Bool) :
      Step ser fsync log (.maybeSeal force) (.maybeSeal (.ok (some log.activeSeq))) log.rotate
  | rotateIdle (log : Log β) (force : Bool) :
      Step ser fsync log (.maybeSeal force) (.maybeSeal (.ok none)) log
  | rotateErr (log : Log β) (force : Bool) (e : RustMqError) :
      Step ser fsync log (.maybeSeal force) (.maybeSeal (.error e)) log
  | rotateSpill (log : Log β) (force : Bool) (e : RustMqError) :
      Step ser fsync log (.maybeSeal force) (.maybeSeal (.error e)) log.spill

/-! ## The simulation -/

/-- The writer's state and its directory represent the log. -/
structure Refines {β : Type} (ser : β → Body) (log : Log β) (t : FileTask) : Prop where
  activeSeq : t.activeSeq = log.activeSeq
  sealedSegs : ∀ seq, seq ≠ log.activeSeq →
    Option.Rel (fun file xs => SealedFile (xs.map ser) file) (t.dir.get? seq)
      (log.sealedSegs.get? seq)
  active : ∃ n k, log.synced ≤ k ∧ Active (log.active.map ser) n k t

variable {t : FileTask}

namespace Refines

variable {ser : β → Body} {log : Log β} {t' : FileTask}

variable (h : Refines ser log t)
include h

theorem onlyActive (hsame : OnlyActive t t') {log' : Log β}
    (hsealed : log'.sealedSegs = log.sealedSegs) (hseq : log'.activeSeq = log.activeSeq)
    (hactive : ∃ n k, log'.synced ≤ k ∧ Active (log'.active.map ser) n k t') :
    Refines ser log' t' := by
  refine ⟨?_, ?_, hactive⟩
  · rw [hsame.activeSeq, h.activeSeq, hseq]
  · intro seq hne
    rw [hseq] at hne
    rw [hsame.others seq (by rw [h.activeSeq]; exact hne), hsealed]
    exact h.sealedSegs seq hne

theorem handleAppend (env : Env) (x : β) : Ensures (handleAppend env (frame (ser x))) t fun r t' =>
      t'.fsyncOnWrite = t.fsyncOnWrite ∧
      ((∃ loc, r = .ok loc) ↔ AppendIo env t (frame (ser x))) ∧
      ∃ log', Log.Step ser t.fsyncOnWrite log (.append x) (.append r) log' ∧
        Refines ser log' t' := by
  obtain ⟨n, k, hk, hactive⟩ := h.active
  refine (handleAppend_spec env (ser x) hactive).imp ?_
  rintro r t' ⟨hsame, ⟨n', k', hk', hactive', hfsync⟩, hio, hok, -⟩
  have hmap : (log.append x).active.map ser = log.active.map ser ++ [ser x] := by
    simp [Log.append]
  have hstream : ∃ n k, (log.append x).synced ≤ k ∧ Active ((log.append x).active.map ser) n k t' :=
    ⟨n', k', hk.trans hk', by rw [hmap]; exact hactive'⟩
  refine ⟨hsame.fsyncOnWrite, hio, ?_⟩
  cases r with
  | error e => exact ⟨_, .appendErr log x e, h.onlyActive hsame rfl rfl hstream⟩
  | ok loc =>
    have hloc : loc = log.nextLoc ser x := by
      rw [(hok loc rfl).2, h.activeSeq]; rfl
    subst hloc
    refine ⟨_, .append log x, ?_⟩
    cases hmode : t.fsyncOnWrite with
    | false => exact h.onlyActive hsame rfl rfl hstream
    | true =>
      refine h.onlyActive hsame rfl rfl ⟨n', k', ?_, by rw [← hmap] at hactive'; exact hactive'⟩
      rw [hfsync hmode ⟨_, rfl⟩, ← hmap, length_map]
      exact le_rfl

theorem flush (env : Env) : Ensures (flush env) t fun r t' =>
      t'.fsyncOnWrite = t.fsyncOnWrite ∧ OnlyActive t t' ∧
      (env.NoError → r = .ok ()) ∧ Refines ser log t' ∧
      (r = .ok () → Refines ser log.flushed t' ∧ Active (log.active.map ser)
        (frames (log.active.map ser)).length log.active.length t') := by
  obtain ⟨n, k, hk, hactive⟩ := h.active
  refine (flush_spec env hactive).imp ?_
  rintro r t' ⟨hsame, -, ⟨n', k', hk', hactive'⟩, hio, hfull⟩
  refine ⟨hsame.fsyncOnWrite, hsame, ?_, ?_, ?_⟩
  · intro henv
    exact hio.mpr ⟨fun _ => henv.tail, henv.sync⟩
  · exact h.onlyActive hsame rfl rfl ⟨n', k', hk.trans hk', hactive'⟩
  · intro hr
    have hall := hfull hr
    rw [length_map] at hall
    exact ⟨h.onlyActive hsame rfl rfl ⟨_, _, le_rfl, hall⟩, hall⟩

theorem handleMaybeSeal (env : Env) (force : Bool) :
    Ensures (handleMaybeSeal env force) t fun r t' =>
      t'.fsyncOnWrite = t.fsyncOnWrite ∧ (env.NoError → ∀ e, r ≠ .error e) ∧
      ∃ log', Log.Step ser t.fsyncOnWrite log (.maybeSeal force) (.maybeSeal r) log' ∧
        Refines ser log' t' := by
  obtain ⟨n, k, hk, hactive⟩ := h.active
  refine (handleMaybeSeal_spec env force hactive).imp ?_
  intro r t' ⟨hmode, hok, hidle, hsealed, herr⟩
  rw [h.activeSeq] at hsealed herr
  refine ⟨hmode, hok, ?_⟩
  cases r with
  | ok sealed? =>
    cases sealed? with
    | none =>
      rw [hidle rfl]
      exact ⟨log, .rotateIdle log force, h⟩
    | some seq =>
      obtain ⟨rfl, hseq, hfresh, hothers, file, hfile, hsealed⟩ := hsealed seq rfl
      refine ⟨log.rotate, .rotate log force, hseq, ?_, 0, 0, le_rfl, hfresh⟩
      -- the old active segment joins the sealed ones; a leftover file was truncated
      intro seq hne
      have hne : seq ≠ log.activeSeq + 1 := hne
      show Option.Rel _ _
        (((log.sealedSegs.erase (log.activeSeq + 1)).insert log.activeSeq log.active).get? seq)
      rw [get?_insert, get?_erase, if_neg hne]
      by_cases hold : seq = log.activeSeq
      · rw [if_pos hold, hold, hfile]
        exact .some (.inl hsealed)
      · rw [if_neg hold, hothers seq hold hne]
        exact h.sealedSegs seq hold
  | error e =>
    obtain ⟨hseq, ⟨n', k', hk', hactive'⟩, hothers, hnext⟩ := herr e rfl
    have hstream : ∃ n k, log.synced ≤ k ∧ Active (log.active.map ser) n k t' :=
      ⟨n', k', hk.trans hk', hactive'⟩
    rcases hnext with hsame | ⟨file, hfile, hlen⟩
    · refine ⟨log, .rotateErr log force e, hseq, ?_, hstream⟩
      intro seq hne
      by_cases hnext : seq = log.activeSeq + 1
      · rw [hnext, hsame]
        exact h.sealedSegs _ (by omega)
      · rw [hothers seq hne hnext]
        exact h.sealedSegs seq hne
    · refine ⟨log.spill, .rotateSpill log force e, hseq, ?_, hstream⟩
      intro seq hne
      show Option.Rel _ _ ((log.sealedSegs.insert (log.activeSeq + 1) []).get? seq)
      rw [get?_insert]
      by_cases hnext : seq = log.activeSeq + 1
      · rw [if_pos hnext, hnext, hfile]
        exact .some (.inr ⟨rfl, hlen⟩)
      · rw [if_neg hnext, hothers seq hne hnext]
        exact h.sealedSegs seq hne

end Refines

section

variable {ser : β → Body} {log : Log β} {env : Env}

def Reply.Ok : Reply → Prop
  | .append r => ∃ loc, r = .ok loc
  | .sync r => r = .ok ()
  | .maybeSeal r => ∃ seq, r = .ok seq
  | .flushTick r => r = none ∨ r = some (.ok ())

/-- **One turn of the loop is one step of the log**, whatever fails. -/
theorem exec_step (env : Env) (cmd : WalCommand β) (h : Refines ser log t) :
    ∃ log', Log.Step ser t.fsyncOnWrite log cmd (exec ser env cmd t).1 log' ∧
      Refines ser log' (exec ser env cmd t).2 ∧
      (exec ser env cmd t).2.fsyncOnWrite = t.fsyncOnWrite := by
  -- a flush, and what a command that flushes answers
  have hflush := h.flush env
  cases cmd with
  | append x =>
    obtain ⟨hmode, -, log', hstep, h'⟩ := h.handleAppend env x
    exact ⟨log', hstep, h', hmode⟩
  | sync =>
    obtain ⟨hmode, -, -, h', hok⟩ := hflush
    show ∃ log', Log.Step ser _ log .sync (.sync (outcome (flush env) t).1) log' ∧ _
    cases hr : (outcome (flush env) t).1 with
    | ok u => exact ⟨_, .sync log, (hok hr).1, hmode⟩
    | error e => exact ⟨_, .syncErr log e, h', hmode⟩
  | maybeSeal force =>
    obtain ⟨hmode, -, log', hstep, h'⟩ := h.handleMaybeSeal env force
    exact ⟨log', hstep, h', hmode⟩
  | flushTick =>
    obtain ⟨hmode, -, -, h', hok⟩ := hflush
    unfold exec
    cases hneeds : t.needsFlush with
    | false => exact ⟨_, .tickIdle log, h, rfl⟩
    | true =>
      show ∃ log', Log.Step ser _ log .flushTick (.flushTick (some (outcome (flush env) t).1)) log' ∧
        _
      cases hr : (outcome (flush env) t).1 with
      | ok u => exact ⟨_, .tick log, (hok hr).1, hmode⟩
      | error e => exact ⟨_, .tickErr log e, h', hmode⟩

theorem exec_append_ok_iff (env : Env) (x : β) (h : Refines ser log t) :
    (exec ser env (.append x) t).1.Ok ↔ AppendIo env t (frame (ser x)) :=
  (h.handleAppend env x).2.1

theorem appendIo_of_noError (henv : env.NoError) (t : FileTask) (framed : List UInt8) :
    AppendIo env t framed :=
  ⟨fun _ => henv.blocks, fun _ => ⟨fun _ => henv.tail, henv.sync⟩⟩

theorem exec_ok_of_noError (henv : env.NoError) (cmd : WalCommand β) (h : Refines ser log t) :
    (exec ser env cmd t).1.Ok := by
  have hflush : (outcome (flush env) t).1 = .ok () := (h.flush env).2.2.1 henv
  cases cmd with
  | append x => exact (exec_append_ok_iff env x h).mpr (appendIo_of_noError henv t _)
  | sync => exact hflush
  | maybeSeal force =>
    have hne := (h.handleMaybeSeal env force).2.1 henv
    show ∃ seq, (outcome (handleMaybeSeal env force) t).1 = .ok seq
    cases hr : (outcome (handleMaybeSeal env force) t).1 with
    | ok seq => exact ⟨seq, rfl⟩
    | error e => exact absurd hr (hne e)
  | flushTick =>
    unfold exec
    cases hneeds : t.needsFlush with
    | false => exact .inl rfl
    | true => exact .inr (congrArg some hflush)

end

/-! ## Runs -/

def acked {β : Type} (events : List (WalCommand β × Reply)) : List (β × PhysicalLocation) :=
  events.filterMap fun
    | (.append x, .append (.ok loc)) => some (x, loc)
    | _ => none

def appended {β : Type} (cmds : List (Env × WalCommand β)) : List β :=
  cmds.filterMap fun
    | (_, .append x) => some x
    | _ => none

inductive Log.Run {β : Type} (ser : β → Body) (fsync : Bool) :
    Log β → List (WalCommand β × Reply) → Log β → Prop
  | nil (log : Log β) : Run ser fsync log [] log
  | cons {log log' log'' : Log β} {cmd : WalCommand β} {reply : Reply}
      {events : List (WalCommand β × Reply)} (step : Log.Step ser fsync log cmd reply log')
      (run : Run ser fsync log' events log'') : Run ser fsync log ((cmd, reply) :: events) log''

section

variable {ser : β → Body} {log : Log β}

/-- **A run of the loop is a run of the log.** -/
theorem run_refines (cmds : List (Env × WalCommand β)) (h : Refines ser log t) :
    ∃ log', Log.Run ser t.fsyncOnWrite log (run ser cmds t).1 log' ∧
      Refines ser log' (run ser cmds t).2 ∧ (run ser cmds t).2.fsyncOnWrite = t.fsyncOnWrite := by
  induction cmds generalizing log t with
  | nil => exact ⟨log, .nil log, h, rfl⟩
  | cons c cmds ih =>
    obtain ⟨log₁, hstep, h₁, hmode₁⟩ := exec_step c.1 c.2 h
    obtain ⟨log₂, hrun, h₂, hmode₂⟩ := ih h₁
    rw [hmode₁] at hrun hmode₂
    exact ⟨log₂, .cons hstep hrun, h₂, hmode₂⟩

theorem run_append (cmds cmds' : List (Env × WalCommand β)) (t : FileTask) :
    run ser (cmds ++ cmds') t = ((run ser cmds t).1 ++ (run ser cmds' (run ser cmds t).2).1,
        (run ser cmds' (run ser cmds t).2).2) := by
  induction cmds generalizing t with
  | nil => rfl
  | cons c cmds ih => simp only [cons_append, run, ih]

theorem run_ok_of_noError {cmds : List (Env × WalCommand β)} (henv : ∀ c ∈ cmds, c.1.NoError)
    (h : Refines ser log t) : ∀ e ∈ (run ser cmds t).1, e.2.Ok := by
  induction cmds generalizing log t with
  | nil => exact fun e he => absurd he (by simp [run])
  | cons c cmds ih =>
    obtain ⟨log₁, -, h₁, -⟩ := exec_step c.1 c.2 h
    intro e he
    rcases mem_cons.mp he with he | he
    · rw [he]
      exact exec_ok_of_noError (henv c mem_cons_self) c.2 h
    · exact ih (fun c' hc => henv c' (mem_cons_of_mem _ hc)) h₁ e he

end

end RustMq.Wal
