import RustMq.Replication.Watermark

/-!
# The watermark is the quorum offset

`recalculate_high_watermark` picks one of the offsets of the leader and its in-sync followers by a
rank counted from the bottom. What it is for is the greatest offset that at least
`min_in_sync_replicas` of them have reached (`Quorum`). The two meet in the selection: fewer than
`k` of the offsets are below the `k`-th smallest, and at least `k` are at most it. The scan for the
two smallest starts from `u64::MAX` twice, so this is where the offsets have to be `u64`s.
-/

namespace RustMq.Replication

open Lib Store List

/-! ## The selected offset from above -/

variable {offsets : List Nat}

/-- **At least `k` of the offsets are at most the selected one.** -/
theorem le_countP_le_findKthSmallest {k : Nat} (hk : 0 < k) (hlen : k ≤ offsets.length)
    (hu64 : ∀ x ∈ offsets, x ≤ u64Max) : k ≤ offsets.countP (· ≤ findKthSmallest offsets k) := by
  obtain ⟨start, kept, hstart, hkeptlen, hkept⟩ := exists_kept hk hlen
  have hcount := hkept.le_countP
  rw [countP_append, hkeptlen] at hcount
  generalize findKthSmallest offsets k = answer at hcount ⊢
  by_cases hmax : u64Max ≤ answer
  · rwa [countP_eq_length.mpr fun x hx => decide_eq_true ((hu64 x hx).trans hmax)]
  · -- the starting values of the scan are above the answer and do not count
    have hnone : start.countP (· ≤ answer) = 0 :=
      countP_eq_zero.mpr fun x hx => by simpa [hstart x hx] using hmax
    omega

/-! ## The quorum -/

def Quorum (n : Nat) (offsets : List Nat) (h : Nat) : Prop := n ≤ offsets.countP (h ≤ ·)

/-- **The offset of rank `length - n + 1` is the greatest one that `n` have reached.** -/
theorem isGreatest_findKthSmallest {n : Nat} (hn : 0 < n) (hlen : n ≤ offsets.length)
    (hu64 : ∀ x ∈ offsets, x ≤ u64Max) :
    IsGreatest {h | Quorum n offsets h} (findKthSmallest offsets (offsets.length - n + 1)) := by
  have hupto := le_countP_le_findKthSmallest (k := offsets.length - n + 1) (by omega) (by omega)
    hu64
  refine ⟨le_countP_findKthSmallest hn hlen, ?_⟩
  generalize findKthSmallest offsets (offsets.length - n + 1) = answer at hupto
  intro h hh
  have hh : n ≤ offsets.countP (h ≤ ·) := hh
  by_contra hlt
  -- otherwise the offsets up to the answer are all below `h`
  have hmono : offsets.countP (· ≤ answer) ≤ offsets.countP (· < h) :=
    countP_mono_left fun x _ hx => by
      have := of_decide_eq_true hx
      exact decide_eq_true (by omega)
  have := countP_le_eq offsets h
  omega

/-! ## The recalculation -/

/-- The heartbeat test: the time since the last heartbeat, which has to be a `std` duration, so
not negative, and below the timeout. -/
def heartbeatFresh (now heartbeatTimeout lastHeartbeat : Int) : Bool :=
  0 ≤ now - lastHeartbeat ∧ now - lastHeartbeat < heartbeatTimeout

def Manager.recalculateHighWatermark (cfg : ManagerConfig) (fresh : BrokerId → Bool)
    (m : Manager) : Manager :=
  match newHighWatermark cfg m.logEndOffset fresh m.followerStates with
  | some new => if m.highWatermark < new then { m with highWatermark := new } else m
  | none => m

/-- **The watermark becomes the quorum offset, if there is a quorum and it is higher**, whatever
the followers report and whichever of them are in sync. -/
theorem highWatermark_recalculated (cfg : ManagerConfig) (m : Manager)
    (now heartbeatTimeout : Int) (lastHeartbeat : BrokerId → Int)
    (hmin : 1 ≤ cfg.minInSyncReplicas) (hlogEnd : m.logEndOffset ≤ u64Max)
    (hstates : ∀ state ∈ followerValues m.followerStates, state.lastKnownOffset ≤ u64Max) :
    let fresh := fun b => heartbeatFresh now heartbeatTimeout (lastHeartbeat b)
    let offsets := inSyncOffsets cfg m.logEndOffset fresh m.followerStates
    (offsets.length < cfg.minInSyncReplicas → m.recalculateHighWatermark cfg fresh = m) ∧
    (cfg.minInSyncReplicas ≤ offsets.length →
      ∃ h, IsGreatest {h | Quorum cfg.minInSyncReplicas offsets h} h ∧
        m.recalculateHighWatermark cfg fresh =
          { m with highWatermark := max m.highWatermark h }) := by
  intro fresh offsets
  have hu64 : ∀ x ∈ offsets, x ≤ u64Max := by
    intro x hx
    rcases mem_cons.mp hx with rfl | hx
    · exact hlogEnd
    · obtain ⟨state, hstate, rfl⟩ := mem_map.mp hx
      exact hstates state (mem_of_mem_filter hstate)
  constructor
  · intro hfew
    have hnone : newHighWatermark cfg m.logEndOffset fresh m.followerStates = none :=
      if_neg (not_le.mpr hfew)
    rw [Manager.recalculateHighWatermark, hnone]
  · intro henough
    refine ⟨_, isGreatest_findKthSmallest hmin henough hu64, ?_⟩
    have hsome : newHighWatermark cfg m.logEndOffset fresh m.followerStates =
        some (findKthSmallest offsets (offsets.length - cfg.minInSyncReplicas + 1)) :=
      if_pos henough
    rw [Manager.recalculateHighWatermark, hsome]
    simp only
    split
    · rename_i hlt
      rw [max_eq_right hlt.le]
    · rename_i hle
      rw [max_eq_left (not_lt.mp hle)]

def twoOfThree : ManagerConfig := ⟨some "broker-1", ["broker-1", "broker-2", "broker-3"], 2, 100⟩

def oneBehind : Manager :=
  { Manager.new with
    logEndOffset := 5
    followerStates := (AList.insert "broker-2" ⟨"broker-2", 4, 1⟩ ∅).insert "broker-3"
      ⟨"broker-3", 2, 3⟩ }

theorem highWatermark_recalculated_oneBehind : ∃ h, IsGreatest {h | Quorum 2 [5, 4] h} h ∧
      oneBehind.recalculateHighWatermark twoOfThree
          (fun b => heartbeatFresh 60 30 (if b = "broker-2" then 50 else 10)) =
        { oneBehind with highWatermark := max 0 h } :=
  (highWatermark_recalculated twoOfThree oneBehind 60 30
    (fun b => if b = "broker-2" then 50 else 10) (by decide) (by decide) (by decide)).2 (by decide)

end RustMq.Replication
