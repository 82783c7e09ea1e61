import RustMq.Replication.Follower

/-!
# The leader's replication manager

`ReplicationManager` (`src/replication/manager.rs`) as a step machine. `replicate_record` appends to
the local log, stores the log end offset, sends the record to every follower and counts their
answers, and with enough of them recalculates the high watermark: it selects the
`min_in_sync_replicas`-th largest of the offsets of the leader and the in-sync followers, loads the
watermark, and stores the new value if it is larger. None of this is atomic, and any number of calls
may be at any of these steps.

With no follower in the replica set the call stores its own offset as the watermark, without
looking at the current one.

`find_kth_smallest` is the code's three-way selection. The binary heap of its general case is an
ordered list: `push` inserts, `peek` is the last element, `pop` drops it.

Two fields of the machine are not in the code and only remember the run: `issued` is one past
the highest offset a call was made for, `peak` the highest log end offset so far.
-/

namespace RustMq.Replication

open Lib Store List

def u64Max : Nat := 2 ^ 64 - 1

/-! ## Selecting the watermark -/

def twoSmallest : List Nat → (min secondMin : Nat) → Nat
  | [], _, secondMin => secondMin
  | offset :: offsets, min, secondMin =>
    if offset < min then twoSmallest offsets offset min
    else if offset < secondMin then twoSmallest offsets min offset
    else twoSmallest offsets min secondMin

def boundedHeap : List Nat → (heap : List Nat) → List Nat
  | [], heap => heap
  | offset :: offsets, heap =>
    match heap.getLast? with
    | some heapMax =>
      if offset < heapMax then boundedHeap offsets (heap.dropLast.orderedInsert (· ≤ ·) offset)
      else boundedHeap offsets heap
    | none => boundedHeap offsets heap

def findKthSmallest (offsets : List Nat) (k : Nat) : Nat :=
  if k = 0 ∨ offsets.length < k then 0
  else if k = 1 then offsets.min?.getD 0
  else if k = 2 then twoSmallest offsets u64Max u64Max
  else
    let heap := (offsets.take k).foldl (fun heap offset => heap.orderedInsert (· ≤ ·) offset) []
    (boundedHeap (offsets.drop k) heap).getLast?.getD 0

structure ManagerConfig where
  currentLeader : Option BrokerId
  replicaSet : List BrokerId
  minInSyncReplicas : Nat
  maxReplicationLag : Nat

def ManagerConfig.followers (cfg : ManagerConfig) : List BrokerId :=
  cfg.replicaSet.filter fun b => some b ≠ cfg.currentLeader

def ManagerConfig.requiredAcks (cfg : ManagerConfig) : Nat := cfg.minInSyncReplicas - 1

/-- `fresh` says whether the last heartbeat is recent enough. -/
def isFollowerInSync (cfg : ManagerConfig) (logEndOffset : Nat) (fresh : BrokerId → Bool)
    (state : FollowerState) : Bool :=
  logEndOffset - state.lastKnownOffset ≤ cfg.maxReplicationLag ∧ fresh state.brokerId

abbrev FollowerStates := AList fun _ : BrokerId => FollowerState

def followerValues (states : FollowerStates) : List FollowerState := states.entries.map Sigma.snd

def inSyncOffsets (cfg : ManagerConfig) (logEndOffset : Nat) (fresh : BrokerId → Bool)
    (states : FollowerStates) : List Nat :=
  logEndOffset :: ((followerValues states).filter (isFollowerInSync cfg logEndOffset fresh)).map
    FollowerState.lastKnownOffset

def newHighWatermark (cfg : ManagerConfig) (logEndOffset : Nat) (fresh : BrokerId → Bool)
    (states : FollowerStates) : Option Nat :=
  let offsets := inSyncOffsets cfg logEndOffset fresh states
  if cfg.minInSyncReplicas ≤ offsets.length then
    some (findKthSmallest offsets (offsets.length - cfg.minInSyncReplicas + 1))
  else none

/-! ## The machine -/

inductive DurabilityLevel where
  | localOnly
  | durable
  deriving DecidableEq

inductive Phase where
  | append
  | storeLogEnd
  | shortcut
  | acks (pending : List BrokerId) (successful : Nat)
  | recalculate
  | load (newHighWatermark : Nat)
  | store (newHighWatermark : Nat)
  | done (result : Except RustMqError DurabilityLevel)

structure ReplicateCall where
  record : WalRecord
  phase : Phase

structure Manager where
  logEndOffset : Nat
  highWatermark : Nat
  followerStates : FollowerStates
  calls : Nat → Option ReplicateCall
  issued : Nat
  peak : Nat

inductive CallEvent where
  | appended
  | appendFailed
  | advance
  /-- A follower's answer: an error or a timeout, or success with the state it reports. -/
  | answer (broker : BrokerId) (result : Option (Option FollowerState))
  | compute (fresh : BrokerId → Bool)

inductive ManagerLabel where
  | replicateRecord (id : Nat) (record : WalRecord)
  | call (id : Nat) (event : CallEvent)
  | updateFollowerState (state : FollowerState)
  | addFollower (broker : BrokerId)
  | removeFollower (broker : BrokerId)

def afterAnswer (cfg : ManagerConfig) (pending : List BrokerId) (successful : Nat)
    (acked : Bool) : Phase :=
  if acked ∧ cfg.requiredAcks ≤ successful then .recalculate
  else if pending ≠ [] then .acks pending successful
  else if cfg.requiredAcks ≤ successful then .recalculate
  else .done (.ok .localOnly)

namespace Manager

def new : Manager := ⟨0, 0, ∅, fun _ => none, 0, 0⟩

def updateFollowerState (m : Manager) (state : FollowerState) : Manager :=
  { m with followerStates := m.followerStates.insert state.brokerId state }

def callStep (cfg : ManagerConfig) (m : Manager) (c : ReplicateCall) :
    CallEvent → Option (Manager × Phase)
  | .appended =>
    match c.phase with
    | .append => some (m, .storeLogEnd)
    | _ => none
  | .appendFailed =>
    match c.phase with
    | .append => some (m, .done (.error .io))
    | _ => none
  | .answer broker result =>
    match c.phase with
    | .acks pending successful =>
      if broker ∈ pending then
        match result with
        | some (some state) =>
          some (m.updateFollowerState state,
            afterAnswer cfg (pending.erase broker) (successful + 1) true)
        | some none => some (m, afterAnswer cfg (pending.erase broker) (successful + 1) true)
        | none => some (m, afterAnswer cfg (pending.erase broker) successful false)
      else none
    | _ => none
  | .compute fresh =>
    match c.phase with
    | .recalculate =>
      match newHighWatermark cfg m.logEndOffset fresh m.followerStates with
      | some new => some (m, .load new)
      | none => some (m, .done (.ok .durable))
    | _ => none
  | .advance =>
    match c.phase with
    | .storeLogEnd =>
      let logEndOffset := c.record.offset + 1
      some ({ m with logEndOffset := logEndOffset, peak := max m.peak logEndOffset },
        if cfg.followers = [] then .shortcut else .acks cfg.followers 0)
    | .shortcut => some ({ m with highWatermark := c.record.offset }, .done (.ok .durable))
    | .load new =>
      some (m, if m.highWatermark < new then .store new else .done (.ok .durable))
    | .store new => some ({ m with highWatermark := new }, .done (.ok .durable))
    | _ => none

def setCall (m : Manager) (id : Nat) (c : ReplicateCall) : Manager :=
  { m with calls := Function.update m.calls id (some c) }

theorem of_calls_setCall {m m' : Manager} {id id' : Nat} {c c' : ReplicateCall}
    (hcalls : m'.calls = m.calls) (h : (m'.setCall id c).calls id' = some c') :
    (id' = id ∧ c' = c) ∨ (id' ≠ id ∧ m.calls id' = some c') := by
  rw [← hcalls]
  exact of_update_eq_some h

def step (cfg : ManagerConfig) (m : Manager) : ManagerLabel → Option Manager
  | .replicateRecord id record =>
    match m.calls id with
    | some _ => none
    | none => some { m.setCall id ⟨record, .append⟩ with issued := max m.issued (record.offset + 1) }
  | .call id event =>
    match m.calls id with
    | none => none
    | some c => (m.callStep cfg c event).map fun r => r.1.setCall id { c with phase := r.2 }
  | .updateFollowerState state => some (m.updateFollowerState state)
  | .addFollower broker => some (m.updateFollowerState ⟨broker, 0, 0⟩)
  | .removeFollower broker => some { m with followerStates := m.followerStates.erase broker }

end Manager

/-! ## What the selection guarantees -/

/-- `kept` are the smallest of `all`, and `top` is the greatest of them. -/
structure Kept (all kept : List Nat) (top : Nat) : Prop where
  mem : top ∈ kept
  le : ∀ a ∈ kept, a ≤ top
  rest : ∃ rest, (kept ++ rest).Perm all ∧ ∀ b ∈ rest, top ≤ b

namespace Kept

variable {all kept : List Nat} {top : Nat} (h : Kept all kept top)
include h

theorem countP_lt : all.countP (· < top) < kept.length := by
  obtain ⟨rest, hperm, hrest⟩ := h.rest
  have hnone : rest.countP (· < top) = 0 := by
    refine countP_eq_zero.mpr fun b hb => ?_
    simpa using hrest b hb
  rw [← hperm.countP_eq, countP_append, hnone]
  refine lt_of_le_of_ne countP_le_length fun heq => ?_
  simpa using countP_eq_length.mp heq top h.mem

theorem le_countP : kept.length ≤ all.countP (· ≤ top) := by
  obtain ⟨rest, hperm, -⟩ := h.rest
  rw [← hperm.countP_eq, countP_append, countP_eq_length.mpr fun a ha => decide_eq_true (h.le a ha)]
  exact Nat.le_add_right _ _

variable {x : Nat}

theorem skip (hx : top ≤ x) : Kept (all ++ [x]) kept top := by
  obtain ⟨rest, hperm, hrest⟩ := h.rest
  refine ⟨h.mem, h.le, rest ++ [x], ?_, forall_mem_append.mpr ⟨hrest, by simpa using hx⟩⟩
  rw [← append_assoc]
  exact hperm.append_right [x]

/-- A smaller one comes in and the greatest goes out. -/
theorem swap {kept' : List Nat} {top' : Nat} (hx : x < top)
    (hperm' : (top :: kept').Perm (x :: kept)) (hmem : top' ∈ kept') (hle : ∀ a ∈ kept', a ≤ top') :
    Kept (all ++ [x]) kept' top' := by
  obtain ⟨rest, hperm, hrest⟩ := h.rest
  have htop : top' ≤ top := by
    rcases mem_cons.mp (hperm'.subset (mem_cons_of_mem _ hmem)) with rfl | hin
    · exact hx.le
    · exact h.le _ hin
  refine ⟨hmem, hle, top :: rest, ?_, forall_mem_cons.mpr
    ⟨htop, fun b hb => htop.trans (hrest b hb)⟩⟩
  calc kept' ++ top :: rest
      |>.Perm (top :: kept' ++ rest) := perm_middle
    _ |>.Perm (x :: (kept ++ rest)) := hperm'.append_right rest
    _ |>.Perm (all ++ [x]) := (hperm.cons x).trans (perm_append_singleton x all).symm

end Kept

variable {all heap : List Nat} {top k : Nat} {cfg : ManagerConfig} {m m' : Manager}

theorem twoSmallest_kept (offsets : List Nat) {min secondMin : Nat}
    (h : Kept all [min, secondMin] secondMin) :
    ∃ first, Kept (all ++ offsets) [first, twoSmallest offsets min secondMin]
      (twoSmallest offsets min secondMin) := by
  induction offsets generalizing all min secondMin with
  | nil => exact ⟨min, by rwa [append_nil]⟩
  | cons x offsets ih =>
    have hle := h.le min mem_cons_self
    rw [append_cons]
    unfold twoSmallest
    split
    · rename_i hx
      refine ih (h.swap (hx.trans_le hle) ((Perm.swap ..).trans (.cons _ (.swap ..))) ?_ ?_)
      · simp
      · simpa using hx.le
    · rename_i hmin
      split
      · rename_i hx
        refine ih (h.swap hx (reverse_perm [x, min, secondMin]) ?_ ?_)
        · simp
        · simpa using hmin
      · rename_i hx
        exact ih (h.skip (not_lt.mp hx))

theorem le_of_getLast? (hsorted : heap.Pairwise (· ≤ ·)) (htop : heap.getLast? = some top) {x : Nat}
    (hx : x ∈ heap) : x ≤ top := by
  obtain ⟨init, rfl⟩ := getLast?_eq_some_iff.mp htop
  rcases mem_append.mp hx with hx | hx
  · exact (pairwise_append.mp hsorted).2.2 x hx top (mem_singleton.mpr rfl)
  · exact (mem_singleton.mp hx).le

theorem boundedHeap_kept (offsets : List Nat) (h : Kept all heap top)
    (hsorted : heap.Pairwise (· ≤ ·)) (htop : heap.getLast? = some top) :
    ∃ kept, kept.length = heap.length ∧
      Kept (all ++ offsets) kept ((boundedHeap offsets heap).getLast?.getD 0) := by
  induction offsets generalizing all heap top with
  | nil => exact ⟨heap, rfl, by rwa [append_nil, boundedHeap, htop]⟩
  | cons x offsets ih =>
    rw [append_cons, boundedHeap, htop]
    simp only
    split
    · rename_i hx
      obtain ⟨init, rfl⟩ := getLast?_eq_some_iff.mp htop
      rw [dropLast_concat]
      have hins := perm_orderedInsert (· ≤ ·) x init
      have hsorted' := (pairwise_append.mp hsorted).1.orderedInsert x
      have htop' := getLast?_eq_some_getLast (ne_nil_of_mem (hins.mem_iff.mpr mem_cons_self))
      obtain ⟨kept, hlen, hkept⟩ := ih (h.swap hx ((hins.cons top).trans ((Perm.swap ..).trans
        ((perm_append_singleton top init).symm.cons x))) (mem_of_getLast? htop')
        fun a ha => le_of_getLast? hsorted' htop' ha) hsorted' htop'
      refine ⟨kept, ?_, hkept⟩
      rw [hlen, hins.length_eq, length_append]
      rfl
    · rename_i hx
      exact ih (h.skip (not_lt.mp hx)) hsorted htop

theorem foldl_orderedInsert_spec (offsets : List Nat) :
    let heap := offsets.foldl (fun heap offset => heap.orderedInsert (· ≤ ·) offset) []
    heap.Perm offsets ∧ heap.Pairwise (· ≤ ·) := by
  induction offsets using reverseRecOn with
  | nil => exact ⟨.refl _, Pairwise.nil⟩
  | append_singleton offsets x ih =>
    simp only [foldl_append, foldl_cons, foldl_nil]
    refine ⟨?_, ih.2.orderedInsert x _⟩
    exact (perm_orderedInsert _ _ _).trans ((ih.1.cons x).trans (perm_append_singleton x _).symm)

variable {offsets : List Nat}

/-- **The selected offset is the greatest of the `k` smallest**, of the offsets and, for two, the
starting values of the scan. -/
theorem exists_kept (hk : 0 < k) (hlen : k ≤ offsets.length) :
    ∃ start kept, (∀ x ∈ start, x = u64Max) ∧ kept.length = k ∧
      Kept (start ++ offsets) kept (findKthSmallest offsets k) := by
  unfold findKthSmallest
  rw [if_neg (by omega)]
  split
  · rename_i h1
    have hne : offsets ≠ [] := ne_nil_of_length_pos (by omega)
    obtain ⟨m, hm⟩ := Option.isSome_iff_exists.mp (isSome_min?_of_ne_nil hne)
    obtain ⟨hmem, hmin⟩ := min?_eq_some_iff.mp hm
    rw [hm, h1]
    exact ⟨[], [m], by simp, rfl, by simp, by simp, offsets.erase m,
      (perm_cons_erase hmem).symm, fun b hb => hmin b (mem_of_mem_erase hb)⟩
  · split
    · rename_i h2
      obtain ⟨first, hkept⟩ := twoSmallest_kept offsets
        (⟨by simp, by simp, [], .refl _, by simp⟩ : Kept [u64Max, u64Max] _ u64Max)
      refine ⟨[u64Max, u64Max], _, by simp, ?_, hkept⟩
      exact h2.symm
    · obtain ⟨hperm, hsorted⟩ := foldl_orderedInsert_spec (offsets.take k)
      have hlength := hperm.length_eq
      rw [length_take, min_eq_left hlen] at hlength
      have htop := getLast?_eq_some_getLast (ne_nil_of_length_pos (lt_of_lt_of_eq hk hlength.symm))
      have hheap : Kept (offsets.take k) _ _ := ⟨mem_of_getLast? htop,
        fun a ha => le_of_getLast? hsorted htop ha, [], by rwa [append_nil], by simp⟩
      obtain ⟨kept, hkeptlen, hkept⟩ := boundedHeap_kept (offsets.drop k) hheap hsorted htop
      rw [take_append_drop] at hkept
      exact ⟨[], kept, by simp, hkeptlen.trans hlength, hkept⟩

/-- **Fewer than `k` of the offsets are below the selected one.** -/
theorem countP_lt_findKthSmallest (hk : 0 < k) (hlen : k ≤ offsets.length) :
    offsets.countP (· < findKthSmallest offsets k) < k := by
  obtain ⟨start, kept, -, rfl, hkept⟩ := exists_kept hk hlen
  exact (sublist_append_right start offsets).countP_le.trans_lt hkept.countP_lt

theorem findKthSmallest_le {bound : Nat} (hbound : ∀ x ∈ offsets, x ≤ bound) :
    findKthSmallest offsets k ≤ bound := by
  by_cases hvalid : k = 0 ∨ offsets.length < k
  · unfold findKthSmallest
    rw [if_pos hvalid]
    exact Nat.zero_le _
  · have hcount : offsets.countP (· < findKthSmallest offsets k) < k :=
      countP_lt_findKthSmallest (by omega) (by omega)
    by_contra hlt
    have hall : offsets.countP (· < findKthSmallest offsets k) = offsets.length := by
      rw [countP_eq_length]
      intro x hx
      have := hbound x hx
      exact decide_eq_true (by omega)
    omega

/-! ## What a step can do -/

inductive CallMove (cfg : ManagerConfig) (m : Manager) (c : ReplicateCall) :
    CallEvent → Manager → Phase → Prop
  | appended (hphase : c.phase = .append) : CallMove cfg m c .appended m .storeLogEnd
  | appendFailed (hphase : c.phase = .append) :
      CallMove cfg m c .appendFailed m (.done (.error .io))
  | storeLogEnd (hphase : c.phase = .storeLogEnd) :
      CallMove cfg m c .advance
        { m with logEndOffset := c.record.offset + 1, peak := max m.peak (c.record.offset + 1) }
        (if cfg.followers = [] then .shortcut else .acks cfg.followers 0)
  | shortcut (hphase : c.phase = .shortcut) :
      CallMove cfg m c .advance { m with highWatermark := c.record.offset } (.done (.ok .durable))
  | acked {broker : BrokerId} {pending : List BrokerId} {successful : Nat} {state : FollowerState}
      (hphase : c.phase = .acks pending successful) (hbroker : broker ∈ pending) :
      CallMove cfg m c (.answer broker (some (some state))) (m.updateFollowerState state)
        (afterAnswer cfg (pending.erase broker) (successful + 1) true)
  | ackedBare {broker : BrokerId} {pending : List BrokerId} {successful : Nat}
      (hphase : c.phase = .acks pending successful) (hbroker : broker ∈ pending) :
      CallMove cfg m c (.answer broker (some none)) m
        (afterAnswer cfg (pending.erase broker) (successful + 1) true)
  | refused {broker : BrokerId} {pending : List BrokerId} {successful : Nat}
      (hphase : c.phase = .acks pending successful) (hbroker : broker ∈ pending) :
      CallMove cfg m c (.answer broker none) m
        (afterAnswer cfg (pending.erase broker) successful false)
  | computed {fresh : BrokerId → Bool} {new : Nat} (hphase : c.phase = .recalculate)
      (hnew : newHighWatermark cfg m.logEndOffset fresh m.followerStates = some new) :
      CallMove cfg m c (.compute fresh) m (.load new)
  | tooFew {fresh : BrokerId → Bool} (hphase : c.phase = .recalculate) :
      CallMove cfg m c (.compute fresh) m (.done (.ok .durable))
  | loaded {new : Nat} (hphase : c.phase = .load new) (hlt : m.highWatermark < new) :
      CallMove cfg m c .advance m (.store new)
  | notHigher {new : Nat} (hphase : c.phase = .load new) (hle : new ≤ m.highWatermark) :
      CallMove cfg m c .advance m (.done (.ok .durable))
  | stored {new : Nat} (hphase : c.phase = .store new) :
      CallMove cfg m c .advance { m with highWatermark := new } (.done (.ok .durable))

theorem Manager.callStep_cases {c : ReplicateCall} {event : CallEvent} {phase : Phase}
    (h : m.callStep cfg c event = some (m', phase)) : CallMove cfg m c event m' phase := by
  cases event with
  | appended =>
    simp only [callStep] at h
    split at h
    · cases h; exact .appended ‹_›
    · cases h
  | appendFailed =>
    simp only [callStep] at h
    split at h
    · cases h; exact .appendFailed ‹_›
    · cases h
  | answer broker result =>
    simp only [callStep] at h
    split at h
    · rename_i pending successful hphase
      split at h
      · rename_i hbroker
        split at h
        · cases h; exact .acked hphase hbroker
        · cases h; exact .ackedBare hphase hbroker
        · cases h; exact .refused hphase hbroker
      · cases h
    · cases h
  | compute fresh =>
    simp only [callStep] at h
    split at h
    · rename_i hphase
      split at h
      · cases h; exact .computed hphase ‹_›
      · cases h; exact .tooFew hphase
    · cases h
  | advance =>
    simp only [callStep] at h
    split at h
    · cases h; exact .storeLogEnd ‹_›
    · cases h; exact .shortcut ‹_›
    · rename_i new hphase
      cases h
      split
      · exact .loaded hphase ‹_›
      · rename_i hle
        exact .notHigher hphase (not_lt.mp hle)
    · cases h; exact .stored ‹_›
    · cases h

inductive ManagerStep (cfg : ManagerConfig) (m : Manager) : ManagerLabel → Manager → Prop
  | replicateRecord {id : Nat} {record : WalRecord} (hfree : m.calls id = none) :
      ManagerStep cfg m (.replicateRecord id record)
        { m.setCall id ⟨record, .append⟩ with issued := max m.issued (record.offset + 1) }
  | call {id : Nat} {event : CallEvent} {c : ReplicateCall} {m' : Manager} {phase : Phase}
      (hcall : m.calls id = some c) (hmove : CallMove cfg m c event m' phase) :
      ManagerStep cfg m (.call id event) (m'.setCall id { c with phase := phase })
  | updateFollowerState {state : FollowerState} :
      ManagerStep cfg m (.updateFollowerState state) (m.updateFollowerState state)
  | addFollower {broker : BrokerId} :
      ManagerStep cfg m (.addFollower broker) (m.updateFollowerState ⟨broker, 0, 0⟩)
  | removeFollower {broker : BrokerId} :
      ManagerStep cfg m (.removeFollower broker)
        { m with followerStates := m.followerStates.erase broker }

theorem Manager.step_cases {label : ManagerLabel} (h : m.step cfg label = some m') :
    ManagerStep cfg m label m' := by
  cases label with
  | replicateRecord id record =>
    simp only [step] at h
    split at h
    · cases h
    · cases h; exact .replicateRecord ‹_›
  | call id event =>
    simp only [step] at h
    split at h
    · cases h
    · rename_i c hcall
      obtain ⟨⟨m₁, phase⟩, hmove, rfl⟩ := Option.map_eq_some_iff.mp h
      exact .call hcall (callStep_cases hmove)
  | updateFollowerState state => cases h; exact .updateFollowerState
  | addFollower broker => cases h; exact .addFollower
  | removeFollower broker => cases h; exact .removeFollower

end RustMq.Replication
