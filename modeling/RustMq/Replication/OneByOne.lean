import RustMq.Replication.Quorum

/-!
# Records replicated one after another

A leader makes its calls of `replicate_record` one after another, for offsets 0, 1, 2 and so on, and
every follower answers every request that is waited for. Then the watermark is one past the last
record whenever there is a follower: a call stops waiting after `min_in_sync_replicas - 1` answers,
and those that answered and the leader are a quorum at the new end (`newHighWatermark_acked`).

Without followers the call stores the offset of the record itself, which is one less.
-/

namespace RustMq.Replication

open Lib Store List

def Manager.Idle (m : Manager) : Prop :=
  ∀ id c, m.calls id = some c → c.phase.active = false

/-- Calls one after another for offsets 0, 1, 2, ..., with appends that succeed and followers that
answer with their next offset and have a fresh heartbeat. -/
def FullyReplicated (cfg : ManagerConfig) (m : Manager) : ManagerLabel → Prop
  | .replicateRecord _ record =>
    m.Idle ∧ record.offset = m.issued ∧ record.offset < u64Max
  | .call _ .appended | .call _ .advance => True
  | .call _ .appendFailed => False
  | .call id (.answer broker result) => ∀ c, m.calls id = some c →
      ∃ lag, result = some (some ⟨broker, c.record.offset + 1, lag⟩)
  | .call _ (.compute fresh) => ∀ broker ∈ cfg.followers, fresh broker = true
  | .addFollower _ => m.Idle
  | .updateFollowerState _ | .removeFollower _ => False

/-! ## The quorum of those that answered -/

def Reported (states : FollowerStates) (logEndOffset : Nat) (broker : BrokerId) : Prop :=
  ∃ lag, states.lookup broker = some ⟨broker, logEndOffset, lag⟩

variable {states : FollowerStates} {logEndOffset : Nat} {cfg : ManagerConfig}
  {fresh : BrokerId → Bool} {acked : List BrokerId}

theorem Reported.insert {lag : Nat} {broker broker' : BrokerId}
    (h : Reported states logEndOffset broker) :
    Reported (states.insert broker' ⟨broker', logEndOffset, lag⟩) logEndOffset broker := by
  obtain ⟨lag', hlook⟩ := h
  by_cases hsame : broker = broker'
  · subst hsame
    exact ⟨lag, AList.lookup_insert _⟩
  · exact ⟨lag', by rw [AList.lookup_insert_ne hsame, hlook]⟩

theorem length_le_countP_followerValues {test : FollowerState → Bool} {brokers : List BrokerId}
    (hnodup : brokers.Nodup)
    (h : ∀ b ∈ brokers, ∃ state, states.lookup b = some state ∧ test state = true) :
    brokers.length ≤ (followerValues states).countP test := by
  have hsubset : brokers ⊆ (states.entries.filter fun e => test e.2).map Sigma.fst := by
    intro b hb
    obtain ⟨state, hlook, htest⟩ := h b hb
    exact mem_map.mpr ⟨⟨b, state⟩, mem_filter.mpr ⟨AList.mem_lookup_iff.mp hlook, htest⟩, rfl⟩
  calc brokers.length
      ≤ ((states.entries.filter fun e => test e.2).map Sigma.fst).length :=
        (subperm_of_subset hnodup hsubset).length_le
    _ = (followerValues states).countP test := by
        rw [length_map, ← countP_eq_length_filter, followerValues, countP_map]
        rfl

theorem newHighWatermark_acked (hmin : 1 ≤ cfg.minInSyncReplicas) (hu64 : logEndOffset ≤ u64Max)
    (hstates : ∀ state ∈ followerValues states, state.lastKnownOffset ≤ logEndOffset)
    (hnodup : acked.Nodup) (hacks : cfg.requiredAcks ≤ acked.length)
    (hfresh : ∀ b ∈ acked, fresh b = true) (hacked : ∀ b ∈ acked, Reported states logEndOffset b) :
    newHighWatermark cfg logEndOffset fresh states = some logEndOffset := by
  have hbound : ∀ x ∈ inSyncOffsets cfg logEndOffset fresh states, x ≤ logEndOffset := by
    intro x hx
    rcases mem_cons.mp hx with rfl | hx
    · exact le_rfl
    · obtain ⟨state, hstate, rfl⟩ := mem_map.mp hx
      exact hstates state (mem_of_mem_filter hstate)
  -- the leader and those that answered have the log end offset
  have hquorum : Quorum cfg.minInSyncReplicas (inSyncOffsets cfg logEndOffset fresh states)
      logEndOffset := by
    have hcount : acked.length ≤ (followerValues states).countP fun state =>
        decide (logEndOffset ≤ state.lastKnownOffset) &&
          isFollowerInSync cfg logEndOffset fresh state :=
      length_le_countP_followerValues hnodup fun b hb => by
        obtain ⟨lag, hlook⟩ := hacked b hb
        exact ⟨_, hlook, by simp [isFollowerInSync, hfresh b hb]⟩
    have hleader : (inSyncOffsets cfg logEndOffset fresh states).countP (logEndOffset ≤ ·) =
        ((followerValues states).countP fun state =>
          decide (logEndOffset ≤ state.lastKnownOffset) &&
            isFollowerInSync cfg logEndOffset fresh state) + 1 := by
      rw [inSyncOffsets, countP_cons, if_pos (decide_eq_true le_rfl), countP_map, countP_filter]
      rfl
    unfold Quorum
    unfold ManagerConfig.requiredAcks at hacks
    omega
  have hlen : cfg.minInSyncReplicas ≤ (inSyncOffsets cfg logEndOffset fresh states).length :=
    hquorum.trans countP_le_length
  have hgreatest := isGreatest_findKthSmallest hmin hlen fun x hx => (hbound x hx).trans hu64
  unfold newHighWatermark
  rw [if_pos hlen, le_antisymm (findKthSmallest_le hbound) (hgreatest.2 hquorum)]

/-! ## The call in progress -/

def settled (cfg : ManagerConfig) (n : Nat) : Nat := if cfg.followers = [] then n - 1 else n

def InHand (cfg : ManagerConfig) (m : Manager) (c : ReplicateCall) : Prop :=
  match c.phase with
  | .append | .storeLogEnd => m.logEndOffset = c.record.offset
  | .shortcut => m.logEndOffset = m.issued ∧ cfg.followers = []
  | .acks pending successful =>
    m.logEndOffset = m.issued ∧ cfg.followers ≠ [] ∧
      ∃ acked, (acked ++ pending).Perm cfg.followers ∧ acked.length = successful ∧
        ∀ b ∈ acked, Reported m.followerStates m.issued b
  | .recalculate =>
    m.logEndOffset = m.issued ∧ cfg.followers ≠ [] ∧
      ∃ acked, acked.Nodup ∧ acked ⊆ cfg.followers ∧ cfg.requiredAcks ≤ acked.length ∧
        ∀ b ∈ acked, Reported m.followerStates m.issued b
  | .load new | .store new => m.logEndOffset = m.issued ∧ cfg.followers ≠ [] ∧ new = m.issued
  | .done _ => m.logEndOffset = m.issued ∧ m.highWatermark = settled cfg m.issued

structure OneByOneInv (cfg : ManagerConfig) (m : Manager) : Prop where
  u64 : m.issued ≤ u64Max
  highWatermark_le : m.highWatermark ≤ m.issued
  states_le : ∀ state ∈ followerValues m.followerStates, state.lastKnownOffset ≤ m.logEndOffset
  idle : m.Idle → m.logEndOffset = m.issued ∧ m.highWatermark = settled cfg m.issued
  offset : ∀ id c, m.calls id = some c → c.phase.active = true →
    c.record.offset + 1 = m.issued ∧ InHand cfg m c
  one : ∀ id id' c c', m.calls id = some c → m.calls id' = some c' → c.phase.active = true →
    c'.phase.active = true → id = id'

namespace OneByOneInv

variable {m m' : Manager} {id : Nat} {c : ReplicateCall}

theorem new : OneByOneInv cfg .new where
  u64 := Nat.zero_le _
  highWatermark_le := le_rfl
  states_le _ h := by cases h
  idle _ := ⟨rfl, by unfold settled; split <;> rfl⟩
  offset _ _ h := by cases h
  one _ _ _ _ h := by cases h

theorem setCall (hothers : ∀ id' c', id' ≠ id → m.calls id' = some c' → c'.phase.active = false)
    (hcalls : m'.calls = m.calls) (hu64 : m'.issued ≤ u64Max)
    (hhw : m'.highWatermark ≤ m'.issued)
    (hstates : ∀ state ∈ followerValues m'.followerStates, state.lastKnownOffset ≤ m'.logEndOffset)
    (hoffset : c.record.offset + 1 = m'.issued) (hphase : InHand cfg m' c) :
    OneByOneInv cfg (m'.setCall id c) := by
  have honly : ∀ id' c', (m'.setCall id c).calls id' = some c' → c'.phase.active = true →
      id' = id ∧ c' = c := by
    intro id' c' hc' hactive
    rcases Manager.of_calls_setCall hcalls hc' with heq | ⟨hne, hc'⟩
    · exact heq
    · rw [hothers id' c' hne hc'] at hactive
      cases hactive
  refine ⟨hu64, hhw, hstates, fun hidle => ?_, ?_, ?_⟩
  · -- the call itself has returned
    have hdone := hidle id c (Function.update_self ..)
    unfold InHand at hphase
    cases hp : c.phase with
    | done result =>
      rw [hp] at hphase
      exact hphase
    | _ =>
      rw [hp] at hdone
      cases hdone
  · intro id' c' hc' hactive
    obtain ⟨-, rfl⟩ := honly id' c' hc' hactive
    exact ⟨hoffset, hphase⟩
  · intro id₁ id₂ c₁ c₂ h₁ h₂ ha₁ ha₂
    exact (honly id₁ c₁ h₁ ha₁).1.trans (honly id₂ c₂ h₂ ha₂).1.symm

theorem others (h : OneByOneInv cfg m) (hcall : m.calls id = some c)
    (hactive : c.phase.active = true) :
    ∀ id' c', id' ≠ id → m.calls id' = some c' → c'.phase.active = false := by
  intro id' c' hne hc'
  by_contra hactive'
  exact hne (h.one id' id c' c hc' hcall (by simpa using hactive') hactive)

theorem phaseOk_afterAnswer {pending : List BrokerId} (hnodup : cfg.followers.Nodup)
    (hmin : cfg.requiredAcks ≤ cfg.followers.length) (hlogEnd : m.logEndOffset = m.issued)
    (hfollowers : cfg.followers ≠ []) (hperm : (acked ++ pending).Perm cfg.followers)
    (hreported : ∀ b ∈ acked, Reported m.followerStates m.issued b) :
    InHand cfg m { c with phase := afterAnswer cfg pending acked.length true } := by
  have hrecalculate : cfg.requiredAcks ≤ acked.length →
      InHand cfg m { c with phase := .recalculate } := fun henough =>
    ⟨hlogEnd, hfollowers, acked, (hperm.nodup_iff.mpr hnodup).of_append_left,
      fun b hb => hperm.mem_iff.mp (mem_append_left _ hb), henough, hreported⟩
  unfold afterAnswer
  split
  · rename_i henough
    exact hrecalculate henough.2
  · rename_i hfew
    split
    · exact ⟨hlogEnd, hfollowers, acked, hperm, rfl, hreported⟩
    · -- everyone has answered, which is enough
      rename_i hpending
      rw [not_not] at hpending
      have hlen := hperm.length_eq
      rw [hpending, append_nil] at hlen
      exact absurd ⟨rfl, by omega⟩ hfew

theorem newHighWatermark_eq (h : OneByOneInv cfg m) (hmin : 1 ≤ cfg.minInSyncReplicas)
    (hphase : c.phase = .recalculate) (hfresh : ∀ broker ∈ cfg.followers, fresh broker = true)
    (hok : InHand cfg m c) :
    newHighWatermark cfg m.logEndOffset fresh m.followerStates = some m.issued := by
  rw [InHand, hphase] at hok
  obtain ⟨hlogEnd, -, acked, hdistinct, hsubset, henough, hreported⟩ := hok
  have hquorum := newHighWatermark_acked hmin (hlogEnd.trans_le h.u64) h.states_le hdistinct
    henough (fun b hb => hfresh b (hsubset hb)) (fun b hb => hlogEnd ▸ hreported b hb)
  rw [hquorum, hlogEnd]

variable (h : OneByOneInv cfg m) (hnodup : cfg.followers.Nodup) (hmin : 1 ≤ cfg.minInSyncReplicas)
  (hacks : cfg.requiredAcks ≤ cfg.followers.length)
include h hnodup hmin hacks

theorem call {event : CallEvent} {phase : Phase} (hcall : m.calls id = some c)
    (hfull : FullyReplicated cfg m (.call id event))
    (hmove : m.callStep cfg c event = some (m', phase)) :
    OneByOneInv cfg (m'.setCall id { c with phase := phase }) := by
  have hcases := Manager.callStep_cases hmove
  have hactive := hcases.active
  have hothers := h.others hcall hactive
  obtain ⟨hoffset, hok⟩ := h.offset id c hcall hactive
  cases hcases with
  | appendFailed hphase => exact hfull.elim
  | refused | ackedBare =>
    obtain ⟨lag, hresult⟩ := hfull c hcall
    cases hresult
  | appended hphase =>
    rw [InHand, hphase] at hok
    exact setCall hothers rfl h.u64 h.highWatermark_le h.states_le hoffset hok
  | storeLogEnd hphase =>
    rw [InHand, hphase] at hok
    refine setCall hothers rfl h.u64 h.highWatermark_le ?_ hoffset ?_
    · intro state hstate
      have := h.states_le state hstate
      simp only at hok ⊢
      omega
    · split
      · exact ⟨hoffset, ‹_›⟩
      · exact ⟨hoffset, ‹_›, [], .refl _, rfl, fun b hb => by cases hb⟩
  | shortcut hphase =>
    rw [InHand, hphase] at hok
    refine setCall hothers rfl h.u64 (by simp only; omega) h.states_le hoffset ⟨hok.1, ?_⟩
    simp only [settled, if_pos hok.2]
    omega
  | @acked broker pending successful state hphase hbroker =>
    rw [InHand, hphase] at hok
    obtain ⟨hlogEnd, hfollowers, acked, hperm, rfl, hreported⟩ := hok
    obtain ⟨lag, hresult⟩ := hfull c hcall
    cases hresult
    refine setCall (m := m) hothers rfl h.u64 h.highWatermark_le ?_ hoffset ?_
    · intro state hstate
      rcases mem_followerValues_insert hstate with rfl | hstate
      · exact (hoffset.trans hlogEnd.symm).le
      · exact h.states_le state hstate
    · have hperm' : ((broker :: acked) ++ pending.erase broker).Perm cfg.followers :=
        (perm_middle.symm.trans ((perm_cons_erase hbroker).symm.append_left acked)).trans hperm
      refine phaseOk_afterAnswer (m := m.updateFollowerState _) hnodup hacks hlogEnd hfollowers
        hperm' fun b hb => ?_
      show Reported (m.followerStates.insert broker _) m.issued b
      rw [hoffset]
      rcases mem_cons.mp hb with rfl | hb
      · exact ⟨lag, AList.lookup_insert _⟩
      · exact (hreported b hb).insert
  | computed hphase hnew =>
    rw [h.newHighWatermark_eq hmin hphase hfull hok] at hnew
    cases hnew
    rw [InHand, hphase] at hok
    exact setCall hothers rfl h.u64 h.highWatermark_le h.states_le hoffset ⟨hok.1, hok.2.1, rfl⟩
  | tooFew hphase =>
    -- there is a quorum
    simp only [Manager.callStep, hphase, h.newHighWatermark_eq hmin hphase hfull hok] at hmove
    cases hmove
  | loaded hphase hlt =>
    rw [InHand, hphase] at hok
    exact setCall hothers rfl h.u64 h.highWatermark_le h.states_le hoffset hok
  | notHigher hphase hle =>
    rw [InHand, hphase] at hok
    refine setCall hothers rfl h.u64 h.highWatermark_le h.states_le hoffset ⟨hok.1, ?_⟩
    rw [settled, if_neg hok.2.1]
    exact le_antisymm h.highWatermark_le (hok.2.2 ▸ hle)
  | stored hphase =>
    rw [InHand, hphase] at hok
    refine setCall hothers rfl h.u64 hok.2.2.le h.states_le hoffset ⟨hok.1, ?_⟩
    simp only [settled, if_neg hok.2.1, hok.2.2]

theorem step {label : ManagerLabel} (hfull : FullyReplicated cfg m label)
    (hstep : m.step cfg label = some m') : OneByOneInv cfg m' := by
  cases label with
  | replicateRecord id record =>
    obtain ⟨hidle, hoffset, hu64⟩ := hfull
    cases Manager.step_cases hstep with
    | replicateRecord hfree =>
      have hissued : max m.issued (record.offset + 1) = record.offset + 1 :=
        max_eq_right (by omega)
      obtain ⟨hlogEnd, hhw⟩ := h.idle hidle
      rw [hissued]
      have hhw' : m.highWatermark ≤ record.offset + 1 := by
        have := h.highWatermark_le
        omega
      show OneByOneInv cfg (Manager.setCall { m with issued := record.offset + 1 } id _)
      exact setCall (m := m) (fun id' c' _ hc' => hidle id' c' hc') rfl hu64 hhw' h.states_le rfl
        (hlogEnd.trans hoffset.symm)
  | call id event =>
    simp only [Manager.step] at hstep
    split at hstep
    · cases hstep
    · rename_i c hcall
      obtain ⟨⟨m₁, phase⟩, hmove, rfl⟩ := Option.map_eq_some_iff.mp hstep
      exact h.call hnodup hmin hacks hcall hfull hmove
  | addFollower broker =>
    cases hstep
    refine ⟨h.u64, h.highWatermark_le, ?_, h.idle, ?_, h.one⟩
    · intro state hstate
      rcases mem_followerValues_insert hstate with rfl | hstate
      · exact Nat.zero_le _
      · exact h.states_le state hstate
    · intro id c hcall hactive
      rw [hfull id c hcall] at hactive
      cases hactive
  | updateFollowerState | removeFollower => exact hfull.elim

end OneByOneInv

/-! ## The watermark after a call -/

theorem length_followers {leader : BrokerId} (hleader : cfg.currentLeader = some leader)
    (hmem : leader ∈ cfg.replicaSet) (hnodup : cfg.replicaSet.Nodup) :
    cfg.followers.length + 1 = cfg.replicaSet.length := by
  have herase : cfg.followers = cfg.replicaSet.erase leader := by
    rw [hnodup.erase_eq_filter, ManagerConfig.followers, hleader]
    exact filter_congr fun b _ => by rw [Bool.eq_iff_iff]; simp
  rw [herase, length_erase_of_mem hmem]
  have := length_pos_of_mem hmem
  omega

/-- **After the call for offset `n` has returned the watermark is `n + 1`, exactly when there is a
follower**; the leader alone has it at `n`. -/
theorem highWatermark_after_replicating (cfg : ManagerConfig) {leader : BrokerId}
    (hleader : cfg.currentLeader = some leader) (hmem : leader ∈ cfg.replicaSet)
    (hnodup : cfg.replicaSet.Nodup) (hmin : 1 ≤ cfg.minInSyncReplicas)
    (hmax : cfg.minInSyncReplicas ≤ cfg.replicaSet.length) {labels : List ManagerLabel}
    {m : Manager} {n : Nat} (hfull : Along (Manager.step cfg) (FullyReplicated cfg) .new labels)
    (hexec : exec (Manager.step cfg) .new labels = some m) (hidle : m.Idle)
    (hlast : m.issued = n + 1) :
    (m.highWatermark = n + 1 ↔ cfg.followers ≠ []) ∧
      (cfg.followers = [] → m.highWatermark = n) := by
  have hacks : cfg.requiredAcks ≤ cfg.followers.length := by
    have := length_followers hleader hmem hnodup
    unfold ManagerConfig.requiredAcks
    omega
  have hinv : OneByOneInv cfg m :=
    exec_invariant (fun s label s' hs hP hstep =>
      OneByOneInv.step hs (hnodup.filter _) hmin hacks hP hstep) OneByOneInv.new hfull hexec
  have hhw := (hinv.idle hidle).2
  rw [hlast, settled] at hhw
  by_cases hf : cfg.followers = []
  · rw [if_pos hf] at hhw
    refine ⟨⟨fun h => ?_, fun h => absurd hf h⟩, fun _ => hhw⟩
    omega
  · rw [if_neg hf] at hhw
    exact ⟨⟨fun _ => hf, fun _ => hhw⟩, fun h => absurd h hf⟩

theorem idle_of_one {m : Manager} {c : ReplicateCall} {result : Except RustMqError DurabilityLevel}
    (hcall : m.calls 0 = some c) (hdone : c.phase = .done result)
    (hnone : ∀ id, id ≠ 0 → m.calls id = none) : m.Idle := by
  intro id c' hc'
  by_cases hid : id = 0
  · rw [hid, hcall] at hc'
    cases hc'
    rw [hdone]
    rfl
  · rw [hnone id hid] at hc'
    cases hc'

theorem idle_new : Manager.new.Idle := by
  intro id c hc
  cases hc

theorem oneRecord_fullyReplicated :
    Along (Manager.step pairConfig) (FullyReplicated pairConfig) .new oneRecord := by
  refine along_cons ⟨idle_new, rfl, by decide⟩ rfl <| along_cons trivial rfl <|
    along_cons trivial rfl <| along_cons ?_ rfl <| along_cons (fun _ _ => rfl) rfl <|
    along_cons trivial rfl <| along_cons trivial rfl trivial
  rintro c ⟨⟩
  exact ⟨0, rfl⟩

theorem highWatermark_after_oneRecord :
    ∃ m, exec (Manager.step pairConfig) .new oneRecord = some m ∧ m.highWatermark = 0 + 1 := by
  refine ⟨_, rfl, (highWatermark_after_replicating pairConfig rfl (by decide)
    (by decide) (by decide) (by decide) oneRecord_fullyReplicated rfl ?_ rfl).1.mpr (by decide)⟩
  refine idle_of_one rfl rfl fun id hid => ?_
  simp [Manager.setCall, Manager.updateFollowerState, Manager.new, hid]

def aloneConfig : ManagerConfig := ⟨some "broker-1", ["broker-1"], 1, 100⟩

def oneRecordAlone : List ManagerLabel :=
  [.replicateRecord 0 (plainRecord 0), .call 0 .appended, .call 0 .advance, .call 0 .advance]

/-- The call for offset 0 has returned and the watermark is still 0. -/
theorem highWatermark_alone_behind :
    ∃ m, Along (Manager.step aloneConfig) (FullyReplicated aloneConfig) .new oneRecordAlone ∧
      exec (Manager.step aloneConfig) .new oneRecordAlone = some m ∧ m.Idle ∧ m.issued = 0 + 1 ∧
      m.highWatermark = 0 := by
  refine ⟨_, along_cons ⟨idle_new, rfl, by decide⟩ rfl <| along_cons trivial rfl <|
    along_cons trivial rfl <| along_cons trivial rfl trivial, rfl, ?_, rfl, rfl⟩
  refine idle_of_one rfl rfl fun id hid => ?_
  simp [Manager.setCall, Manager.new, hid]

end RustMq.Replication
