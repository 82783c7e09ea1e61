import RustMq.Replication.Rejected
import RustMq.Replication.Watermark

/-!
# A leader and its followers over an unreliable network

The manager of one leader, its log, and the handlers of the followers, joined by a network that
keeps every `ReplicateData` request that was ever sent: a request may be delivered at any time,
in any order, any number of times, or never. A follower's answer reaches the call that waits for
it, or the call sees an error.
-/

namespace RustMq.Replication

open Lib Store List Function

structure ClusterConfig where
  manager : ManagerConfig
  store : StoreConfig
  topicPartition : TopicPartition
  leaderEpoch : Nat

structure Cluster where
  manager : Manager
  leaderLog : PartitionStore
  followers : BrokerId → FollowerReplicationHandler
  sent : List (BrokerId × ReplicateDataRequest)
  answers : List (BrokerId × List WalRecord × FollowerState)

inductive ClusterLabel where
  | replicateRecord (id : Nat) (record : WalRecord)
  | appended (id : Nat)
  | appendFailed (id : Nat) (left : Bool)
  | advance (id : Nat)
  | answer (id : Nat) (broker : BrokerId) (result : Option FollowerState)
  | compute (id : Nat) (fresh : BrokerId → Bool)
  | deliver (broker : BrokerId) (request : ReplicateDataRequest) (outcome : Nat → AppendOutcome)

def requestsFor (cfg : ClusterConfig) (record : WalRecord) :
    List (BrokerId × ReplicateDataRequest) :=
  match cfg.manager.currentLeader with
  | none => []
  | some leader => cfg.manager.followers.map fun b =>
      (b, ⟨cfg.leaderEpoch, cfg.topicPartition, [record], leader⟩)

namespace Cluster

def new (cfg : ClusterConfig) (epochs : BrokerId → Nat) : Cluster where
  manager := .new
  leaderLog := .empty
  followers b := ⟨epochs b, none, cfg.topicPartition, .empty, b⟩
  sent := []
  answers := []

def managerCall (cfg : ClusterConfig) (s : Cluster) (id : Nat) (event : CallEvent) :
    Option (ReplicateCall × Manager) :=
  match s.manager.calls id with
  | none => none
  | some c => (s.manager.step cfg.manager (.call id event)).map fun m => (c, m)

def step (cfg : ClusterConfig) (s : Cluster) : ClusterLabel → Option Cluster
  | .replicateRecord id record =>
    (s.manager.step cfg.manager (.replicateRecord id record)).map fun m => { s with manager := m }
  | .appended id => (s.managerCall cfg id .appended).map fun r =>
    { s with manager := r.2, leaderLog := s.leaderLog.append cfg.store r.1.record .ok }
  | .appendFailed id left => (s.managerCall cfg id .appendFailed).map fun r =>
    { s with manager := r.2, leaderLog := s.leaderLog.append cfg.store r.1.record (.fail left) }
  | .advance id => (s.managerCall cfg id .advance).map fun r =>
    let sent := match r.1.phase with
      | .storeLogEnd => s.sent ++ requestsFor cfg r.1.record
      | _ => s.sent
    { s with manager := r.2, sent := sent }
  | .answer id broker none => (s.managerCall cfg id (.answer broker none)).map fun r =>
    { s with manager := r.2 }
  | .answer id broker (some state) =>
    (s.managerCall cfg id (.answer broker (some (some state)))).bind fun r =>
      if (broker, [r.1.record], state) ∈ s.answers then some { s with manager := r.2 } else none
  | .compute id fresh => (s.managerCall cfg id (.compute fresh)).map fun r =>
    { s with manager := r.2 }
  | .deliver broker request outcome =>
    if (broker, request) ∈ s.sent then
      let r := (s.followers broker).handleReplicateData cfg.store request outcome
      let answers := match r.1.followerState with
        | some state => s.answers ++ [(broker, request.records, state)]
        | none => s.answers
      some { s with followers := Function.update s.followers broker r.2, answers := answers }
    else none

end Cluster

/-! ## What the watermark promises -/

inductive Replica where
  | leader
  | follower (broker : BrokerId)
  deriving DecidableEq

def Cluster.log (s : Cluster) : Replica → PartitionStore
  | .leader => s.leaderLog
  | .follower broker => (s.followers broker).recordLog

def HasOffset (log : PartitionStore) (tp : TopicPartition) (offset : Nat) : Prop :=
  (stored log tp offset).isSome = true

def Replicated (cfg : ClusterConfig) (s : Cluster) (offset : Nat) : Prop :=
  ∃ replicas : List Replica, replicas.Nodup ∧ cfg.manager.minInSyncReplicas ≤ replicas.length ∧
    ∀ r ∈ replicas, (∀ b, r = .follower b → b ∈ cfg.manager.followers) ∧
      HasOffset (s.log r) cfg.topicPartition offset

/-! ## The condition -/

/-- The leader appends a record when it has every lower offset, and a follower gets one when it has
every lower offset, and stores it. -/
def Gapless (cfg : ClusterConfig) (s : Cluster) : ClusterLabel → Prop
  | .replicateRecord _ record => record.topicPartition = cfg.topicPartition
  | .appended id => ∀ c, s.manager.calls id = some c →
      ∀ offset < c.record.offset, HasOffset s.leaderLog cfg.topicPartition offset
  | .appendFailed id _ => ∀ c, s.manager.calls id = some c →
      ¬ HasOffset s.leaderLog cfg.topicPartition c.record.offset
  | .deliver broker request outcome =>
      (∀ i, outcome i = .ok) ∧ ∀ r ∈ request.records,
        r.offset ≤ (s.followers broker).recordLog.index.nextOffset cfg.topicPartition
  | .advance _ | .answer _ _ _ | .compute _ _ => True

/-! ## Logs -/

section logs

variable {cfg : StoreConfig} {log : PartitionStore} {r : WalRecord} {tp : TopicPartition}
  {offset : Nat}

theorem HasOffset.append_ok (h : HasOffset log tp offset) :
    HasOffset (log.append cfg r .ok) tp offset := by
  unfold HasOffset at h ⊢
  rw [stored_append_ok]
  split
  · rfl
  · exact h

theorem HasOffset.of_append (htp : r.topicPartition = tp) :
    HasOffset (log.append cfg r .ok) tp r.offset := by
  unfold HasOffset
  rw [stored_append_ok, if_pos ⟨htp, rfl⟩]
  rfl

theorem HasOffset.append_fail (h : HasOffset log tp offset) (left : Bool)
    (hnot : ¬ HasOffset log tp r.offset) : HasOffset (log.append cfg r (.fail left)) tp offset := by
  unfold HasOffset at h hnot ⊢
  rw [stored_append_fail]
  split
  · rename_i hat
    rw [hat.2] at hnot
    exact absurd h hnot
  · exact h

theorem nextOffset_append_ok : (log.append cfg r .ok).index.nextOffset tp =
      if tp = r.topicPartition then max (log.index.nextOffset tp) (r.offset + 1)
      else log.index.nextOffset tp := by
  show (log.index.insertHot r.topicPartition r.offset r _).nextOffset tp = _
  rw [PartitionIndex.nextOffset_insertHot]
  split
  · rename_i h
    rw [h]
  · rfl

def Full (log : PartitionStore) (tp : TopicPartition) : Prop :=
  ∀ offset < log.index.nextOffset tp, HasOffset log tp offset

theorem Full.append (h : Full log tp) (hle : r.offset ≤ log.index.nextOffset tp) :
    Full (log.append cfg r .ok) tp := by
  intro offset hlt
  rw [nextOffset_append_ok] at hlt
  split at hlt
  · rename_i htp
    by_cases hold : offset < log.index.nextOffset tp
    · exact (h offset hold).append_ok
    · have : offset = r.offset := by omega
      rw [this]
      exact .of_append htp.symm
  · exact (h offset hlt).append_ok

end logs

variable {request : ReplicateDataRequest} {outcome : Nat → AppendOutcome} {offset id : Nat}
  {b : BrokerId} {record : WalRecord}

theorem deliver_spec (cfg : StoreConfig) {h : FollowerReplicationHandler} {tp : TopicPartition}
    (hok : ∀ i, outcome i = .ok) (hone : ∃ r, request.records = [r]) (hfull : Full h.recordLog tp)
    (htp : h.topicPartition = tp)
    (hle : ∀ r ∈ request.records, r.offset ≤ h.recordLog.index.nextOffset tp) :
    let answer := h.handleReplicateData cfg request outcome
    Full answer.2.recordLog tp ∧
      (∀ offset, HasOffset h.recordLog tp offset → HasOffset answer.2.recordLog tp offset) ∧
      h.recordLog.index.nextOffset tp ≤ answer.2.recordLog.index.nextOffset tp ∧
      answer.2.topicPartition = h.topicPartition ∧ answer.2.brokerId = h.brokerId ∧
      ∀ state, answer.1.followerState = some state → state.brokerId = h.brokerId ∧
        state.lastKnownOffset = answer.2.recordLog.index.nextOffset tp := by
  obtain ⟨r, hr⟩ := hone
  have hbroker : ∀ epoch leader, (h.adopt epoch leader).brokerId = h.brokerId := by
    intro epoch leader
    unfold FollowerReplicationHandler.adopt
    split <;> rfl
  have hmax : h.recordLog.index.nextOffset tp ≤
      (h.recordLog.append cfg r .ok).index.nextOffset tp := by
    rw [nextOffset_append_ok]
    split
    · exact le_max_left _ _
    · exact le_rfl
  unfold FollowerReplicationHandler.handleReplicateData
  by_cases hstale : request.leaderEpoch < h.leaderEpoch
  · simp only [if_pos hstale]
    exact ⟨hfull, fun _ ho => ho, le_rfl, trivial, trivial, fun _ hs => nomatch hs⟩
  · simp only [if_neg hstale, recordLog_adopt, topicPartition_adopt, ne_eq, ite_not]
    by_cases hpart : request.topicPartition = h.topicPartition
    · simp only [if_pos hpart, hr, appendAll, hok]
      refine ⟨hfull.append (hle r (by rw [hr]; exact mem_singleton.mpr rfl)),
        fun _ ho => ho.append_ok, hmax, trivial, hbroker _ _, ?_⟩
      intro state hstate
      cases hstate
      exact ⟨hbroker _ _, by rw [htp]⟩
    · simp only [if_neg hpart, recordLog_adopt]
      exact ⟨hfull, fun _ ho => ho, le_rfl, topicPartition_adopt _ _ _, hbroker _ _,
        fun _ hs => nomatch hs⟩

/-! ## The invariant -/

/-- No log of `s` has lost an offset in `s'`. -/
structure Grows (tp : TopicPartition) (s s' : Cluster) : Prop where
  has : ∀ r offset, HasOffset (s.log r) tp offset → HasOffset (s'.log r) tp offset
  next : ∀ b, (s.followers b).recordLog.index.nextOffset tp ≤
    (s'.followers b).recordLog.index.nextOffset tp

variable {cfg : ClusterConfig} {s s' : Cluster}

theorem Replicated.mono (h : Replicated cfg s offset) (hgrow : Grows cfg.topicPartition s s') :
    Replicated cfg s' offset := by
  obtain ⟨replicas, hnodup, hlen, hall⟩ := h
  exact ⟨replicas, hnodup, hlen, fun r hr => ⟨(hall r hr).1, hgrow.has r offset (hall r hr).2⟩⟩

def StateOk (cfg : ClusterConfig) (s : Cluster) (b : BrokerId) (state : FollowerState) : Prop :=
  b ∈ cfg.manager.followers ∧ state.brokerId = b ∧
    state.lastKnownOffset ≤ (s.followers b).recordLog.index.nextOffset cfg.topicPartition

theorem StateOk.mono {state : FollowerState} (h : StateOk cfg s b state)
    (hgrow : Grows cfg.topicPartition s s') : StateOk cfg s' b state :=
  ⟨h.1, h.2.1, h.2.2.trans (hgrow.next b)⟩

def PhaseOk (cfg : ClusterConfig) (s : Cluster) (record : WalRecord) : Phase → Prop
  | .storeLogEnd =>
    ∀ offset ≤ record.offset, HasOffset s.leaderLog cfg.topicPartition offset
  | .shortcut => cfg.manager.followers = [] ∧
      ∀ offset ≤ record.offset, HasOffset s.leaderLog cfg.topicPartition offset
  | .load new | .store new => ∀ offset < new, Replicated cfg s offset
  | .append | .acks _ _ | .recalculate | .done _ => True

theorem PhaseOk.mono {phase : Phase} (h : PhaseOk cfg s record phase)
    (hgrow : Grows cfg.topicPartition s s') : PhaseOk cfg s' record phase := by
  cases phase with
  | storeLogEnd => exact fun offset ho => hgrow.has .leader offset (h offset ho)
  | shortcut => exact ⟨h.1, fun offset ho => hgrow.has .leader offset (h.2 offset ho)⟩
  | load | store => exact fun offset ho => (h offset ho).mono hgrow
  | append | acks | recalculate | done => trivial

structure NetworkInv (cfg : ClusterConfig) (s : Cluster) : Prop where
  full : ∀ b, Full (s.followers b).recordLog cfg.topicPartition
  ids : ∀ b, (s.followers b).brokerId = b ∧ (s.followers b).topicPartition = cfg.topicPartition
  sent : ∀ b request, (b, request) ∈ s.sent →
    b ∈ cfg.manager.followers ∧ ∃ r, request.records = [r]
  answers : ∀ b records state, (b, records, state) ∈ s.answers → StateOk cfg s b state
  states : ∀ b state, s.manager.followerStates.lookup b = some state → StateOk cfg s b state
  logEnd : ∀ offset < s.manager.logEndOffset, HasOffset s.leaderLog cfg.topicPartition offset
  highWatermark : ∀ offset < s.manager.highWatermark, Replicated cfg s offset
  calls : ∀ id c, s.manager.calls id = some c →
    c.record.topicPartition = cfg.topicPartition ∧ PhaseOk cfg s c.record c.phase

/-- **The selected watermark is replicated** on `min_in_sync_replicas` replicas. -/
theorem NetworkInv.newHighWatermark (h : NetworkInv cfg s) {fresh : BrokerId → Bool} {new : Nat}
    (hnew : newHighWatermark cfg.manager s.manager.logEndOffset fresh s.manager.followerStates =
      some new) (hlt : offset < new) : Replicated cfg s offset := by
  -- the replicas next to the offsets the code collects
  let inSync := (followerValues s.manager.followerStates).filter
    (isFollowerInSync cfg.manager s.manager.logEndOffset fresh)
  let entries : List (Replica × Nat) := (.leader, s.manager.logEndOffset) ::
    inSync.map fun st => (.follower st.brokerId, st.lastKnownOffset)
  have hoffsets : entries.map Prod.snd =
      inSyncOffsets cfg.manager s.manager.logEndOffset fresh s.manager.followerStates := by
    simp only [entries, map_cons, map_map]
    rfl
  have hstate : ∀ st ∈ inSync, StateOk cfg s st.brokerId st := by
    intro st hst
    obtain ⟨b, hb⟩ := mem_followerValues.mp (mem_filter.mp hst).1
    have hok := h.states b st hb
    rw [hok.2.1]
    exact hok
  have hnodup : (entries.map Prod.fst).Nodup := by
    simp only [entries, map_cons, map_map, nodup_cons]
    refine ⟨?_, ?_⟩
    · intro hmem
      obtain ⟨st, -, heq⟩ := mem_map.mp hmem
      cases heq
    · have hkeys : (followerValues s.manager.followerStates).map FollowerState.brokerId =
          s.manager.followerStates.entries.map Sigma.fst := by
        unfold followerValues
        rw [map_map]
        refine map_congr_left fun e he => ?_
        exact (h.states e.1 e.2 (AList.mem_lookup_iff.mpr he)).2.1
      have hids : (inSync.map FollowerState.brokerId).Nodup :=
        Nodup.sublist (Sublist.map _ filter_sublist) (hkeys ▸ s.manager.followerStates.nodupKeys)
      have hcomp : inSync.map (Prod.fst ∘ fun st : FollowerState =>
          (Replica.follower st.brokerId, st.lastKnownOffset)) =
          (inSync.map FollowerState.brokerId).map Replica.follower := by
        rw [map_map]
        rfl
      rw [hcomp]
      exact hids.map fun a b hab => by cases hab; rfl
  have hcount : cfg.manager.minInSyncReplicas ≤ (entries.map Prod.snd).countP (new ≤ ·) := by
    rw [hoffsets]
    rw [Replication.newHighWatermark] at hnew
    obtain ⟨hmin, heq⟩ := Option.ite_none_right_eq_some.mp hnew
    rcases Nat.eq_zero_or_pos cfg.manager.minInSyncReplicas with hzero | hpos
    · exact hzero ▸ Nat.zero_le _
    · cases heq
      exact le_countP_findKthSmallest hpos hmin
  rw [countP_map] at hcount
  refine ⟨(entries.filter fun e => new ≤ e.2).map Prod.fst, hnodup.sublist (filter_sublist.map _),
    ?_, ?_⟩
  · rw [length_map, ← countP_eq_length_filter]
    exact hcount
  · intro r hr
    obtain ⟨e, he, rfl⟩ := mem_map.mp hr
    obtain ⟨hmem, hge⟩ := mem_filter.mp he
    have hge' : new ≤ e.2 := by simpa using hge
    rcases mem_cons.mp hmem with rfl | hmem
    · exact ⟨fun b hb => (nomatch hb), h.logEnd offset (lt_of_lt_of_le hlt hge')⟩
    · obtain ⟨st, hst, rfl⟩ := mem_map.mp hmem
      obtain ⟨hmember, -, hnext⟩ := hstate st hst
      refine ⟨?_, ?_⟩
      · intro b hb
        cases hb
        exact hmember
      · exact h.full st.brokerId offset (lt_of_lt_of_le hlt (hge'.trans hnext))

/-! ## One step -/

theorem Cluster.managerCall_cases {β : Type} {f : ReplicateCall × Manager → β} {b : β}
    {event : CallEvent} (h : (s.managerCall cfg id event).map f = some b) :
    ∃ c m phase, s.manager.calls id = some c ∧ CallMove cfg.manager s.manager c event m phase ∧
      b = f (c, m.setCall id { c with phase := phase }) := by
  unfold managerCall at h
  cases hcall : s.manager.calls id with
  | none => rw [hcall] at h; cases h
  | some c' =>
    rw [hcall] at h
    obtain ⟨_, hcalled, rfl⟩ := Option.map_eq_some_iff.mp h
    obtain ⟨m₁, hstep, rfl⟩ := Option.map_eq_some_iff.mp hcalled
    cases Manager.step_cases hstep with
    | call hcall' hmove =>
      rw [hcall'] at hcall
      cases hcall
      exact ⟨_, _, _, rfl, hmove, rfl⟩

namespace NetworkInv

variable {cfg : ClusterConfig} {s : Cluster}

theorem new (cfg : ClusterConfig) (epochs : BrokerId → Nat) :
    NetworkInv cfg (Cluster.new cfg epochs) where
  full _ offset hlt := absurd hlt (Nat.not_lt_zero offset)
  ids _ := ⟨rfl, rfl⟩
  sent _ _ h := nomatch h
  answers _ _ _ h := nomatch h
  states _ _ h := nomatch h
  logEnd offset hlt := absurd hlt (Nat.not_lt_zero offset)
  highWatermark offset hlt := absurd hlt (Nat.not_lt_zero offset)
  calls _ _ h := nomatch h

variable {c : ReplicateCall} {phase : Phase} {m : Manager}
  {sent : List (BrokerId × ReplicateDataRequest)}

theorem move (h : NetworkInv cfg s) {log : PartitionStore} (hcall : s.manager.calls id = some c)
    (hcalls : m.calls = s.manager.calls)
    (hlog : ∀ offset, HasOffset s.leaderLog cfg.topicPartition offset →
      HasOffset log cfg.topicPartition offset) (hsent : ∀ b request, (b, request) ∈ sent →
      b ∈ cfg.manager.followers ∧ ∃ r, request.records = [r])
    (hstates : ∀ b state, m.followerStates.lookup b = some state → StateOk cfg s b state)
    (hlogEnd : ∀ offset < m.logEndOffset, HasOffset log cfg.topicPartition offset)
    (hhw : ∀ offset < m.highWatermark, Replicated cfg s offset)
    (hphase : ∀ s' : Cluster, s'.leaderLog = log → Grows cfg.topicPartition s s' →
      PhaseOk cfg s' c.record phase) :
    NetworkInv cfg { s with
      manager := m.setCall id { c with phase := phase }, leaderLog := log, sent := sent } := by
  have hgrow : Grows cfg.topicPartition s { s with
      manager := m.setCall id { c with phase := phase }, leaderLog := log, sent := sent } := by
    refine ⟨fun r offset hr => ?_, fun _ => le_rfl⟩
    cases r with
    | leader => exact hlog offset hr
    | follower b => exact hr
  refine ⟨h.full, h.ids, hsent, fun b records state hmem => (h.answers b records state hmem).mono
    hgrow, fun b state hlook => (hstates b state hlook).mono hgrow, hlogEnd,
    fun offset hlt => (hhw offset hlt).mono hgrow, ?_⟩
  intro id' c' hc'
  rcases Manager.of_calls_setCall hcalls hc' with ⟨-, rfl⟩ | ⟨-, hc'⟩
  · exact ⟨(h.calls id c hcall).1, hphase _ rfl hgrow⟩
  · obtain ⟨htp, hok⟩ := h.calls id' c' hc'
    exact ⟨htp, hok.mono hgrow⟩

theorem quiet (h : NetworkInv cfg s) (hcall : s.manager.calls id = some c)
    (hcalls : m.calls = s.manager.calls)
    (hstates : ∀ b state, m.followerStates.lookup b = some state → StateOk cfg s b state)
    (hlogEnd : m.logEndOffset = s.manager.logEndOffset)
    (hhw : ∀ offset < m.highWatermark, Replicated cfg s offset)
    (hphase : PhaseOk cfg s c.record phase) :
    NetworkInv cfg { s with manager := m.setCall id { c with phase := phase } } :=
  h.move hcall hcalls (fun _ ho => ho) h.sent hstates (hlogEnd ▸ h.logEnd) hhw
    fun _ _ hgrow => hphase.mono hgrow

theorem phaseOk_afterAnswer (s : Cluster) (record : WalRecord) (pending : List BrokerId)
    (successful : Nat) (acked : Bool) :
    PhaseOk cfg s record (afterAnswer cfg.manager pending successful acked) := by
  unfold afterAnswer
  split
  · trivial
  · split
    · trivial
    · split
      · trivial
      · trivial

theorem mem_requestsFor (h : (b, request) ∈ requestsFor cfg record) :
    b ∈ cfg.manager.followers ∧ ∃ r, request.records = [r] := by
  unfold requestsFor at h
  split at h
  · cases h
  · obtain ⟨b', hb', heq⟩ := mem_map.mp h
    cases heq
    exact ⟨hb', record, rfl⟩

variable (h : NetworkInv cfg s)
include h

theorem advance (hcfg : cfg.manager.followers = [] → cfg.manager.minInSyncReplicas ≤ 1)
    {m' : Manager} (hcall : s.manager.calls id = some c)
    (hmove : CallMove cfg.manager s.manager c .advance m' phase) (hsent : sent = match c.phase with
      | .storeLogEnd => s.sent ++ requestsFor cfg c.record
      | _ => s.sent) :
    NetworkInv cfg { s with manager := m'.setCall id { c with phase := phase }, sent := sent } := by
  obtain ⟨-, hok⟩ := h.calls id c hcall
  cases hmove with
  | storeLogEnd hphase =>
    rw [hphase] at hok hsent
    subst hsent
    refine h.move hcall rfl (fun _ ho => ho) ?_ h.states ?_ h.highWatermark ?_
    · intro b request hmem
      rcases mem_append.mp hmem with hmem | hmem
      · exact h.sent b request hmem
      · exact mem_requestsFor hmem
    · exact fun offset hlt => hok offset (Nat.lt_succ_iff.mp hlt)
    · intro s' hlog _
      split
      · exact ⟨‹_›, fun offset ho => hlog ▸ hok offset ho⟩
      · trivial
  | shortcut hphase =>
    rw [hphase] at hok hsent
    subst hsent
    refine h.quiet hcall rfl h.states rfl ?_ trivial
    intro offset hlt
    refine ⟨[.leader], nodup_singleton _, hcfg hok.1, ?_⟩
    intro r hr
    rw [mem_singleton.mp hr]
    exact ⟨fun b hb => (nomatch hb), hok.2 offset (le_of_lt hlt)⟩
  | loaded hphase hlt =>
    rw [hphase] at hok hsent
    subst hsent
    exact h.quiet hcall rfl h.states rfl h.highWatermark hok
  | notHigher hphase hle =>
    rw [hphase] at hsent
    subst hsent
    exact h.quiet hcall rfl h.states rfl h.highWatermark trivial
  | stored hphase =>
    rw [hphase] at hok hsent
    subst hsent
    exact h.quiet hcall rfl h.states rfl hok trivial

theorem deliver {broker : BrokerId} (hmem : (broker, request) ∈ s.sent)
    (hgap : Gapless cfg s (.deliver broker request outcome)) :
    NetworkInv cfg { s with
      followers := Function.update s.followers broker
        ((s.followers broker).handleReplicateData cfg.store request outcome).2
      answers := match
          ((s.followers broker).handleReplicateData cfg.store request outcome).1.followerState with
        | some state => s.answers ++ [(broker, request.records, state)]
        | none => s.answers } := by
  obtain ⟨hmember, hone⟩ := h.sent broker request hmem
  obtain ⟨hfull, hhas, hnext, htp, hid, hstate⟩ := deliver_spec cfg.store hgap.1 hone
    (h.full broker) (h.ids broker).2 hgap.2
  generalize hanswer : (s.followers broker).handleReplicateData cfg.store request outcome = answer
    at hfull hhas hnext htp hid hstate ⊢
  have hgrow : ∀ answers, Grows cfg.topicPartition s { s with
      followers := update s.followers broker answer.2, answers := answers } := by
    intro answers
    refine ⟨?_, (forall_update_iff s.followers fun b f =>
      (s.followers b).recordLog.index.nextOffset cfg.topicPartition ≤
        f.recordLog.index.nextOffset cfg.topicPartition).mpr ⟨hnext, fun _ _ => le_rfl⟩⟩
    rintro (_ | b) offset hr
    · exact hr
    · exact (forall_update_iff s.followers fun b f => HasOffset (s.followers b).recordLog _ offset →
        HasOffset f.recordLog _ offset).mpr ⟨hhas offset, fun _ _ ho => ho⟩ b hr
  refine ⟨(forall_update_iff s.followers fun _ f => Full f.recordLog _).mpr
      ⟨hfull, fun b _ => h.full b⟩,
    (forall_update_iff s.followers fun b f => f.brokerId = b ∧ f.topicPartition = _).mpr
      ⟨hid.symm ▸ htp.symm ▸ h.ids broker, fun b _ => h.ids b⟩, h.sent, ?_,
    fun b state hb => (h.states b state hb).mono (hgrow _), h.logEnd,
    fun offset hlt => (h.highWatermark offset hlt).mono (hgrow _),
    fun id c hc => ⟨(h.calls id c hc).1, (h.calls id c hc).2.mono (hgrow _)⟩⟩
  · intro b records state hb
    have hcases : (b, records, state) ∈ s.answers ∨
        (b = broker ∧ answer.1.followerState = some state) := by
      revert hb
      show (b, records, state) ∈ (match answer.1.followerState with
        | some state => s.answers ++ [(broker, request.records, state)]
        | none => s.answers) → _
      cases hst : answer.1.followerState with
      | none => exact .inl
      | some st =>
        intro hb
        rcases mem_append.mp hb with hb | hb
        · exact .inl hb
        · cases mem_singleton.mp hb
          exact .inr ⟨rfl, rfl⟩
    rcases hcases with hb | ⟨rfl, hst⟩
    · exact (h.answers b records state hb).mono (hgrow _)
    · obtain ⟨hsid, hsnext⟩ := hstate state hst
      refine ⟨hmember, hsid.trans (h.ids b).1, ?_⟩
      dsimp only
      rw [update_self]
      exact hsnext.le

theorem append {outcome : AppendOutcome} (hcall : s.manager.calls id = some c) (hm : m = s.manager)
    (hlog : ∀ offset, HasOffset s.leaderLog cfg.topicPartition offset →
      HasOffset (s.leaderLog.append cfg.store c.record outcome) cfg.topicPartition offset)
    (hphase : ∀ s' : Cluster, s'.leaderLog = s.leaderLog.append cfg.store c.record outcome →
      PhaseOk cfg s' c.record phase) :
    NetworkInv cfg { s with
      manager := m.setCall id { c with phase := phase }
      leaderLog := s.leaderLog.append cfg.store c.record outcome } := by
  subst hm
  exact h.move hcall rfl hlog h.sent h.states (fun offset hlt => hlog offset (h.logEnd offset hlt))
    h.highWatermark fun s' hs' _ => hphase s' hs'

theorem replicateRecord (htp : record.topicPartition = cfg.topicPartition) :
    NetworkInv cfg { s with manager := { s.manager.setCall id ⟨record, .append⟩ with
      issued := max s.manager.issued (record.offset + 1) } } := by
  refine { h with calls := ?_ }
  intro id' c' hc'
  rcases of_update_eq_some hc' with ⟨-, rfl⟩ | ⟨-, hlook⟩
  · exact ⟨htp, trivial⟩
  · exact h.calls id' c' hlook

theorem step (hcfg : cfg.manager.followers = [] → cfg.manager.minInSyncReplicas ≤ 1)
    {label : ClusterLabel} (hgap : Gapless cfg s label) (hstep : s.step cfg label = some s') :
    NetworkInv cfg s' := by
  cases label with
  | replicateRecord id record =>
    obtain ⟨m, hm, rfl⟩ := Option.map_eq_some_iff.mp hstep
    cases Manager.step_cases hm with
    | replicateRecord hfree => exact h.replicateRecord hgap
  | appended id =>
    obtain ⟨c, m, phase, hcall, hmove, rfl⟩ := Cluster.managerCall_cases hstep
    cases hmove with
    | appended hphase =>
      refine h.append hcall rfl (fun _ ho => ho.append_ok) fun s' hs' offset ho => ?_
      rw [hs']
      rcases Nat.lt_or_eq_of_le ho with hlt | rfl
      · exact (hgap c hcall offset hlt).append_ok
      · exact .of_append (h.calls id c hcall).1
  | appendFailed id left =>
    obtain ⟨c, m, phase, hcall, hmove, rfl⟩ := Cluster.managerCall_cases hstep
    cases hmove with
    | appendFailed hphase =>
      exact h.append hcall rfl (fun _ ho => ho.append_fail left (hgap c hcall)) fun _ _ => trivial
  | advance id =>
    obtain ⟨c, m, phase, hcall, hmove, rfl⟩ := Cluster.managerCall_cases hstep
    exact h.advance hcfg hcall hmove rfl
  | answer id broker result =>
    cases result with
    | none =>
      obtain ⟨c, m, phase, hcall, hmove, rfl⟩ := Cluster.managerCall_cases hstep
      cases hmove with
      | refused hphase hbroker =>
        exact h.quiet hcall rfl h.states rfl h.highWatermark (phaseOk_afterAnswer _ _ _ _ _)
    | some state =>
      obtain ⟨call, hm, hif⟩ := Option.bind_eq_some_iff.mp hstep
      obtain ⟨c, m, phase, hcall, hmove, rfl⟩ := Cluster.managerCall_cases
        (f := fun call => call) (by rw [hm]; rfl)
      split at hif
      · rename_i hanswer
        cases hif
        cases hmove with
        | acked hphase hbroker =>
          have hstate := h.answers broker _ state hanswer
          refine h.quiet hcall rfl ?_ rfl h.highWatermark (phaseOk_afterAnswer _ _ _ _ _)
          intro b st hlook
          have hinsert : (s.manager.followerStates.insert state.brokerId state).lookup b =
            some st := hlook
          by_cases hb : b = state.brokerId
          · subst hb
            rw [AList.lookup_insert] at hinsert
            cases hinsert
            exact hstate.2.1 ▸ hstate
          · rw [AList.lookup_insert_ne hb] at hinsert
            exact h.states b st hinsert
      · cases hif
  | compute id fresh =>
    obtain ⟨c, m, phase, hcall, hmove, rfl⟩ := Cluster.managerCall_cases hstep
    cases hmove with
    | computed hphase hnew =>
      exact h.quiet hcall rfl h.states rfl h.highWatermark fun _ hlt => h.newHighWatermark hnew hlt
    | tooFew hphase => exact h.quiet hcall rfl h.states rfl h.highWatermark trivial
  | deliver broker request outcome =>
    have hif : (if (broker, request) ∈ s.sent then _ else none) = some s' := hstep
    split at hif
    · rename_i hmem
      cases hif
      exact h.deliver hmem hgap
    · cases hif

end NetworkInv

/-! ## The result -/

/-- **Below the watermark, every offset is on enough replicas.** For any schedule of calls,
losses, duplicates and reorderings, as long as the logs grow without gaps. -/
theorem watermark_replicated (cfg : ClusterConfig) (epochs : BrokerId → Nat)
    (hcfg : cfg.manager.followers = [] → cfg.manager.minInSyncReplicas ≤ 1)
    {labels : List ClusterLabel} {s : Cluster}
    (hgap : Along (Cluster.step cfg) (Gapless cfg) (.new cfg epochs) labels)
    (hexec : exec (Cluster.step cfg) (.new cfg epochs) labels = some s) :
    ∀ offset < s.manager.highWatermark, Replicated cfg s offset :=
  (exec_invariant (I := NetworkInv cfg) (fun _ _ _ h hP hs => h.step hcfg hP hs)
    (.new cfg epochs) hgap hexec).highWatermark

def pairCluster : ClusterConfig where
  manager := pairConfig
  store := plainConfig
  topicPartition := ⟨"orders", 0⟩
  leaderEpoch := 1

def pairRequest (offset : Nat) : ReplicateDataRequest :=
  ⟨1, ⟨"orders", 0⟩, [plainRecord offset], "broker-1"⟩

def firstRecord : List ClusterLabel :=
  [.replicateRecord 0 (plainRecord 0), .appended 0, .advance 0,
    .deliver "broker-2" (pairRequest 0) fun _ => .ok,
    .answer 0 "broker-2" (some ⟨"broker-2", 1, 0⟩), .compute 0 fun _ => true, .advance 0,
    .advance 0]

theorem firstRecord_gapless :
    Along (Cluster.step pairCluster) (Gapless pairCluster) (.new pairCluster fun _ => 0)
      firstRecord := by
  refine along_cons rfl rfl <| along_cons ?_ rfl <| along_cons trivial rfl <|
    along_cons ⟨fun _ => rfl, by decide⟩ rfl <| along_cons trivial rfl <| along_cons trivial rfl <|
    along_cons trivial rfl <| along_cons trivial rfl trivial
  rintro c ⟨⟩ offset hlt
  exact absurd hlt (Nat.not_lt_zero offset)

theorem watermark_replicated_firstRecord :
    ∃ s, exec (Cluster.step pairCluster) (.new pairCluster fun _ => 0) firstRecord = some s ∧
      s.manager.highWatermark = 1 ∧
      ∀ offset < s.manager.highWatermark, Replicated pairCluster s offset :=
  ⟨_, rfl, rfl, watermark_replicated pairCluster (fun _ => 0) (fun h => absurd h (by decide))
    firstRecord_gapless rfl⟩

def lostFirst : List ClusterLabel :=
  [.replicateRecord 0 (plainRecord 0), .appended 0, .advance 0, .answer 0 "broker-2" none,
    .replicateRecord 1 (plainRecord 1), .appended 1, .advance 1,
    .deliver "broker-2" (pairRequest 1) fun _ => .ok,
    .answer 1 "broker-2" (some ⟨"broker-2", 2, 0⟩), .compute 1 fun _ => true, .advance 1,
    .advance 1]

theorem watermark_passes_gap :
    ∃ s, exec (Cluster.step pairCluster) (.new pairCluster fun _ => 0) lostFirst = some s ∧
      s.manager.highWatermark = 2 ∧ ¬ Replicated pairCluster s 0 := by
  refine ⟨_, rfl, rfl, ?_⟩
  rintro ⟨replicas, hnodup, hlen, hall⟩
  have honly : replicas ⊆ [.leader] := by
    intro r hr
    obtain ⟨hmember, hhas⟩ := hall r hr
    cases r with
    | leader => exact mem_singleton.mpr rfl
    | follower b =>
      obtain rfl : b = "broker-2" := mem_singleton.mp (hmember b rfl)
      exact absurd (show false = true from hhas) Bool.false_ne_true
  have := (hnodup.subperm honly).length_le
  exact absurd (hlen.trans this) (by decide)

end RustMq.Replication
