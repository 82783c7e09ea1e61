import RustMq.Replication.Manager

/-!
# Heartbeats of the leader

`start_heartbeat_monitor` (`src/replication/manager.rs`) spawns a task that sends a heartbeat to
every follower each second. The task does not share the epoch and the high watermark of the manager:
it takes copies of both when it is started and sends these for ever. So its heartbeats are current
as long as neither moves, and a follower that has adopted a later epoch of the same leader rejects
them (`heartbeat_of_old_epoch`).

Beside the manager and the tasks the state keeps what was sent, each heartbeat with the epoch and the
watermark the manager had at that tick.
-/

namespace RustMq.Replication

open Lib

/-- What the task has copied. -/
structure HeartbeatMonitor where
  leaderEpoch : Nat
  highWatermark : Nat

/-- No heartbeat is sent without a leader. -/
def HeartbeatMonitor.request (cfg : ManagerConfig) (tp : TopicPartition)
    (monitor : HeartbeatMonitor) : Option HeartbeatRequest :=
  cfg.currentLeader.map fun leader => ⟨monitor.leaderEpoch, leader, tp, monitor.highWatermark⟩

/-- A heartbeat, and what the manager had when it was sent. -/
structure SentHeartbeat where
  broker : BrokerId
  request : HeartbeatRequest
  leaderEpoch : Nat
  highWatermark : Nat

structure Leader where
  manager : Manager
  leaderEpoch : Nat
  monitors : List HeartbeatMonitor
  sent : List SentHeartbeat

inductive LeaderLabel where
  | manager (label : ManagerLabel)
  | updateLeaderEpoch (newEpoch : Nat)
  | startHeartbeatMonitor
  /-- The heartbeats of one task, and the states that followers answer with. -/
  | tick (monitor : Nat) (answers : BrokerId → Option FollowerState)

namespace Leader

def start (m : Manager) (leaderEpoch : Nat) : Leader := ⟨m, leaderEpoch, [], []⟩

/-- One round of a task: the same request to every follower. -/
def sendHeartbeats (cfg : ManagerConfig) (s : Leader) (request : HeartbeatRequest)
    (answers : BrokerId → Option FollowerState) : Leader :=
  let states := cfg.followers.foldl (fun states broker =>
    match answers broker with
    | some state => states.insert broker state
    | none => states) s.manager.followerStates
  { s with
    manager := { s.manager with followerStates := states }
    sent := s.sent ++
      cfg.followers.map (⟨·, request, s.leaderEpoch, s.manager.highWatermark⟩) }

def step (cfg : ManagerConfig) (tp : TopicPartition) (s : Leader) : LeaderLabel → Option Leader
  | .manager label => (s.manager.step cfg label).map fun m => { s with manager := m }
  | .updateLeaderEpoch newEpoch => some { s with leaderEpoch := newEpoch }
  | .startHeartbeatMonitor =>
    some { s with monitors := s.monitors ++ [⟨s.leaderEpoch, s.manager.highWatermark⟩] }
  | .tick monitor answers =>
    s.monitors[monitor]?.map fun monitor =>
      match monitor.request cfg tp with
      | some request => s.sendHeartbeats cfg request answers
      | none => s

/-- The watermark that the next step of a call stores. -/
def stores (c : ReplicateCall) : Option Nat :=
  match c.phase with
  | .shortcut => some c.record.offset
  | .store new => some new
  | _ => none

/-- While a task runs, no new epoch is set and no call is about to store another watermark. -/
def Steady (s : Leader) (label : LeaderLabel) : Prop :=
  s.monitors ≠ [] →
    match label with
    | .updateLeaderEpoch newEpoch => newEpoch = s.leaderEpoch
    | .manager (.call id _) =>
      ∀ c, s.manager.calls id = some c → ∀ new ∈ stores c, new = s.manager.highWatermark
    | _ => True

variable {cfg : ManagerConfig} {tp : TopicPartition} {s s' : Leader} {label : LeaderLabel}

/-- A call moves the watermark only where it stores one. -/
theorem highWatermark_of_callMove {m m' : Manager} {c : ReplicateCall} {event : CallEvent}
    {phase : Phase} (h : CallMove cfg m c event m' phase) :
    m'.highWatermark = m.highWatermark ∨ m'.highWatermark ∈ stores c := by
  cases h <;> first | exact .inl rfl | (refine .inr ?_; simp only [stores, *]; rfl)

theorem highWatermark_of_step {m m' : Manager} {label : ManagerLabel}
    (h : m.step cfg label = some m') : m'.highWatermark = m.highWatermark ∨
      ∃ id event c, label = .call id event ∧ m.calls id = some c ∧
        m'.highWatermark ∈ stores c := by
  cases label with
  | replicateRecord id record =>
    simp only [Manager.step] at h
    split at h
    · cases h
    · cases h
      exact .inl rfl
  | call id event =>
    simp only [Manager.step] at h
    split at h
    · cases h
    · rename_i c hc
      obtain ⟨⟨m₁, phase⟩, hmove, rfl⟩ := Option.map_eq_some_iff.mp h
      rcases highWatermark_of_callMove (Manager.callStep_cases hmove) with hsame | hstored
      · exact .inl hsame
      · exact .inr ⟨id, event, c, rfl, hc, hstored⟩
  | updateFollowerState | addFollower | removeFollower =>
    cases h
    exact .inl rfl

/-- The copies of every task are what the manager has, and so were those of every heartbeat. -/
structure Current (s : Leader) : Prop where
  monitors : ∀ monitor ∈ s.monitors,
    monitor.leaderEpoch = s.leaderEpoch ∧ monitor.highWatermark = s.manager.highWatermark
  sent : ∀ beat ∈ s.sent, beat.request.leaderEpoch = beat.leaderEpoch ∧
    beat.request.highWatermark = beat.highWatermark

theorem Current.sendHeartbeats (h : s.Current) {monitor : HeartbeatMonitor}
    (hmonitor : monitor ∈ s.monitors) {request : HeartbeatRequest}
    (hrequest : monitor.request cfg tp = some request) (answers : BrokerId → Option FollowerState) :
    (s.sendHeartbeats cfg request answers).Current := by
  refine ⟨h.monitors, List.forall_mem_append.mpr ⟨h.sent, fun beat hbeat => ?_⟩⟩
  obtain ⟨broker, -, rfl⟩ := List.mem_map.mp hbeat
  obtain ⟨leader, -, rfl⟩ := Option.map_eq_some_iff.mp hrequest
  exact h.monitors monitor hmonitor

theorem Current.step (h : s.Current) (hsteady : Steady s label)
    (hstep : s.step cfg tp label = some s') : s'.Current := by
  cases label with
  | manager label =>
    obtain ⟨m, hm, rfl⟩ := Option.map_eq_some_iff.mp hstep
    refine { h with monitors := fun monitor hmem => ?_ }
    have hmark : m.highWatermark = s.manager.highWatermark := by
      rcases highWatermark_of_step hm with hsame | ⟨id, event, c, rfl, hc, hstored⟩
      · exact hsame
      · exact hsteady (List.ne_nil_of_mem hmem) c hc _ hstored
    exact ⟨(h.monitors monitor hmem).1, (h.monitors monitor hmem).2.trans hmark.symm⟩
  | updateLeaderEpoch newEpoch =>
    cases hstep
    refine { h with monitors := fun monitor hmem => ?_ }
    have hepoch : newEpoch = s.leaderEpoch := hsteady (List.ne_nil_of_mem hmem)
    exact ⟨(h.monitors monitor hmem).1.trans hepoch.symm, (h.monitors monitor hmem).2⟩
  | startHeartbeatMonitor =>
    cases hstep
    exact { h with monitors := List.forall_mem_append.mpr ⟨h.monitors, by simp⟩ }
  | tick monitor answers =>
    obtain ⟨monitor, hmonitor, rfl⟩ := Option.map_eq_some_iff.mp hstep
    split
    · exact h.sendHeartbeats (List.mem_of_getElem? hmonitor) ‹_› answers
    · exact h

/-- **Heartbeats are current** in every run in which, while a task runs, neither the epoch nor the
watermark moves: each carries what the manager had at its tick, and a follower that knew no later
epoch than the leader does not find it stale. -/
theorem heartbeats_current (cfg : ManagerConfig) (tp : TopicPartition) (m : Manager)
    (epoch : Nat) (labels : List LeaderLabel) (t : Leader)
    (hsteady : Along (step cfg tp) Steady (start m epoch) labels)
    (hexec : exec (step cfg tp) (start m epoch) labels = some t) :
    ∀ beat ∈ t.sent, beat.request.leaderEpoch = beat.leaderEpoch ∧
      beat.request.highWatermark = beat.highWatermark ∧
      ∀ follower : FollowerReplicationHandler, follower.leaderEpoch ≤ beat.leaderEpoch →
        ∀ old new,
          (follower.handleHeartbeat beat.request).1 ≠ .error (.staleLeaderEpoch old new) := by
  have hstart : (start m epoch).Current :=
    ⟨fun _ h => absurd h List.not_mem_nil, fun _ h => absurd h List.not_mem_nil⟩
  have hcurrent : t.Current :=
    exec_invariant (fun _ _ _ h hP hstep => h.step hP hstep) hstart hsteady hexec
  intro beat hbeat
  obtain ⟨hepoch, hmark⟩ := hcurrent.sent beat hbeat
  refine ⟨hepoch, hmark, fun follower hle old new => ?_⟩
  rw [FollowerReplicationHandler.handleHeartbeat, if_neg (by omega)]
  dsimp only
  split
  · intro h
    cases h
  · intro h
    cases h

def pair : ManagerConfig := ⟨some "broker-1", ["broker-1", "broker-2"], 2, 10⟩

/-- The task is started in epoch 2 and sends. -/
theorem heartbeats_current_started : ∃ t,
    exec (step pair ⟨"orders", 0⟩) (start .new 1)
      [.updateLeaderEpoch 2, .startHeartbeatMonitor, .tick 0 fun _ => none] = some t ∧
    t.sent.map SentHeartbeat.broker = ["broker-2"] ∧
    ∀ beat ∈ t.sent, beat.request.leaderEpoch = beat.leaderEpoch :=
  ⟨_, rfl, rfl, fun beat hbeat => (heartbeats_current pair ⟨"orders", 0⟩ .new 1
    [.updateLeaderEpoch 2, .startHeartbeatMonitor, .tick 0 fun _ => none] _
    ⟨fun h => absurd rfl h, fun _ h => by
      cases h
      exact ⟨fun h => absurd rfl h, fun _ h => by
        cases h
        exact ⟨fun _ => trivial, fun _ _ => trivial⟩⟩⟩ rfl beat hbeat).1⟩

/-- The leader goes on to epoch 2 and its follower with it, and rejects the next heartbeat. -/
theorem heartbeat_of_old_epoch : ∃ s beat,
    exec (step pair ⟨"orders", 0⟩) (start .new 1)
      [.startHeartbeatMonitor, .updateLeaderEpoch 2, .tick 0 fun _ => none] = some s ∧
    beat ∈ s.sent ∧ beat.leaderEpoch = 2 ∧ beat.request.leaderEpoch = 1 ∧
    ((followerAt 2).handleHeartbeat beat.request).1 = .error (.staleLeaderEpoch 1 2) :=
  ⟨_, _, rfl, .head _, rfl, rfl, rfl⟩

end Leader
end RustMq.Replication
