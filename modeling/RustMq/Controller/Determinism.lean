import RustMq.Controller.Replay

/-!
# Two replicas of the state machine

Two controllers apply the same log, each in its own batches and each with its own clock. How a log
is cut into batches makes no difference to what is applied. The clock makes one: the creation time
of a topic is the local clock when the entry is applied. Nothing else depends on it, so the two
states differ at most in creation times, and all answers are the same.
-/

namespace RustMq.Controller

open Lib Option

/-! ## One entry on both replicas -/

variable {s r : RustMqSnapshotData}

theorem Agree.isSome (h : Agree s r) (t : String) :
    (r.topics.get? t).isSome = (s.topics.get? t).isSome := by
  have := congrArg Option.isSome (h.topics t)
  rwa [isSome_map, isSome_map] at this

theorem Agree.eq_none (h : Agree s r) (t : String) :
    r.topics.get? t = none ↔ s.topics.get? t = none := by
  rw [← map_eq_none_iff (f := TopicInfo.undated), h.topics, map_eq_none_iff]

theorem Agree.applyAppData (h : Agree s r) (now now' : String) (data : RustMqAppData) :
    Agree (applyAppData now s data).1 (applyAppData now' r data).1 where
  topics t := by
    rw [get?_topics_applyAppData, get?_topics_applyAppData]
    cases data with
    | createTopic name partitions replicationFactor config =>
      simp only [h.eq_none]
      split
      · rfl
      · exact h.topics t
    | deleteTopic name =>
      simp only
      split
      · rfl
      · exact h.topics t
    | _ => exact h.topics t
  brokers b := by
    rw [get?_brokers_applyAppData, get?_brokers_applyAppData]
    cases data with
    | addBroker | removeBroker => simp only [h.brokers]
    | _ => exact h.brokers b
  assignments tp := by
    rw [get?_assignments_applyAppData, get?_assignments_applyAppData]
    cases data with
    | deleteTopic name => simp only [h.isSome, h.assignments]
    | updatePartitionAssignment topicPartition assignment => simp only [h.assignments]
    | _ => exact h.assignments tp

theorem Agree.applyAppData_response (h : Agree s r) (now now' : String) (data : RustMqAppData) :
    (Controller.applyAppData now' r data).2 = (Controller.applyAppData now s data).2 := by
  cases data with
  | createTopic | deleteTopic =>
    simp only [Controller.applyAppData, h.isSome]
    split <;> rfl
  | removeBroker brokerId =>
    simp only [Controller.applyAppData, h.brokers]
    split <;> rfl
  | addBroker | updatePartitionAssignment => rfl

namespace RustMqStateMachine

structure SameButDates (m n : RustMqStateMachine) : Prop where
  state : Agree m.state n.state
  lastAppliedLog : n.state.lastAppliedLog = m.state.lastAppliedLog
  lastApplied : n.lastApplied = m.lastApplied

variable {m n : RustMqStateMachine}

theorem SameButDates.applyEntry (h : SameButDates m n) {e f : Stamped}
    (hentry : f.entry = e.entry) :
    SameButDates (m.applyEntry e).1 (n.applyEntry f).1 ∧
      (n.applyEntry f).2 = (m.applyEntry e).2 := by
  cases hpayload : e.entry.payload with
  | normal data =>
    have hagree := h.state.applyAppData e.now f.now data
    simp only [RustMqStateMachine.applyEntry, hentry, hpayload, applyPayload]
    exact ⟨⟨{ hagree with }, rfl, rfl⟩,
      h.state.applyAppData_response e.now f.now data⟩
  | blank | membership =>
    simp only [RustMqStateMachine.applyEntry, hentry, hpayload, applyPayload]
    exact ⟨⟨⟨h.state.topics, h.state.brokers, h.state.assignments⟩, rfl, rfl⟩, trivial⟩

theorem SameButDates.applyEntries (h : SameButDates m n) {es fs : List Stamped}
    (hsame : SameEntries es fs) :
    SameButDates (m.applyEntries es) (n.applyEntries fs) ∧ n.responses fs = m.responses es := by
  induction es generalizing m n fs with
  | nil =>
    rw [List.map_eq_nil_iff.mp hsame]
    exact ⟨h, rfl⟩
  | cons e es ih =>
    cases fs with
    | nil => cases hsame
    | cons f fs =>
      obtain ⟨hentry, hsame⟩ := List.cons.inj hsame
      obtain ⟨hnext, hresponse⟩ := h.applyEntry hentry
      obtain ⟨hrest, hresponses⟩ := ih hnext hsame
      refine ⟨hrest, ?_⟩
      rw [responses, responses, hresponse, hresponses]

/-! ## Batches -/

def applyBatches (snapshotThreshold : Nat) :
    RustMqStateMachine → List (List Stamped) → RustMqStateMachine × List RustMqAppDataResponse
  | m, [] => (m, [])
  | m, batch :: batches =>
    let applied := m.apply snapshotThreshold batch
    let rest := applied.1.applyBatches snapshotThreshold batches
    (rest.1, applied.2.1 ++ rest.2)

theorem responses_append (m : RustMqStateMachine) (es fs : List Stamped) :
    m.responses (es ++ fs) = m.responses es ++ (m.applyEntries es).responses fs := by
  induction es generalizing m with
  | nil => rfl
  | cons e es ih =>
    rw [List.cons_append, responses, responses, ih]
    rfl

theorem responses_congr (hstate : n.state = m.state) (es : List Stamped) :
    n.responses es = m.responses es := by
  induction es generalizing m n with
  | nil => rfl
  | cons e es ih =>
    have hnext : (n.applyEntry e).1.state = (m.applyEntry e).1.state := by
      simp only [applyEntry, hstate]
    rw [responses, responses, ih hnext]
    simp only [applyEntry, hstate]

/-- **How the log is cut into batches makes no difference.** -/
theorem applyBatches_flatten (snapshotThreshold : Nat) (m : RustMqStateMachine)
    (batches : List (List Stamped)) :
    (m.applyBatches snapshotThreshold batches).1.state = (m.applyEntries batches.flatten).state ∧
      (m.applyBatches snapshotThreshold batches).1.lastApplied =
        (m.applyEntries batches.flatten).lastApplied ∧
      (m.applyBatches snapshotThreshold batches).2 = m.responses batches.flatten := by
  induction batches generalizing m with
  | nil => exact ⟨rfl, rfl, rfl⟩
  | cons batch batches ih =>
    obtain ⟨hs, hl, hr⟩ := ih (m.apply snapshotThreshold batch).1
    have hstate := state_apply snapshotThreshold m batch
    have hlast : ((m.apply snapshotThreshold batch).1.applyEntries batches.flatten).lastApplied =
        ((m.applyEntries batch).applyEntries batches.flatten).lastApplied := by
      rw [lastApplied_applyEntries, lastApplied_applyEntries, lastApplied_apply]
    have hresponses : (m.apply snapshotThreshold batch).2.1 = m.responses batch := by
      rw [apply]
      split <;> rfl
    rw [List.flatten_cons, applyEntries_append, responses_append]
    refine ⟨hs.trans (Node.state_applyEntries_congr hstate _), hl.trans hlast, ?_⟩
    rw [applyBatches, hresponses, hr, responses_congr hstate]

/-! ## Creation times -/

def creationStep (topic : String) (created : Option String) (e : Stamped) : Option String :=
  match e.entry.payload with
  | .normal (.createTopic name _ _ _) =>
    if topic = name then created.or (some e.now) else created
  | .normal (.deleteTopic name) => if topic = name then none else created
  | _ => created

/-- The reading of the clock that a topic carries after the entries. -/
def creationTime (topic : String) (es : List Stamped) : Option String :=
  es.foldl (creationStep topic) none

theorem createdAt_applyEntry (m : RustMqStateMachine) (e : Stamped) (topic : String) :
    ((m.applyEntry e).1.state.topics.get? topic).map TopicInfo.createdAt =
      creationStep topic ((m.state.topics.get? topic).map TopicInfo.createdAt) e := by
  unfold creationStep
  cases hpayload : e.entry.payload with
  | blank | membership => simp only [applyEntry, hpayload, applyPayload]
  | normal data =>
    simp only [applyEntry, hpayload, applyPayload, get?_topics_applyAppData]
    cases data with
    | createTopic name partitions replicationFactor config =>
      simp only
      by_cases htopic : topic = name
      · subst htopic
        cases hget : m.state.topics.get? topic with
        | none | some => simp
      · simp [htopic]
    | deleteTopic name =>
      simp only
      split <;> rfl
    | addBroker | removeBroker | updatePartitionAssignment => rfl

theorem createdAt_applyEntries (es : List Stamped) (topic : String) :
    ((fresh.applyEntries es).state.topics.get? topic).map TopicInfo.createdAt =
      creationTime topic es := by
  induction es using List.reverseRecOn with
  | nil => rfl
  | append_singleton es e ih =>
    rw [applyEntries_append, creationTime, List.foldl_append]
    change ((RustMqStateMachine.applyEntry _ e).1.state.topics.get? topic).map _ = _
    rw [createdAt_applyEntry, ih]
    rfl

theorem topicInfo_eq {a b : Option TopicInfo}
    (hundated : b.map TopicInfo.undated = a.map TopicInfo.undated)
    (hdate : b.map TopicInfo.createdAt = a.map TopicInfo.createdAt) : b = a := by
  cases a with
  | none => exact map_eq_none_iff.mp hdate
  | some a =>
    cases b with
    | none => cases hdate
    | some b =>
      obtain ⟨name, partitions, replicationFactor, config, createdAt⟩ := a
      obtain ⟨name', partitions', replicationFactor', config', createdAt'⟩ := b
      simp only [map_some, TopicInfo.undated, some.injEq, TopicInfo.mk.injEq,
        and_true] at hundated hdate ⊢
      exact ⟨hundated.1, hundated.2.1, hundated.2.2.1, hundated.2.2.2, hdate⟩

/-- **Two replicas that apply the same log** agree but for the times at which topics were created.
-/
theorem replicas_identical_iff (snapshotThreshold snapshotThreshold' : Nat)
    (batches batches' : List (List Stamped))
    (hsame : SameEntries batches.flatten batches'.flatten) :
    let replica := fresh.applyBatches snapshotThreshold batches
    let replica' := fresh.applyBatches snapshotThreshold' batches'
    (replica'.1.state.brokers = replica.1.state.brokers ∧
      replica'.1.state.partitionAssignments = replica.1.state.partitionAssignments ∧
      replica'.1.state.lastAppliedLog = replica.1.state.lastAppliedLog ∧
      replica'.1.appliedState = replica.1.appliedState ∧ replica'.2 = replica.2) ∧
    (replica'.1.state.topics = replica.1.state.topics ↔
      ∀ topic, creationTime topic batches'.flatten = creationTime topic batches.flatten) := by
  intro replica replica'
  obtain ⟨hstate, hlast, hresponses⟩ := applyBatches_flatten snapshotThreshold fresh batches
  obtain ⟨hstate', hlast', hresponses'⟩ := applyBatches_flatten snapshotThreshold' fresh batches'
  have hstart : SameButDates fresh fresh := ⟨⟨fun _ => rfl, fun _ => rfl, fun _ => rfl⟩, rfl, rfl⟩
  obtain ⟨hboth, hanswers⟩ := hstart.applyEntries hsame
  refine ⟨⟨?_, ?_, ?_, ?_, ?_⟩, ?_⟩
  · rw [hstate, hstate']
    exact SMap.ext_get? hboth.state.brokers
  · rw [hstate, hstate']
    exact SMap.ext_get? hboth.state.assignments
  · rw [hstate, hstate']
    exact hboth.lastAppliedLog
  · rw [appliedState, appliedState, hlast, hlast', hboth.lastApplied]
  · rw [hresponses, hresponses', hanswers]
  · rw [hstate, hstate']
    constructor
    · intro htopics topic
      rw [← createdAt_applyEntries, ← createdAt_applyEntries, htopics]
    · intro hdates
      refine SMap.ext_get? fun topic => topicInfo_eq (hboth.state.topics topic) ?_
      rw [createdAt_applyEntries, createdAt_applyEntries, hdates]

def createOrders (now : String) : Stamped :=
  ⟨⟨⟨⟨1, 1⟩, 1⟩, .normal (.createTopic "orders" 3 2 ⟨none, none, none⟩)⟩, now⟩

theorem replicas_identical_createOrders :
    (fresh.applyBatches 100 [[createOrders "2026-01-01T00:00:00Z"], []]).1.state.topics =
      (fresh.applyBatches 100 [[createOrders "2026-01-01T00:00:00Z"]]).1.state.topics :=
  (replicas_identical_iff 100 100 [[createOrders "2026-01-01T00:00:00Z"]]
    [[createOrders "2026-01-01T00:00:00Z"], []] rfl).2.mpr fun _ => rfl

/-- The same entry, a second later on the other replica. -/
theorem replicas_differ :
    SameEntries [createOrders "2026-01-01T00:00:00Z"] [createOrders "2026-01-01T00:00:01Z"] ∧
      (fresh.applyBatches 100 [[createOrders "2026-01-01T00:00:01Z"]]).1.state.topics ≠
        (fresh.applyBatches 100 [[createOrders "2026-01-01T00:00:00Z"]]).1.state.topics :=
  ⟨rfl, by decide⟩

end RustMqStateMachine
end RustMq.Controller
