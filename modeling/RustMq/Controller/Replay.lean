import RustMq.Controller.Snapshot

/-!
# Restarting the state machine

A node applies batches of committed entries. When enough entries have gone by, `apply` spawns a task
that saves the cluster state: it reads the state at some later moment, and renames its file into
place at some moment after that. After a crash `RustMqStateMachine::new` loads the snapshot that is
there, but not the log id it was taken at: the whole log is applied again, on top of a state that
already contains an initial part of it.

So the question is whether applying an initial part of the log twice gives what applying it once
gives. For topics and brokers it always does. For assignments it does unless a `DeleteTopic`
changes its outcome: one that was refused the first time, because the topic was not there, may
find the topic in the loaded state and then takes the assignments of the topic with it.
-/

namespace RustMq.Controller

open Lib List RustMqStateMachine Option

/-! ## What the second pass has to reproduce -/

def TopicInfo.undated (info : TopicInfo) : TopicInfo := { info with createdAt := "" }

structure Agree (s r : RustMqSnapshotData) : Prop where
  topics : ∀ t, (r.topics.get? t).map TopicInfo.undated = (s.topics.get? t).map TopicInfo.undated
  brokers : ∀ b, r.brokers.get? b = s.brokers.get? b
  assignments : ∀ tp, r.partitionAssignments.get? tp = s.partitionAssignments.get? tp

/-- The second pass at `r`, the first pass at `s`, the loaded state `x`: under each key, `r` has
what `s` has or still what `x` has. -/
structure Replays (x s r : RustMqSnapshotData) : Prop where
  topics : ∀ t, (r.topics.get? t).map TopicInfo.undated =
      (s.topics.get? t).map TopicInfo.undated ∨
    ∃ info, (r.topics.get? t).map TopicInfo.undated = some info ∧
      (x.topics.get? t).map TopicInfo.undated = some info
  brokers : ∀ b, r.brokers.get? b = s.brokers.get? b ∨ r.brokers.get? b = x.brokers.get? b
  assignments : ∀ tp, r.partitionAssignments.get? tp = s.partitionAssignments.get? tp ∨
    r.partitionAssignments.get? tp = x.partitionAssignments.get? tp

/-- A topic is deleted when it is there, or when no assignment is left for it. -/
def DeleteGuarded (s : RustMqSnapshotData) : RustMqAppData → Prop
  | .deleteTopic name =>
    s.topics.get? name = none → ∀ e ∈ s.partitionAssignments.entries, e.1.topic ≠ name
  | _ => True

instance (s : RustMqSnapshotData) (data) : Decidable (DeleteGuarded s data) := by
  unfold DeleteGuarded
  split <;> infer_instance

def EntryDeleteGuarded (m : RustMqStateMachine) (e : Stamped) : Prop :=
  match e.entry.payload with
  | .normal data => DeleteGuarded m.state data
  | _ => True

instance (m : RustMqStateMachine) (e) : Decidable (EntryDeleteGuarded m e) := by
  unfold EntryDeleteGuarded
  split <;> infer_instance

/-! ## One command, twice -/

variable {x s r : RustMqSnapshotData}

theorem Replays.isSome (h : Replays x s r) {t : String} (hs : (s.topics.get? t).isSome) :
    (r.topics.get? t).isSome := by
  rcases h.topics t with heq | ⟨info, hr, -⟩
  · have := congrArg Option.isSome heq
    rw [isSome_map, isSome_map] at this
    rw [this]
    exact hs
  · have := congrArg Option.isSome hr
    rw [isSome_map] at this
    exact this

section

variable (h : Replays x s r) (now now' : String)
include h now now'

theorem Replays.applyAppData_topics (data : RustMqAppData) (t : String) :
    ((applyAppData now' r data).1.topics.get? t).map TopicInfo.undated =
        ((applyAppData now s data).1.topics.get? t).map TopicInfo.undated ∨
      ∃ info, ((applyAppData now' r data).1.topics.get? t).map TopicInfo.undated = some info ∧
        (x.topics.get? t).map TopicInfo.undated = some info := by
  rw [get?_topics_applyAppData, get?_topics_applyAppData]
  cases data with
  | createTopic name partitions replicationFactor config =>
    by_cases ht : t = name
    · subst ht
      simp only [true_and]
      rcases h.topics t with heq | ⟨info, hr, hx⟩
      · -- both passes see the name free, or both see it taken
        left
        cases hs : s.topics.get? t with
        | none =>
          have hr : r.topics.get? t = none := by
            rw [hs, map_none, map_eq_none_iff] at heq
            exact heq
          rw [hr, if_pos rfl, if_pos rfl]
          rfl
        | some info =>
          have hr : r.topics.get? t ≠ none := by
            intro hr
            rw [hs, hr] at heq
            cases heq
          rw [if_neg hr, if_neg (by simp), heq, hs]
      · right
        have hne : r.topics.get? t ≠ none := by
          intro hnone
          rw [hnone] at hr
          cases hr
        rw [if_neg hne]
        exact ⟨info, hr, hx⟩
    · simp only [ht, false_and, if_false]
      exact h.topics t
  | deleteTopic name =>
    by_cases ht : t = name
    · left
      simp only [if_pos ht]
    · simp only [if_neg ht]
      exact h.topics t
  | addBroker | removeBroker | updatePartitionAssignment => exact h.topics t

theorem Replays.applyAppData_brokers (data : RustMqAppData) (b : BrokerId) :
    (applyAppData now' r data).1.brokers.get? b = (applyAppData now s data).1.brokers.get? b ∨
      (applyAppData now' r data).1.brokers.get? b = x.brokers.get? b := by
  rw [get?_brokers_applyAppData, get?_brokers_applyAppData]
  cases data with
  | createTopic | deleteTopic | updatePartitionAssignment => exact h.brokers b
  | addBroker broker =>
    by_cases hb : b = broker.id
    · left
      simp only [if_pos hb]
    · simp only [if_neg hb]
      exact h.brokers b
  | removeBroker brokerId =>
    by_cases hb : b = brokerId
    · left
      simp only [if_pos hb]
    · simp only [if_neg hb]
      exact h.brokers b

theorem Replays.applyAppData_assignments {data : RustMqAppData} (hg : DeleteGuarded s data)
    (tp : TopicPartition) :
    (applyAppData now' r data).1.partitionAssignments.get? tp =
        (applyAppData now s data).1.partitionAssignments.get? tp ∨
      (applyAppData now' r data).1.partitionAssignments.get? tp =
        x.partitionAssignments.get? tp := by
  rw [get?_assignments_applyAppData, get?_assignments_applyAppData]
  cases data with
  | createTopic | addBroker | removeBroker => exact h.assignments tp
  | updatePartitionAssignment topicPartition assignment =>
    by_cases htp : tp = topicPartition
    · left
      simp only [if_pos htp]
    · simp only [if_neg htp]
      exact h.assignments tp
  | deleteTopic name =>
    by_cases ht : tp.topic = name
    · simp only [ht, true_and]
      cases hs : s.topics.get? name with
      | some info =>
        left
        rw [if_pos (h.isSome (by rw [hs]; rfl)), if_pos (show (some info).isSome = true from rfl)]
      | none =>
        -- refused the first time: the guard says there was nothing to delete
        have hnone : s.partitionAssignments.get? tp = none :=
          SMap.get?_eq_none_iff.mpr fun a ha => hg hs (tp, a) ha ht
        rw [if_neg (show ¬ (none : Option TopicInfo).isSome = true by simp)]
        by_cases hr : (r.topics.get? name).isSome
        · left
          rw [if_pos hr, hnone]
        · rw [if_neg hr]
          exact h.assignments tp
    · simp only [ht, false_and, if_false]
      exact h.assignments tp

/-- **One command, twice.** The comparison of the two passes survives a guarded command. -/
theorem Replays.applyAppData {data : RustMqAppData} (hg : DeleteGuarded s data) :
    Replays x (applyAppData now s data).1 (applyAppData now' r data).1 where
  topics := h.applyAppData_topics now now' data
  brokers := h.applyAppData_brokers now now' data
  assignments := h.applyAppData_assignments now now' hg

end

theorem Replays.of_maps {s' r' : RustMqSnapshotData} (h : Replays x s r)
    (hs : s'.topics = s.topics ∧ s'.brokers = s.brokers ∧
      s'.partitionAssignments = s.partitionAssignments)
    (hr : r'.topics = r.topics ∧ r'.brokers = r.brokers ∧
      r'.partitionAssignments = r.partitionAssignments) : Replays x s' r' := by
  constructor
  · rw [hs.1, hr.1]
    exact h.topics
  · rw [hs.2.1, hr.2.1]
    exact h.brokers
  · rw [hs.2.2, hr.2.2]
    exact h.assignments

theorem Replays.applyEntry {m n : RustMqStateMachine} (h : Replays x m.state n.state)
    {e f : Stamped} (hentry : f.entry = e.entry) (hg : EntryDeleteGuarded m e) :
    Replays x (m.applyEntry e).1.state (n.applyEntry f).1.state := by
  obtain ⟨⟨logId, payload⟩, now⟩ := e
  obtain ⟨entry, now'⟩ := f
  cases hentry
  cases payload with
  | blank | membership => exact h.of_maps ⟨rfl, rfl, rfl⟩ ⟨rfl, rfl, rfl⟩
  | normal data =>
    have hdata : Replays x (Controller.applyAppData now m.state data).1
        (Controller.applyAppData now' n.state data).1 := h.applyAppData now now' hg
    exact hdata.of_maps ⟨rfl, rfl, rfl⟩ ⟨rfl, rfl, rfl⟩

theorem Agree.replays (h : Agree s r) (x : RustMqSnapshotData) : Replays x s r where
  topics t := Or.inl (h.topics t)
  brokers b := Or.inl (h.brokers b)
  assignments tp := Or.inl (h.assignments tp)

theorem Replays.agree (h : Replays x x r) : Agree x r where
  topics t := by
    rcases h.topics t with heq | ⟨info, hr, hx⟩
    · exact heq
    · rw [hr, hx]
  brokers b := (h.brokers b).elim id id
  assignments tp := (h.assignments tp).elim id id

theorem replays_default (x : RustMqSnapshotData) : Replays x .default x where
  topics t := by
    cases hx : (x.topics.get? t).map TopicInfo.undated with
    | none => exact .inl rfl
    | some info => exact .inr ⟨info, rfl, rfl⟩
  brokers b := .inr rfl
  assignments tp := .inr rfl

/-! ## A list of entries, twice -/

def SameEntries (es fs : List Stamped) : Prop := fs.map Stamped.entry = es.map Stamped.entry

theorem Replays.applyEntries {m n : RustMqStateMachine} (h : Replays x m.state n.state)
    {es fs : List Stamped} (hsame : SameEntries es fs)
    (hg : Along RustMqStateMachine.step EntryDeleteGuarded m es) :
    Replays x (m.applyEntries es).state (n.applyEntries fs).state := by
  induction es generalizing m n fs with
  | nil =>
    rw [map_eq_nil_iff.mp hsame]
    exact h
  | cons e es ih =>
    cases fs with
    | nil => cases hsame
    | cons f fs =>
      obtain ⟨hentry, hsame⟩ := cons.inj hsame
      exact ih (h.applyEntry hentry hg.1) hsame (hg.2 _ rfl)

/-- **Replay.** Applying a guarded list on top of one of its initial parts gives what applying it
once gives. -/
theorem agree_replay {pre post fs : List Stamped} {start : RustMqStateMachine}
    (hstart : start.state = (RustMqStateMachine.fresh.applyEntries pre).state)
    (hsame : SameEntries (pre ++ post) fs)
    (hg : Along RustMqStateMachine.step EntryDeleteGuarded .fresh (pre ++ post)) :
    Agree (RustMqStateMachine.fresh.applyEntries (pre ++ post)).state
      (start.applyEntries fs).state := by
  obtain ⟨gs, hs, rfl, hpre, hpost⟩ := map_eq_append_iff.mp (hsame.trans map_append)
  obtain ⟨hgpre, hgpost⟩ := (along_append (exec_step _ pre)).mp hg
  have hfirst : Replays start.state (RustMqStateMachine.fresh.applyEntries pre).state
      (start.applyEntries gs).state :=
    (replays_default start.state).applyEntries hpre hgpre
  -- the first pass has reached the loaded state
  rw [← hstart] at hfirst
  have hmid : Agree (RustMqStateMachine.fresh.applyEntries pre).state
      (start.applyEntries gs).state := by
    rw [← hstart]
    exact hfirst.agree
  rw [applyEntries_append, applyEntries_append]
  have hrest := (hmid.replays (RustMqStateMachine.fresh.applyEntries (pre ++ post)).state)
    |>.applyEntries hpost hgpost
  rw [applyEntries_append] at hrest
  exact hrest.agree

/-! ## A node with its snapshot task -/

/-- A node: the state machine, the snapshot tasks that have not yet read the state, the states
that tasks have read and not yet renamed into place, and `snapshot.bin`. -/
structure Node where
  machine : RustMqStateMachine
  spawned : Nat
  read : List RustMqSnapshotData
  snapshotFile : Option (List UInt8)

inductive NodeAction where
  | apply (batch : List Stamped)
  | readState
  /-- The `i`-th task that has read renames its file into place. -/
  | rename (i : Nat)

namespace Node

def start : Node := ⟨.fresh, 0, [], none⟩

def step (snapshotThreshold : Nat) (n : Node) : NodeAction → Option Node
  | .apply batch =>
    let (machine, _, spawn) := n.machine.apply snapshotThreshold batch
    some { n with machine := machine, spawned := n.spawned + if spawn then 1 else 0 }
  | .readState =>
    if n.spawned = 0 then none
    else some { n with spawned := n.spawned - 1, read := n.read ++ [n.machine.state] }
  | .rename i =>
    match n.read[i]? with
    | none => none
    | some data =>
      some { n with
        read := n.read.eraseIdx i
        snapshotFile := some (RustMqStateMachine.saveSnapshot data) }

def applied (actions : List NodeAction) : List Stamped :=
  actions.flatMap fun
    | .apply batch => batch
    | _ => []

def Reached (es : List Stamped) (data : RustMqSnapshotData) : Prop :=
  ∃ pre, pre <+: es ∧ data = (RustMqStateMachine.fresh.applyEntries pre).state

theorem Reached.append {es : List Stamped} {data : RustMqSnapshotData} (h : Reached es data)
    (fs : List Stamped) : Reached (es ++ fs) data := by
  obtain ⟨pre, hpre, hdata⟩ := h
  exact ⟨pre, hpre.trans (prefix_append _ _), hdata⟩

/-- Everything a task holds, and the file, is a state the machine has been in. -/
structure Saved (actions : List NodeAction) (n : Node) : Prop where
  machine : n.machine.state = (RustMqStateMachine.fresh.applyEntries (applied actions)).state
  read : ∀ data ∈ n.read, Reached (applied actions) data
  file : ∀ bytes, n.snapshotFile = some bytes →
    ∃ data, Reached (applied actions) data ∧ bytes = RustMqStateMachine.saveSnapshot data

theorem applied_append (actions : List NodeAction) (action : NodeAction) :
    applied (actions ++ [action]) = applied actions ++ applied [action] :=
  flatMap_append

theorem state_applyEntries_congr {m m' : RustMqStateMachine} (h : m.state = m'.state)
    (es : List Stamped) : (m.applyEntries es).state = (m'.applyEntries es).state := by
  induction es generalizing m m' with
  | nil => exact h
  | cons e es ih =>
    refine ih ?_
    simp only [RustMqStateMachine.applyEntry, h]

theorem Saved.step {snapshotThreshold : Nat} {actions : List NodeAction} {n n' : Node}
    {action : NodeAction} (h : Saved actions n)
    (hstep : n.step snapshotThreshold action = some n') : Saved (actions ++ [action]) n' := by
  cases action with
  | apply batch =>
    cases hstep
    have happlied : applied (actions ++ [.apply batch]) = applied actions ++ batch := by
      rw [applied_append]
      simp [applied]
    constructor
    · rw [happlied, applyEntries_append]
      show (n.machine.apply snapshotThreshold batch).1.state = _
      rw [state_apply]
      exact state_applyEntries_congr h.machine batch
    · intro data hdata
      rw [happlied]
      exact (h.read data hdata).append batch
    · intro bytes hbytes
      obtain ⟨data, hdata, hsaved⟩ := h.file bytes hbytes
      rw [happlied]
      exact ⟨data, hdata.append batch, hsaved⟩
  | readState =>
    have happlied : applied (actions ++ [.readState]) = applied actions := by
      rw [applied_append]
      simp [applied]
    simp only [Node.step] at hstep
    split at hstep
    · cases hstep
    · cases hstep
      constructor
      · rw [happlied]
        exact h.machine
      · intro data hdata
        rw [happlied]
        rcases mem_append.mp hdata with hdata | hdata
        · exact h.read data hdata
        · rw [mem_singleton.mp hdata]
          exact ⟨applied actions, prefix_rfl, h.machine⟩
      · rw [happlied]
        exact h.file
  | rename i =>
    have happlied : applied (actions ++ [.rename i]) = applied actions := by
      rw [applied_append]
      simp [applied]
    simp only [Node.step] at hstep
    split at hstep
    · cases hstep
    · rename_i data hread
      cases hstep
      constructor
      · rw [happlied]
        exact h.machine
      · intro d hd
        rw [happlied]
        exact h.read d (mem_of_mem_eraseIdx hd)
      · rintro bytes ⟨⟩
        rw [happlied]
        exact ⟨data, h.read data (mem_of_getElem? hread), rfl⟩

theorem saved_start : Saved [] start where
  machine := rfl
  read _ h := by cases h
  file _ h := by cases h

theorem Saved.run {snapshotThreshold : Nat} {actions : List NodeAction} {n : Node}
    (hrun : exec (Node.step snapshotThreshold) start actions = some n) : Saved actions n := by
  exact exec_induction (I := Saved) (fun _ _ _ _ h _ hs => h.step hs) [] saved_start
    (along_of_forall (fun _ _ => trivial) _ _) hrun

/-! ## The restart -/

/-- The entries of a log behind the id `applied_state` reports. -/
def entriesAfter (lastApplied : Option LogId) (log : List Stamped) : List Stamped :=
  match lastApplied with
  | none => log
  | some id => log.filter fun e => id.index < e.entry.logId.index

def restarted (n : Node) : RustMqStateMachine := .new n.snapshotFile

theorem lastApplied_restarted (n : Node) : n.restarted.lastApplied = none := by
  rw [restarted, RustMqStateMachine.new]
  split <;> rfl

theorem state_restarted {n : Node} {es : List Stamped}
    (hfile : ∀ bytes, n.snapshotFile = some bytes →
      ∃ data, Reached es data ∧ bytes = RustMqStateMachine.saveSnapshot data)
    (hfits : ∀ data, Reached es data → snapshotDataCodec.Fits data) :
    Reached es n.restarted.state := by
  rw [restarted]
  cases hsnapshot : n.snapshotFile with
  | none => exact ⟨[], nil_prefix, rfl⟩
  | some bytes =>
    obtain ⟨data, hdata, rfl⟩ := hfile bytes hsnapshot
    rw [new_saveSnapshot (hfits data hdata)]
    exact hdata

/-- **Restart replay.** If every `DeleteTopic` of the log finds its topic, or no assignment for it,
a machine that stops anywhere and applies the log again ends like one that never stopped. -/
theorem restart_replay {snapshotThreshold : Nat} {actions : List NodeAction} {n : Node}
    (hrun : exec (Node.step snapshotThreshold) start actions = some n)
    {rest log : List Stamped} (hlog : SameEntries (applied actions ++ rest) log)
    (hguarded : Along RustMqStateMachine.step EntryDeleteGuarded .fresh (applied actions ++ rest))
    (hfits : ∀ data, Reached (applied actions) data → snapshotDataCodec.Fits data) :
    let again := n.restarted.applyEntries (entriesAfter n.restarted.appliedState.1 log)
    let whole := RustMqStateMachine.fresh.applyEntries (applied actions ++ rest)
    Agree whole.state again.state ∧ again.lastApplied = whole.lastApplied := by
  obtain ⟨pre, ⟨mid, hmid⟩, hstate⟩ := state_restarted (Saved.run hrun).file hfits
  have hafter : entriesAfter n.restarted.appliedState.1 log = log := by
    show entriesAfter n.restarted.lastApplied log = log
    rw [lastApplied_restarted]
    rfl
  refine ⟨?_, ?_⟩
  · rw [hafter]
    rw [← hmid, append_assoc] at hlog hguarded ⊢
    exact agree_replay hstate hlog hguarded
  · have hlast : (log.getLast?.map fun e => e.entry.logId) =
        (applied actions ++ rest).getLast?.map fun e => e.entry.logId := by
      have := congrArg (fun l => l.getLast?.map Entry.logId) hlog
      simp only [getLast?_map, Option.map_map] at this
      exact this
    rw [hafter, lastApplied_applyEntries, lastApplied_applyEntries, lastApplied_restarted, hlast]
    rfl

def savedOnce : List NodeAction := [.apply [RustMqStateMachine.oneBroker], .readState, .rename 0]

def brokerLeaves : Stamped := ⟨⟨⟨⟨1, 1⟩, 2⟩, .normal (.removeBroker "b")⟩, "later"⟩

theorem reached_savedOnce_fits {data : RustMqSnapshotData}
    (h : Reached (applied savedOnce) data) : snapshotDataCodec.Fits data := by
  obtain ⟨pre, hpre, rfl⟩ := h
  cases pre with
  | nil =>
    exact ⟨Codec.list_fits_nil _, Codec.list_fits_nil _, Codec.list_fits_nil _, by rintro _ ⟨⟩,
      by show 0 < 256 ^ 8; decide⟩
  | cons e pre =>
    obtain ⟨rfl, htail⟩ := cons_prefix_cons.mp
      (show e :: pre <+: [RustMqStateMachine.oneBroker] from hpre)
    rw [prefix_nil.mp htail]
    exact oneBroker_fits.1

theorem restart_replay_savedOnce :
    ∃ n, exec (Node.step 1) start savedOnce = some n ∧ n.snapshotFile.isSome = true ∧
      let log := applied savedOnce ++ [brokerLeaves]
      let again := n.restarted.applyEntries (entriesAfter n.restarted.appliedState.1 log)
      let whole := RustMqStateMachine.fresh.applyEntries log
      Agree whole.state again.state ∧ again.lastApplied = whole.lastApplied :=
  ⟨_, rfl, rfl, restart_replay (by rfl : exec (Node.step 1) start savedOnce = _) rfl
    (by decide +kernel) fun _ h => reached_savedOnce_fits h⟩

def refusedDelete : List Stamped :=
  [⟨⟨⟨⟨1, 1⟩, 1⟩, .normal (.updatePartitionAssignment ⟨"t", 0⟩ ⟨"b", [], [], 1⟩)⟩, ""⟩,
    ⟨⟨⟨⟨1, 1⟩, 2⟩, .normal (.deleteTopic "t")⟩, ""⟩,
    ⟨⟨⟨⟨1, 1⟩, 3⟩, .normal (.createTopic "t" 1 1 ⟨none, none, none⟩)⟩, ""⟩]

/-- Replayed over the snapshot of its own end, the deletion succeeds and the assignment is
gone. -/
theorem refused_delete_replayed :
    ∃ n, exec (Node.step 3) start [.apply refusedDelete, .readState, .rename 0] = some n ∧
      (RustMqStateMachine.fresh.applyEntries refusedDelete).state.partitionAssignments.get? ⟨"t", 0⟩
        = some ⟨"b", [], [], 1⟩ ∧
      (n.restarted.applyEntries (entriesAfter n.restarted.appliedState.1
        refusedDelete)).state.partitionAssignments.get? ⟨"t", 0⟩ = none :=
  ⟨_, rfl, by decide +kernel, by decide +kernel⟩

end Node
end RustMq.Controller
