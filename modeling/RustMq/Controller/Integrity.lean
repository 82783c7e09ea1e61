import RustMq.Controller.StateMachine

/-!
# Referential integrity of the cluster metadata

An assignment names a topic, a partition of it and brokers. `Integrity` says that all of them
are there. No command checks it: `UpdatePartitionAssignment` inserts whatever it is given, and
`RemoveBroker` looks at the brokers only. `DeleteTopic` does remove the assignments of its topic
and `CreateTopic` refuses a name that is taken, so a partition count never changes under an
assignment.
-/

namespace RustMq.Controller

open Lib

def PartitionAssignment.named (a : PartitionAssignment) : List BrokerId :=
  a.leader :: (a.replicas ++ a.inSyncReplicas)

/-- The partition exists: its topic does, and has more partitions than its number. -/
def RustMqSnapshotData.Exists (s : RustMqSnapshotData) (tp : TopicPartition) : Prop :=
  ∃ info ∈ s.topics.get? tp.topic, tp.partition < info.partitions

def RustMqSnapshotData.Registered (s : RustMqSnapshotData) (a : PartitionAssignment) : Prop :=
  ∀ broker ∈ a.named, (s.brokers.get? broker).isSome

structure Integrity (s : RustMqSnapshotData) : Prop where
  placed : ∀ tp a, s.partitionAssignments.get? tp = some a → s.Exists tp
  registered : ∀ tp a, s.partitionAssignments.get? tp = some a → s.Registered a

/-- What a command would have to check: an assignment is for an existing partition and
registered brokers, and a broker is removed when no assignment names it. -/
def Guarded (s : RustMqSnapshotData) : RustMqAppData → Prop
  | .updatePartitionAssignment tp a => s.Exists tp ∧ s.Registered a
  | .removeBroker brokerId =>
    ∀ e ∈ s.partitionAssignments.entries, brokerId ∉ e.2.named
  | _ => True

def EntryGuarded (m : RustMqStateMachine) (e : Stamped) : Prop :=
  match e.entry.payload with
  | .normal data => Guarded m.state data
  | _ => True

/-! ## One command -/

variable {s : RustMqSnapshotData} {data : RustMqAppData} {m : RustMqStateMachine}

theorem Integrity.of_maps {s' : RustMqSnapshotData} (h : Integrity s)
    (htopics : s'.topics = s.topics) (hbrokers : s'.brokers = s.brokers)
    (hassignments : s'.partitionAssignments = s.partitionAssignments) : Integrity s' := by
  constructor
  · intro tp a ha
    rw [hassignments] at ha
    rw [RustMqSnapshotData.Exists, htopics]
    exact h.placed tp a ha
  · intro tp a ha broker hb
    rw [hassignments] at ha
    rw [hbrokers]
    exact h.registered tp a ha broker hb

theorem Integrity.of_guarded (h : Integrity s) (now : String) (hg : Guarded s data) :
    Integrity (applyAppData now s data).1 := by
  cases data with
  | createTopic name partitions replicationFactor config =>
    constructor
    · intro tp a ha
      rw [get?_assignments_applyAppData] at ha
      obtain ⟨info, hinfo, hlt⟩ := h.placed tp a ha
      -- the topic of an assignment is there, so it is not the one being created
      refine ⟨info, ?_, hlt⟩
      rw [get?_topics_applyAppData]
      have hne : ¬ (tp.topic = name ∧ s.topics.get? name = none) := by
        rintro ⟨rfl, hnone⟩
        rw [hnone] at hinfo
        cases hinfo
      simp only [if_neg hne]
      exact hinfo
    · intro tp a ha broker hb
      rw [get?_assignments_applyAppData] at ha
      rw [get?_brokers_applyAppData]
      exact h.registered tp a ha broker hb
  | deleteTopic name =>
    constructor
    · intro tp a ha
      rw [get?_assignments_applyAppData] at ha
      simp only at ha
      split at ha
      · cases ha
      · rename_i hkept
        obtain ⟨info, hinfo, hlt⟩ := h.placed tp a ha
        refine ⟨info, ?_, hlt⟩
        have htopic : tp.topic ≠ name := by
          rintro rfl
          exact hkept ⟨rfl, Option.isSome_iff_exists.mpr ⟨info, hinfo⟩⟩
        rw [get?_topics_applyAppData]
        simp only [if_neg htopic]
        exact hinfo
    · intro tp a ha broker hb
      rw [get?_assignments_applyAppData] at ha
      rw [get?_brokers_applyAppData]
      simp only at ha
      split at ha
      · cases ha
      · exact h.registered tp a ha broker hb
  | addBroker info =>
    constructor
    · intro tp a ha
      exact h.placed tp a ha
    · intro tp a ha broker hb
      rw [get?_brokers_applyAppData]
      simp only
      split
      · rfl
      · exact h.registered tp a ha broker hb
  | removeBroker brokerId =>
    have hsame : ∀ tp, (applyAppData now s (.removeBroker brokerId)).1.partitionAssignments.get? tp
        = s.partitionAssignments.get? tp := fun tp => get?_assignments_applyAppData now s _ tp
    constructor
    · intro tp a ha
      rw [hsame] at ha
      obtain ⟨info, hinfo, hlt⟩ := h.placed tp a ha
      exact ⟨info, (get?_topics_applyAppData now s _ _).trans hinfo, hlt⟩
    · intro tp a ha broker hb
      rw [hsame] at ha
      have hne : broker ≠ brokerId := by
        rintro rfl
        exact hg (tp, a) (SMap.get?_eq_some_iff.mp ha) hb
      rw [get?_brokers_applyAppData]
      simp only [if_neg hne]
      exact h.registered tp a ha broker hb
  | updatePartitionAssignment topicPartition assignment =>
    constructor
    · intro tp a ha
      rw [get?_assignments_applyAppData] at ha
      simp only at ha
      split at ha
      · rename_i htp
        rw [htp]
        exact hg.1
      · exact h.placed tp a ha
    · intro tp a ha
      rw [get?_assignments_applyAppData] at ha
      simp only at ha
      split at ha
      · cases ha
        exact hg.2
      · exact h.registered tp a ha

theorem Integrity.guarded {now : String} (h : Integrity (applyAppData now s data).1) :
    Guarded s data := by
  cases data with
  | createTopic | deleteTopic | addBroker => trivial
  | removeBroker brokerId =>
    intro e he hnamed
    have hget := SMap.get?_eq_some_iff.mpr he
    have hreg := h.registered e.1 e.2 (by rw [get?_assignments_applyAppData]; exact hget)
      brokerId hnamed
    rw [get?_brokers_applyAppData] at hreg
    simp at hreg
  | updatePartitionAssignment topicPartition assignment =>
    have hnew : (applyAppData now s (.updatePartitionAssignment topicPartition
        assignment)).1.partitionAssignments.get? topicPartition = some assignment := by
      rw [get?_assignments_applyAppData]
      simp
    exact ⟨h.placed _ _ hnew, h.registered _ _ hnew⟩

/-- **One entry.** From a state with integrity, an entry keeps it exactly when it is guarded. -/
theorem Integrity.applyEntry_iff (h : Integrity m.state) (e : Stamped) :
    Integrity (m.applyEntry e).1.state ↔ EntryGuarded m e := by
  obtain ⟨⟨logId, payload⟩, now⟩ := e
  cases payload with
  | blank | membership => exact iff_of_true (h.of_maps rfl rfl rfl) trivial
  | normal data =>
    constructor
    · intro h'
      have hmaps : Integrity (applyAppData now m.state data).1 := h'.of_maps rfl rfl rfl
      exact hmaps.guarded
    · intro hg
      exact (h.of_guarded now hg).of_maps rfl rfl rfl

/-! ## Runs of commands -/

theorem Integrity.run_iff (h : Integrity m.state) (es : List Stamped) :
    (∀ pre, pre <+: es → Integrity (m.applyEntries pre).state) ↔
      Along RustMqStateMachine.step EntryGuarded m es := by
  induction es generalizing m with
  | nil =>
    refine iff_of_true (fun pre hpre => ?_) trivial
    rw [List.prefix_nil.mp hpre]
    exact h
  | cons e es ih =>
    constructor
    · intro hall
      have hone : Integrity (m.applyEntry e).1.state := hall [e] ⟨es, rfl⟩
      refine ⟨(h.applyEntry_iff e).mp hone, ?_⟩
      rintro m' ⟨⟩
      refine (ih hone).mp fun pre hpre => ?_
      exact hall (e :: pre) (List.cons_prefix_cons.mpr ⟨rfl, hpre⟩)
    · rintro ⟨hg, hrest⟩ pre hpre
      cases pre with
      | nil => exact h
      | cons f pre =>
        obtain ⟨rfl, htail⟩ := List.cons_prefix_cons.mp hpre
        have hone := (h.applyEntry_iff f).mpr hg
        exact (ih hone).mpr (hrest _ rfl) pre htail

theorem integrity_default : Integrity RustMqSnapshotData.default where
  placed _ _ h := by cases h
  registered _ _ h := by cases h

/-- **Referential integrity** holds all along a run exactly if every assignment of it names what is
there and every removed broker is named by none. -/
theorem integrity_iff_guarded (es : List Stamped) :
    (∀ pre, pre <+: es → Integrity (RustMqStateMachine.fresh.applyEntries pre).state) ↔
      Along RustMqStateMachine.step EntryGuarded .fresh es :=
  integrity_default.run_iff es

def danglingAssignment : Stamped :=
  ⟨⟨⟨⟨1, 1⟩, 1⟩, .normal (.updatePartitionAssignment ⟨"orders", 7⟩ ⟨"b1", ["b1"], ["b1"], 1⟩)⟩, ""⟩

/-- The state machine accepts it, and the assignment refers to no topic. -/
theorem dangling_assignment_accepted : RustMqStateMachine.fresh.responses [danglingAssignment] =
        [accepted "Partition assignment updated for orders:7"] ∧
      ¬ Integrity (RustMqStateMachine.fresh.applyEntries [danglingAssignment]).state := by
  refine ⟨by decide +kernel, fun h => ?_⟩
  obtain ⟨info, hinfo, -⟩ :=
    h.placed ⟨"orders", 7⟩ ⟨"b1", ["b1"], ["b1"], 1⟩ (SMap.get?_insert_self _ _ _)
  cases hinfo

end RustMq.Controller
