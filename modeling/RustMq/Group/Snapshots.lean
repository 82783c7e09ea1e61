import RustMq.Group.Coordinator
import RustMq.Lib.MapCodec
import RustMq.Lib.Runs

/-!
# Group snapshots

The coordinator keeps its groups in memory. A background task (`start_snapshot_task`) writes them
to one directory per partition of the offsets topic, and a new process starts from the newest file
of every directory (`recover_from_snapshots`). Which file is the newest is read off its name,
`snapshot-N.bin`, where `N` was the commit counter of the process that wrote it.

The counter starts at 0 in every process. A later process therefore writes smaller names than an
earlier one until it has caught up, and until then the newest file is not the last one written
(`stale_snapshot_loaded`).
-/

namespace RustMq.Group

open Lib List Function SMap Option

/-! ## The files of a partition -/

abbrev SnapshotDir := SMap Nat Groups

def ConsumerGroupState.stored (st : ConsumerGroupState) : ConsumerGroupState :=
  { st with members := st.members.mapVals fun member => { member with lastHeartbeat := none } }

def latestStep (latest : Nat × Option Groups) (file : Nat × Groups) : Nat × Option Groups :=
  if latest.1 ≤ file.1 then (file.1, some file.2) else latest

/-- `load_latest_snapshot`. The numbers differ, so the order of the directory does not matter. -/
def loadLatestSnapshot (dir : SnapshotDir) : Option (Nat × Groups) :=
  let latest := dir.entries.foldl latestStep (0, none)
  latest.2.map fun groups => (latest.1, groups)

def oldSnapshots (dir : SnapshotDir) (keep : Nat) : List Nat := dir.keys.reverse.drop keep

def cleanupOldSnapshots (dir : SnapshotDir) (keep : Nat) (removed : Nat → Bool) : SnapshotDir :=
  if dir.keys.length ≤ keep then dir
  else dir.filterKeys fun n => !(decide (n ∈ oldSnapshots dir keep) && removed n)

theorem foldl_latestStep {l : List (Nat × Groups)} (hl : l.Pairwise fun a b => a.1 < b.1) :
    ∀ latest : Nat × Option Groups, (∀ file ∈ l, latest.1 ≤ file.1) →
      l.foldl latestStep latest = l.getLast?.elim latest fun file => (file.1, some file.2) := by
  induction l with
  | nil => exact fun _ _ => rfl
  | cons file l ih =>
    intro latest hle
    obtain ⟨hlt, hl⟩ := pairwise_cons.mp hl
    have hstep : latestStep latest file = (file.1, some file.2) :=
      if_pos (hle file mem_cons_self)
    rw [foldl_cons, hstep, ih hl _ fun a ha => (hlt a ha).le, getLast?_cons]
    cases l.getLast? with
    | none | some => rfl

theorem loadLatestSnapshot_eq (dir : SnapshotDir) :
    loadLatestSnapshot dir = dir.entries.getLast? := by
  rw [loadLatestSnapshot, foldl_latestStep dir.sorted _ fun _ _ => Nat.zero_le _]
  cases dir.entries.getLast? with
  | none | some => rfl

variable {dir : SnapshotDir} {n keep : Nat}

/-- **The latest snapshot** is the file with the greatest number. -/
theorem loadLatestSnapshot_eq_some_iff {groups : Groups} :
    loadLatestSnapshot dir = some (n, groups) ↔
      dir.get? n = some groups ∧ ∀ k ∈ dir.keys, k ≤ n := by
  have hgreatest : ∀ {file : Nat × Groups}, dir.entries.getLast? = some file →
      file ∈ dir.entries ∧ ∀ k ∈ dir.keys, k ≤ file.1 := by
    intro file hlast
    refine ⟨mem_of_getLast? hlast, fun k hk => ?_⟩
    obtain ⟨init, hinit⟩ := getLast?_eq_some_iff.mp hlast
    have hsorted := dir.sorted
    rw [hinit] at hsorted
    obtain ⟨e, he, rfl⟩ := mem_map.mp hk
    rw [hinit] at he
    rcases mem_append.mp he with he | he
    · exact ((pairwise_append.mp hsorted).2.2 e he file (mem_singleton_self _)).le
    · rw [mem_singleton.mp he]
  rw [loadLatestSnapshot_eq]
  constructor
  · intro h
    obtain ⟨hmem, hle⟩ := hgreatest h
    exact ⟨get?_eq_some_iff.mpr hmem, hle⟩
  · rintro ⟨hget, hle⟩
    have hmem := get?_eq_some_iff.mp hget
    cases hlast : dir.entries.getLast? with
    | none =>
      rw [getLast?_eq_none_iff.mp hlast] at hmem
      cases hmem
    | some file =>
      obtain ⟨hfile, hbelow⟩ := hgreatest hlast
      have heq : file.1 = n := Nat.le_antisymm
        (hle _ (mem_map_of_mem hfile)) (hbelow n (mem_keys.mpr ⟨groups, hget⟩))
      obtain ⟨k, groups'⟩ := file
      subst heq
      rw [eq_of_mem_of_mem hfile hmem]

theorem loadLatestSnapshot_insert (groups : Groups) (h : ∀ k ∈ dir.keys, k ≤ n) :
    loadLatestSnapshot (dir.insert n groups) = some (n, groups) := by
  refine loadLatestSnapshot_eq_some_iff.mpr ⟨get?_insert_self _ _ _, fun k hk => ?_⟩
  obtain ⟨v, hv⟩ := mem_keys.mp hk
  rcases of_get?_insert hv with ⟨heq, -⟩ | ⟨-, hv⟩
  · exact heq.le
  · exact h k (mem_keys.mpr ⟨v, hv⟩)

theorem not_mem_oldSnapshots (hn : n ∈ dir.keys) (h : ∀ k ∈ dir.keys, k ≤ n) (hkeep : 0 < keep) :
    n ∉ oldSnapshots dir keep := by
  intro hold
  have hsorted : dir.keys.reverse.Pairwise (· > ·) := pairwise_reverse.mpr dir.sorted_keys
  rw [← take_append_drop keep dir.keys.reverse] at hsorted
  have hfirst : dir.keys.reverse.take keep ≠ [] := by
    intro hnil
    rcases take_eq_nil_iff.mp hnil with hzero | hempty
    · omega
    · rw [reverse_eq_nil_iff.mp hempty] at hn
      cases hn
  obtain ⟨k, hk⟩ := exists_mem_of_ne_nil _ hfirst
  have hgt : k > n := (pairwise_append.mp hsorted).2.2 k hk n hold
  have hle := h k (mem_reverse.mp (mem_of_mem_take hk))
  omega

/-- **Cleanup keeps the latest snapshot.** -/
theorem loadLatestSnapshot_cleanup (dir : SnapshotDir) (removed : Nat → Bool) (hkeep : 0 < keep) :
    loadLatestSnapshot (cleanupOldSnapshots dir keep removed) = loadLatestSnapshot dir := by
  rw [cleanupOldSnapshots]
  split
  · rfl
  · rename_i hmany
    cases hlatest : loadLatestSnapshot dir with
    | none =>
      have hnil : dir.entries = [] :=
        getLast?_eq_none_iff.mp ((loadLatestSnapshot_eq dir).symm.trans hlatest)
      rw [SMap.keys, hnil] at hmany
      exact absurd (Nat.zero_le _) hmany
    | some latest =>
      obtain ⟨n, groups⟩ := latest
      obtain ⟨hget, hle⟩ := loadLatestSnapshot_eq_some_iff.mp hlatest
      have hnot := not_mem_oldSnapshots (mem_keys.mpr ⟨groups, hget⟩) hle hkeep
      refine loadLatestSnapshot_eq_some_iff.mpr ⟨?_, fun k hk => ?_⟩
      · rw [get?_filterKeys, decide_eq_false hnot]
        exact hget
      · obtain ⟨v, hv⟩ := mem_keys.mp hk
        exact hle k (mem_keys.mpr ⟨v, of_get?_filterKeys hv⟩)

/-! ## The system -/

/-- Where the loop of the snapshot task is. -/
inductive SnapshotTask where
  | waiting
  | loaded (current : Nat)
  | saving (current partition : Nat)
  | cleaning (current partition : Nat)

/-- A coordinator process with its files. `lastSaved` is what was saved last for a partition, and
`acked` the commits answered with 0, the last one first; no code reads these two. -/
structure System (L : Type) where
  manager : GroupCoordinatorManager
  log : L
  task : SnapshotTask
  lastSnapshotCommit : Nat
  files : Nat → SnapshotDir
  lastSaved : Nat → Option (Nat × Groups)
  acked : List CommitOffsetRequest

inductive Label where
  | join (request : JoinGroupRequest) (uuid : String) (now : Nat)
    (allTopics memberIds : List String)
  | heartbeat (request : ConsumerHeartbeatRequest) (now : Nat)
  | leave (request : LeaveGroupRequest)
  | commit (request : CommitOffsetRequest) (timestamps : TopicPartition → Int)
  | updateTopicPartitions (topic : String) (partitionCount : Nat)
  | reap (now : Nat)
  | tick
  | lock
  | save (written : Bool)
  | unlock
  | clean (removed : Nat → Bool)
  | finish
  /-- A crash and a new process, which manages to read the snapshots of the partitions in
  `loads`. -/
  | restart (loads : Nat → Bool)

section system

variable {L : Type} (cfg : CoordinatorConfig L)

def CoordinatorConfig.partitionGroups (groups : Groups) (partition : Nat) : Groups :=
  (groups.filterKeys fun groupId => cfg.partitionFor groupId = partition).mapVals
    ConsumerGroupState.stored

def recoverPartition (files : Nat → SnapshotDir) (loads : Nat → Bool)
    (m : GroupCoordinatorManager) (partition : Nat) : GroupCoordinatorManager :=
  if loads partition then
    match loadLatestSnapshot (files partition) with
    | some (_, groups) => { m with groups := m.groups.insertAll groups }
    | none => m
  else m

def CoordinatorConfig.recoverFromSnapshots (files : Nat → SnapshotDir) (loads : Nat → Bool)
    (m : GroupCoordinatorManager) : GroupCoordinatorManager :=
  (List.range cfg.offsetsPartitionCount).foldl (recoverPartition files loads) m

namespace System

def start (log : L) : System L :=
  ⟨.new, log, .waiting, 0, fun _ => .empty, fun _ => none, []⟩

def locked (s : System L) : Bool :=
  match s.task with
  | .saving _ _ => true
  | _ => false

def step (s : System L) : Label → Option (System L)
  | .join request uuid now allTopics memberIds =>
    if s.locked then none
    else (s.manager.handleJoinGroup request uuid now allTopics memberIds).map fun r =>
      { s with manager := r.2 }
  | .heartbeat request now =>
    if s.locked then none else some { s with manager := (s.manager.handleHeartbeat request now).2 }
  | .leave request =>
    if s.locked then none else some { s with manager := (s.manager.handleLeaveGroup request).2 }
  | .commit request timestamps =>
    if s.locked then none
    else (handleCommitOffset cfg s.manager s.log request timestamps).map fun r =>
      { s with
        manager := r.2.2
        log := r.2.1
        acked := if r.1 = 0 then request :: s.acked else s.acked }
  | .updateTopicPartitions topic partitionCount =>
    some { s with manager := s.manager.updateTopicPartitions topic partitionCount }
  | .reap now => if s.locked then none else some { s with manager := s.manager.reap now }
  | .tick =>
    match s.task with
    | .waiting =>
      if s.manager.commitCount - s.lastSnapshotCommit < 10000 then some s
      else some { s with task := .loaded s.manager.commitCount }
    | _ => none
  | .lock =>
    match s.task with
    | .loaded current =>
      if s.manager.groups.entries = [] then some { s with task := .waiting }
      else some { s with task := .saving current 0 }
    | _ => none
  | .save written =>
    match s.task with
    | .saving current partition =>
      let groups := cfg.partitionGroups s.manager.groups partition
      if cfg.offsetsPartitionCount ≤ partition then none
      else if groups.entries = [] ∨ written = false then
        some { s with task := .saving current (partition + 1) }
      else
        some { s with
          task := .saving current (partition + 1)
          files := Function.update s.files partition ((s.files partition).insert current groups)
          lastSaved := Function.update s.lastSaved partition (some (current, groups)) }
    | _ => none
  | .unlock =>
    match s.task with
    | .saving current partition =>
      if cfg.offsetsPartitionCount ≤ partition then some { s with task := .cleaning current 0 }
      else none
    | _ => none
  | .clean removed =>
    match s.task with
    | .cleaning current partition =>
      if cfg.offsetsPartitionCount ≤ partition then none
      else some { s with
        task := .cleaning current (partition + 1)
        files := Function.update s.files partition
          (cleanupOldSnapshots (s.files partition) 3 removed) }
    | _ => none
  | .finish =>
    match s.task with
    | .cleaning current partition =>
      if cfg.offsetsPartitionCount ≤ partition then
        some { s with task := .waiting, lastSnapshotCommit := current }
      else none
    | _ => none
  | .restart loads =>
    some { s with
      manager := cfg.recoverFromSnapshots s.files loads .new
      task := .waiting
      lastSnapshotCommit := 0 }

end System

/-! ## What the steps can do -/

inductive System.Step (cfg : CoordinatorConfig L) (s : System L) : Label → System L → Prop
  /-- A handler other than `handle_commit_offset`, or the reaper. -/
  | handle {label : Label} {m' : GroupCoordinatorManager} (h : KeepsCommits s.manager m') :
    Step cfg s label { s with manager := m' }
  | commit {request : CommitOffsetRequest} {timestamps : TopicPartition → Int} {code : Nat}
    {log' : L} {m' : GroupCoordinatorManager} (hlock : s.locked = false)
    (h : CommitStep cfg s.manager s.log request timestamps code log' m') :
    Step cfg s (.commit request timestamps) { s with
      manager := m'
      log := log'
      acked := if code = 0 then request :: s.acked else s.acked }
  | load (htask : s.task = .waiting)
    (hsince : ¬ s.manager.commitCount - s.lastSnapshotCommit < 10000) :
    Step cfg s .tick { s with task := .loaded s.manager.commitCount }
  | noGroups {current : Nat} (htask : s.task = .loaded current) :
    Step cfg s .lock { s with task := .waiting }
  | lock {current : Nat} (htask : s.task = .loaded current) :
    Step cfg s .lock { s with task := .saving current 0 }
  | skip {current partition : Nat} {written : Bool} (htask : s.task = .saving current partition)
    (hskip : (cfg.partitionGroups s.manager.groups partition).entries = [] ∨ written = false) :
    Step cfg s (.save written) { s with task := .saving current (partition + 1) }
  | save {current partition : Nat} (htask : s.task = .saving current partition) :
    Step cfg s (.save true) { s with
      task := .saving current (partition + 1)
      files := Function.update s.files partition ((s.files partition).insert current
        (cfg.partitionGroups s.manager.groups partition))
      lastSaved := Function.update s.lastSaved partition
        (some (current, cfg.partitionGroups s.manager.groups partition)) }
  | unlock {current partition : Nat} (htask : s.task = .saving current partition)
    (hdone : cfg.offsetsPartitionCount ≤ partition) :
    Step cfg s .unlock { s with task := .cleaning current 0 }
  | clean {current partition : Nat} {removed : Nat → Bool}
    (htask : s.task = .cleaning current partition) :
    Step cfg s (.clean removed) { s with
      task := .cleaning current (partition + 1)
      files := Function.update s.files partition
        (cleanupOldSnapshots (s.files partition) 3 removed) }
  | finish {current partition : Nat} (htask : s.task = .cleaning current partition) :
    Step cfg s .finish { s with task := .waiting, lastSnapshotCommit := current }
  | restart {loads : Nat → Bool} :
    Step cfg s (.restart loads) { s with
      manager := cfg.recoverFromSnapshots s.files loads .new
      task := .waiting
      lastSnapshotCommit := 0 }

variable {cfg} {s s' : System L} {label : Label}

theorem System.step_cases (h : s.step cfg label = some s') : s.Step cfg label s' := by
  cases label with
  | join request uuid now allTopics memberIds =>
    simp only [step] at h
    split at h
    · cases h
    · obtain ⟨⟨response, m'⟩, hjoin, rfl⟩ := map_eq_some_iff.mp h
      exact .handle (.handleJoinGroup hjoin)
  | heartbeat request now =>
    simp only [step] at h
    split at h
    · cases h
    · cases h
      exact .handle (.handleHeartbeat _ _ _)
  | leave request =>
    simp only [step] at h
    split at h
    · cases h
    · cases h
      exact .handle (.handleLeaveGroup _ _)
  | commit request timestamps =>
    simp only [step] at h
    split at h
    · cases h
    · rename_i hlock
      obtain ⟨⟨code, log', m'⟩, hcommit, rfl⟩ := map_eq_some_iff.mp h
      exact .commit (Bool.eq_false_iff.mpr hlock) (handleCommitOffset_cases hcommit)
  | updateTopicPartitions topic partitionCount =>
    cases h
    exact .handle (.updateTopicPartitions _ _ _)
  | reap now =>
    simp only [step] at h
    split at h
    · cases h
    · cases h
      exact .handle (.reap _ _)
  | tick =>
    simp only [step] at h
    split at h
    · rename_i htask
      split at h
      · cases h
        exact .handle (.refl _)
      · rename_i hsince
        cases h
        exact .load htask hsince
    · cases h
  | lock =>
    simp only [step] at h
    split at h
    · rename_i current htask
      split at h
      · cases h
        exact .noGroups htask
      · cases h
        exact .lock htask
    · cases h
  | save written =>
    simp only [step] at h
    split at h
    · rename_i current partition htask
      split at h
      · cases h
      · split at h
        · rename_i hskip
          cases h
          exact .skip htask hskip
        · rename_i hsave
          cases h
          cases written with
          | true => exact .save htask
          | false => exact absurd (.inr rfl) hsave
    · cases h
  | unlock =>
    simp only [step] at h
    split at h
    · rename_i current partition htask
      split at h
      · rename_i hdone
        cases h
        exact .unlock htask hdone
      · cases h
    · cases h
  | clean removed =>
    simp only [step] at h
    split at h
    · rename_i current partition htask
      split at h
      · cases h
      · cases h
        exact .clean htask
    · cases h
  | finish =>
    simp only [step] at h
    split at h
    · rename_i current partition htask
      split at h
      · cases h
        exact .finish htask
      · cases h
    · cases h
  | restart loads =>
    cases h
    exact .restart

/-! ## The latest snapshot is the last one saved -/

def System.Ahead (s : System L) : Prop :=
  match s.task with
  | .saving current partition => ∀ n ∈ (s.files partition).keys, n ≤ current
  | _ => True

instance (s : System L) : Decidable s.Ahead := by
  unfold System.Ahead
  split <;> infer_instance

def SavesAhead (s : System L) : Label → Prop
  | .save _ => s.Ahead
  | _ => True

instance (s : System L) (label) : Decidable (SavesAhead s label) := by
  unfold SavesAhead
  split <;> infer_instance

def System.Latest (s : System L) : Prop :=
  ∀ partition, loadLatestSnapshot (s.files partition) = s.lastSaved partition

theorem System.Latest.step (h : s.Latest) (hahead : SavesAhead s label)
    (hstep : s.Step cfg label s') : s'.Latest := by
  cases hstep with
  | handle | commit | load | noGroups | lock | skip | unlock | finish | restart => exact h
  | @save current partition htask =>
    have hle : ∀ n ∈ (s.files partition).keys, n ≤ current := by
      have hs : s.Ahead := hahead
      rw [System.Ahead, htask] at hs
      exact hs
    intro p
    simp only [update_apply]
    split
    · exact loadLatestSnapshot_insert _ hle
    · exact h p
  | @clean current partition removed htask =>
    intro p
    simp only [update_apply]
    split
    · rename_i heq
      rw [loadLatestSnapshot_cleanup _ _ (by decide), heq]
      exact h partition
    · exact h p

/-- **The snapshot that is loaded is the one saved last**, if every save happens with a counter
above the numbers already there. -/
theorem latest_snapshot_saved_last {log : L} {labels : List Label} {s : System L}
    (hahead : Along (System.step cfg) SavesAhead (.start log) labels)
    (hexec : exec (System.step cfg) (.start log) labels = some s) (partition : Nat) :
    loadLatestSnapshot (s.files partition) = s.lastSaved partition ∧
      ∀ n groups, s.lastSaved partition = some (n, groups) →
        (s.files partition).get? n = some groups := by
  have hlatest : s.Latest := exec_invariant (I := System.Latest)
    (fun _ _ _ h hP hs => h.step hP (System.step_cases hs)) (fun _ => rfl) hahead hexec
  refine ⟨hlatest partition, fun n groups hsaved => ?_⟩
  rw [← hlatest partition] at hsaved
  exact (loadLatestSnapshot_eq_some_iff.mp hsaved).1

end system

/-! ### Two processes -/

def takesAll : CoordinatorConfig Unit := ⟨fun _ => 0, 1, by decide, fun _ _ => some (true, ())⟩

def joinG : Label := .join ⟨"g", "m", 30000, ["t"]⟩ "" 0 ["t"] ["m"]

def requestG (offset : Nat) : CommitOffsetRequest :=
  ⟨"g", "m", 1, AList.singleton ⟨"t", 0⟩ offset⟩

def commitG (offset : Nat) : Label := .commit (requestG offset) fun _ => 0

def snapshotRound : List Label :=
  [.tick, .lock, .save true, .unlock, .clean fun _ => true, .finish]

def restartAll : Label := .restart fun _ => true

def afterRun (s : System Unit) (labels : List Label) : System Unit :=
  (exec (System.step takesAll) s labels).getD s

theorem exec_afterRun (s : System Unit) (labels : List Label)
    (h : (exec (System.step takesAll) s labels).isSome) :
    exec (System.step takesAll) s labels = some (afterRun s labels) := by
  obtain ⟨t, ht⟩ := isSome_iff_exists.mp h
  rw [afterRun, ht]
  rfl

def System.again (s : System Unit) (offset n : Nat) : System Unit :=
  { s with
    manager := { s.manager with commitCount := s.manager.commitCount + n }
    acked := List.replicate n (requestG offset) ++ s.acked }

/-- The group has committed the offset, and the task does not hold the lock. -/
def Repeats (s : System Unit) (offset : Nat) : Prop :=
  s.locked = false ∧ (s.manager.groups.get? "g").any (fun st => st.generationId = 1 ∧
    (st.committedOffsets.insert ⟨"t", 0⟩ offset).entries = st.committedOffsets.entries) = true

instance (s : System Unit) (offset : Nat) : Decidable (Repeats s offset) :=
  inferInstanceAs (Decidable (_ ∧ _))

theorem step_again {s : System Unit} {offset : Nat} (h : Repeats s offset)
    (hlt : s.manager.commitCount + n + 1 < 2 ^ 64) :
    (s.again offset n).step takesAll (commitG offset) = some (s.again offset (n + 1)) := by
  obtain ⟨hlock, hany⟩ := h
  obtain ⟨st, hget⟩ : ∃ st, s.manager.groups.get? "g" = some st := by
    cases hget : s.manager.groups.get? "g" with
    | none =>
      rw [hget] at hany
      cases hany
    | some st => exact ⟨st, rfl⟩
  rw [hget] at hany
  obtain ⟨hgeneration, hentries⟩ := of_decide_eq_true hany
  have hsame : { st with committedOffsets := st.committedOffsets.insert ⟨"t", 0⟩ offset } = st := by
    rw [AList.ext hentries]
  have hcommit : handleCommitOffset takesAll (s.again offset n).manager (s.again offset n).log
      (requestG offset) (fun _ => 0) = some (0, (), (s.again offset (n + 1)).manager) := by
    have hgroup : (s.again offset n).manager.groups.get? (requestG offset).groupId = some st := hget
    have hcurrent : ¬ st.generationId ≠ (requestG offset).generationId := not_not.mpr hgeneration
    have hcount : (s.manager.commitCount + n + 1) % 2 ^ 64 = s.manager.commitCount + (n + 1) :=
      Nat.mod_eq_of_lt hlt
    have hgroups : s.manager.groups.insert "g"
        { st with committedOffsets := st.committedOffsets.insert ⟨"t", 0⟩ offset } =
        s.manager.groups := by
      rw [hsame, insert_of_get? hget]
    rw [handleCommitOffset, hgroup]
    dsimp only
    rw [if_neg hcurrent]
    show some (0, (), GroupCoordinatorManager.mk (s.manager.groups.insert "g"
        { st with committedOffsets := st.committedOffsets.insert ⟨"t", 0⟩ offset })
      s.manager.topicPartitions ((s.manager.commitCount + n + 1) % 2 ^ 64)) = _
    rw [hgroups, hcount]
    rfl
  have hunlocked : (s.again offset n).locked = false := hlock
  rw [commitG, System.step, hunlocked, if_neg Bool.false_ne_true, hcommit]
  rfl

variable {P : System Unit → Label → Prop}

theorem exec_again (s : System Unit) (offset n : Nat)
    (h : Repeats s offset) (hlt : s.manager.commitCount + n < 2 ^ 64)
    (hP : ∀ j < n, P (s.again offset j) (commitG offset)) :
    Along (System.step takesAll) P s (List.replicate n (commitG offset)) ∧
      exec (System.step takesAll) s (List.replicate n (commitG offset)) =
        some (s.again offset n) := by
  have hrun : Along (System.step takesAll) P (s.again offset 0)
      (replicate n (commitG offset)) ∧ exec (System.step takesAll) (s.again offset 0)
        (replicate n (commitG offset)) = some (s.again offset (0 + n)) :=
    exec_replicate fun j _ hj => ⟨hP j (by omega), step_again h (by omega)⟩
  rw [Nat.zero_add] at hrun
  exact hrun

def firstCommits : List Label :=
  [joinG, commitG 1] ++ List.replicate 19999 (commitG 1)

def afterFirstCommits : System Unit :=
  (afterRun (.start ()) [joinG, commitG 1]).again 1 19999

theorem exec_firstCommits (hfirst : Along (System.step takesAll) P (.start ()) [joinG, commitG 1])
    (hP : ∀ j < 19999, P ((afterRun (.start ()) [joinG, commitG 1]).again 1 j) (commitG 1)) :
    Along (System.step takesAll) P (.start ()) firstCommits ∧
      exec (System.step takesAll) (.start ()) firstCommits = some afterFirstCommits := by
  have hstart := exec_afterRun (.start ()) [joinG, commitG 1] (by decide +kernel)
  obtain ⟨halong, hexec⟩ := exec_again _ _ _ (by decide +kernel) (by decide +kernel) hP
  refine ⟨(along_append hstart).mpr ⟨hfirst, halong⟩, ?_⟩
  rw [firstCommits, exec_append, hstart, bind_some, afterFirstCommits]
  exact hexec

theorem latest_snapshot_saved_last_firstCommits :
    ∃ s, exec (System.step takesAll) (.start ()) (firstCommits ++ snapshotRound) = some s ∧
      loadLatestSnapshot (s.files 0) = s.lastSaved 0 ∧
      ∀ n groups, s.lastSaved 0 = some (n, groups) → (s.files 0).get? n = some groups := by
  obtain ⟨halong, hexec⟩ := exec_firstCommits (P := SavesAhead) (by decide +kernel)
    fun _ _ => trivial
  have hround := exec_afterRun afterFirstCommits snapshotRound (by decide +kernel)
  have hrun : exec (System.step takesAll) (.start ()) (firstCommits ++ snapshotRound) =
      some (afterRun afterFirstCommits snapshotRound) := by
    rw [exec_append, hexec, bind_some]
    exact hround
  exact ⟨_, hrun, latest_snapshot_saved_last
    ((along_append hexec).mpr ⟨halong, by decide +kernel⟩) hrun 0⟩

def afterSecondCommits : System Unit :=
  (afterRun afterFirstCommits (snapshotRound ++ [restartAll, commitG 2])).again 2 9999

/-- A first process saves a snapshot at 20000 commits and a second one at 10000; the first is
loaded. -/
theorem stale_snapshot_loaded : ∃ s, exec (System.step takesAll) (.start ()) (firstCommits ++
        (snapshotRound ++ [restartAll, commitG 2] ++
          (List.replicate 9999 (commitG 2) ++ snapshotRound))) = some s ∧
      (loadLatestSnapshot (s.files 0)).map (fun file =>
        (file.1, committedIn file.2 "g" ⟨"t", 0⟩)) = some (20000, some 1) ∧
      (s.lastSaved 0).map (fun file =>
        (file.1, committedIn file.2 "g" ⟨"t", 0⟩)) = some (10000, some 2) := by
  have hfirst := (exec_firstCommits (P := SavesAhead) (by decide +kernel) fun _ _ => trivial).2
  have hrestart := exec_afterRun afterFirstCommits (snapshotRound ++ [restartAll, commitG 2])
    (by decide +kernel)
  have hsecond := (exec_again (P := fun _ _ => True)
    (afterRun afterFirstCommits (snapshotRound ++ [restartAll, commitG 2])) 2 9999
    (by decide +kernel) (by decide +kernel) fun _ _ => trivial).2
  have hround := exec_afterRun afterSecondCommits snapshotRound (by decide +kernel)
  refine ⟨afterRun afterSecondCommits snapshotRound, ?_, by decide +kernel, by decide +kernel⟩
  rw [exec_append, hfirst, bind_some, exec_append, hrestart, bind_some, exec_append,
    hsecond, bind_some]
  exact hround

end RustMq.Group
