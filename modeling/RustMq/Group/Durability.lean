import RustMq.Group.Snapshots

/-!
# Commits across restarts

An acknowledged commit is in the record log, in memory, and after the next snapshot in a file. A
new process reads the files and not the record log, so what was committed since the last snapshot
is gone (`commit_lost_by_restart`), and a snapshot is taken only after ten thousand commits.
-/

namespace RustMq.Group

open Lib List Function Option

def lastAcked : List CommitOffsetRequest → String → TopicPartition → Option Nat
  | [], _, _ => none
  | request :: acked, groupId, tp =>
    if groupId = request.groupId then (request.offsets.lookup tp).or (lastAcked acked groupId tp)
    else lastAcked acked groupId tp

section durability

variable {L : Type} (cfg : CoordinatorConfig L)

/-- The record log takes the records of all entries. -/
def CoordinatorConfig.takes (groupId : String) (timestamps : TopicPartition → Int) :
    L → List (Sigma fun _ : TopicPartition => Nat) → Bool
  | _, [] => true
  | log, ⟨tp, offset⟩ :: entries =>
    match cfg.append log (cfg.offsetRecord groupId timestamps tp offset) with
    | some (true, log') => CoordinatorConfig.takes groupId timestamps log' entries
    | _ => false

/-- A commit with several entries is taken whole by the record log, a save succeeds with the counter
ahead of the files, and a crash comes when a snapshot was completed after the last commit and can be
read. -/
def Kept (s : System L) : Label → Prop
  | .commit request timestamps =>
    (request.offsets.entries.length ≤ 1 ∨
      cfg.takes request.groupId timestamps s.log request.offsets.entries = true) ∧
      s.manager.commitCount + request.offsets.entries.length < 2 ^ 64
  | .save written => written = true ∧ s.Ahead
  | .restart loads => (∀ partition < cfg.offsetsPartitionCount, loads partition = true) ∧
    s.manager.commitCount = s.lastSnapshotCommit
  | _ => True

instance (s : System L) (label) : Decidable (Kept cfg s label) := by
  induction label using Label.casesOn <;> dsimp only [Kept] <;> infer_instance

/-! ## The invariant -/

def System.Snapped (s : System L) (groupId : String) : Prop :=
  ∀ tp offset, lastAcked s.acked groupId tp = some offset →
    (s.lastSaved (cfg.partitionFor groupId)).bind (fun file => committedIn file.2 groupId tp) =
      some offset

/-- What the snapshots hold, by where the task is. A task under way has read a counter above the
one of the last snapshot, so nothing is claimed for that one any more. -/
def System.TaskOk (s : System L) : Prop :=
  match s.task with
  | .waiting => s.lastSnapshotCommit ≤ s.manager.commitCount ∧
    (s.manager.commitCount = s.lastSnapshotCommit → ∀ groupId, s.Snapped cfg groupId)
  | .loaded current => s.lastSnapshotCommit < current ∧ current ≤ s.manager.commitCount
  | .saving current partition =>
    (s.lastSnapshotCommit < current ∧ current ≤ s.manager.commitCount) ∧
      (s.manager.commitCount = current →
        ∀ groupId, cfg.partitionFor groupId < partition → s.Snapped cfg groupId)
  | .cleaning current _ =>
    (s.lastSnapshotCommit < current ∧ current ≤ s.manager.commitCount) ∧
      (s.manager.commitCount = current → ∀ groupId, s.Snapped cfg groupId)

structure System.Durable (s : System L) : Prop where
  acked : ∀ groupId tp offset, lastAcked s.acked groupId tp = some offset →
    committedIn s.manager.groups groupId tp = some offset
  latest : s.Latest
  /-- The groups of a snapshot are those of its partition. -/
  own : ∀ partition file, s.lastSaved partition = some file →
    ∀ groupId st, file.2.get? groupId = some st → cfg.partitionFor groupId = partition
  task : s.TaskOk cfg

variable {cfg}

theorem get?_partitionGroups (groups : Groups) (partition : Nat) (groupId : String) :
    (cfg.partitionGroups groups partition).get? groupId =
      if cfg.partitionFor groupId = partition then (groups.get? groupId).map .stored else none := by
  rw [CoordinatorConfig.partitionGroups, SMap.get?_mapVals, SMap.get?_filterKeys]
  by_cases hp : cfg.partitionFor groupId = partition
  · rw [if_pos hp, if_pos (decide_eq_true hp)]
  · rw [if_neg hp, if_neg (by simpa using hp)]
    rfl

theorem committedIn_partitionGroups (groups : Groups) (groupId : String) (tp : TopicPartition) :
    committedIn (cfg.partitionGroups groups (cfg.partitionFor groupId)) groupId tp =
      committedIn groups groupId tp := by
  rw [committedIn, get?_partitionGroups, if_pos rfl, committedIn]
  cases groups.get? groupId with
  | none | some => rfl

/-! ## Commits -/

variable {log' : L} {s : System L} {m' : GroupCoordinatorManager} {groupId : String}
  {timestamps : TopicPartition → Int} {request : CommitOffsetRequest} {current partition : Nat}
  {loads : Nat → Bool}

theorem offsets_of_failed {entries : List (Sigma fun _ : TopicPartition => Nat)} {log : L}
    {offsets offsets' : Offsets}
    (hentries : entries.length ≤ 1 ∨ cfg.takes groupId timestamps log entries = true)
    (h : cfg.commitEntries groupId timestamps log offsets entries =
      some (false, log', offsets')) : offsets' = offsets := by
  rcases hentries with hshort | htakes
  · match entries, hshort with
    | [], _ => cases h
    | [⟨tp, offset⟩], _ =>
      simp only [CoordinatorConfig.commitEntries] at h
      split at h
      · cases h
      · cases h
        rfl
      · cases h
  · exfalso
    induction entries generalizing log offsets with
    | nil => cases h
    | cons entry entries ih =>
      obtain ⟨tp, offset⟩ := entry
      rw [CoordinatorConfig.takes] at htakes
      rw [CoordinatorConfig.commitEntries] at h
      split at htakes
      · rename_i log'' happend
        rw [happend] at h
        exact ih h htakes
      · cases htakes

theorem System.TaskOk.commit (h : s.TaskOk cfg) (hlock : s.locked = false)
    (hcount : m'.commitCount = s.manager.commitCount + request.offsets.entries.length) :
    TaskOk cfg { s with manager := m', log := log', acked := request :: s.acked } := by
  -- a request without entries acknowledges nothing
  have hsame : ∀ groupId, m'.commitCount = s.manager.commitCount → s.Snapped cfg groupId →
      Snapped cfg { s with manager := m', log := log', acked := request :: s.acked } groupId := by
    intro groupId heq hsnapped tp offset hacked
    have hnil : request.offsets.entries = [] := eq_nil_of_length_eq_zero (by omega)
    have hlookup : request.offsets.lookup tp = none := by
      rw [AList.lookup, hnil]
      rfl
    refine hsnapped tp offset ?_
    rw [lastAcked, hlookup, none_or, ite_self] at hacked
    exact hacked
  cases htask : s.task with
  | waiting =>
    simp only [TaskOk, htask] at h ⊢
    refine ⟨by omega, fun heq groupId => ?_⟩
    have hold : s.manager.commitCount = s.lastSnapshotCommit := by omega
    exact hsame groupId (by omega) (h.2 hold groupId)
  | loaded current =>
    simp only [TaskOk, htask] at h ⊢
    exact ⟨h.1, by omega⟩
  | saving current partition =>
    rw [locked, htask] at hlock
    cases hlock
  | cleaning current partition =>
    simp only [TaskOk, htask] at h ⊢
    refine ⟨⟨h.1.1, by omega⟩, fun heq groupId => ?_⟩
    have hold : s.manager.commitCount = current := by omega
    exact hsame groupId (by omega) (h.2 hold groupId)

theorem System.TaskOk.of_count (h : s.TaskOk cfg)
    (hcount : m'.commitCount = s.manager.commitCount) :
    TaskOk cfg { s with manager := m', log := log' } := by
  unfold TaskOk at h ⊢
  rw [hcount]
  exact h

theorem System.Durable.keeps (h : s.Durable cfg) (hm : KeepsCommits s.manager m') :
    Durable cfg { s with manager := m', log := log' } := by
  refine ⟨fun groupId tp offset hacked => ?_, h.latest, h.own, h.task.of_count hm.count⟩
  rw [hm.committed]
  exact h.acked groupId tp offset hacked

theorem System.Durable.commit {code : Nat} (h : s.Durable cfg)
    (hkept : Kept cfg s (.commit request timestamps)) (hlock : s.locked = false)
    (hcommit : CommitStep cfg s.manager s.log request timestamps code log' m') :
    Durable cfg { s with
      manager := m'
      log := log'
      acked := if code = 0 then request :: s.acked else s.acked } := by
  obtain ⟨hentries, hlt⟩ := hkept
  cases hcommit with
  | refused hcode =>
    rw [if_neg hcode]
    exact h.keeps (.refl _)
  | failed hget _ hfailed =>
    rw [if_neg Nat.one_ne_zero]
    exact h.keeps (.insert_of_get? hget (offsets_of_failed hentries hfailed))
  | @acknowledged st log' offsets hget _ hacknowledged =>
    have hlookup := lookup_commitEntries request.offsets.nodupKeys hacknowledged
    rw [taken_of_appended hacknowledged] at hlookup
    rw [if_pos rfl]
    refine ⟨fun groupId tp offset hacked => ?_, h.latest, h.own,
      h.task.commit hlock (Nat.mod_eq_of_lt hlt)⟩
    rw [committedIn_insert]
    rw [lastAcked] at hacked
    split
    · rename_i heq
      rw [if_pos heq] at hacked
      show offsets.lookup tp = some offset
      rw [hlookup tp]
      have hentry : dlookup tp request.offsets.entries = request.offsets.lookup tp := rfl
      rw [hentry]
      cases hfound : request.offsets.lookup tp with
      | some o =>
        rw [hfound] at hacked
        exact hacked
      | none =>
        rw [hfound, none_or] at hacked
        have hold := h.acked groupId tp offset hacked
        rw [committedIn, heq, hget] at hold
        exact hold
    · rename_i hne
      rw [if_neg hne] at hacked
      exact h.acked groupId tp offset hacked

/-! ## Saves -/

theorem System.Durable.save (h : s.Durable cfg) (hahead : s.Ahead)
    (htask : s.task = .saving current partition) :
    Durable cfg { s with
      task := .saving current (partition + 1)
      files := Function.update s.files partition ((s.files partition).insert current
        (cfg.partitionGroups s.manager.groups partition))
      lastSaved := Function.update s.lastSaved partition
        (some (current, cfg.partitionGroups s.manager.groups partition)) } := by
  have htaskOk := h.task
  simp only [TaskOk, htask] at htaskOk
  refine ⟨h.acked, h.latest.step (show SavesAhead s (.save true) from hahead) (.save htask), ?_,
    htaskOk.1, fun heq groupId hlt tp offset hacked => ?_⟩
  · intro p file hfile groupId st hget
    simp only [update_apply] at hfile
    split at hfile
    · rename_i hp
      cases hfile
      rw [get?_partitionGroups] at hget
      split at hget
      · rename_i hfor
        exact hfor.trans hp.symm
      · cases hget
    · exact h.own p file hfile groupId st hget
  · simp only [update_apply]
    split
    · rename_i hp
      rw [bind_some, ← hp, committedIn_partitionGroups]
      exact h.acked groupId tp offset hacked
    · rename_i hp
      exact htaskOk.2 heq groupId (by omega) tp offset hacked

theorem System.Durable.skip (h : s.Durable cfg) (htask : s.task = .saving current partition)
    (hnone : (cfg.partitionGroups s.manager.groups partition).entries = []) :
    Durable cfg { s with task := .saving current (partition + 1) } := by
  have htaskOk := h.task
  simp only [TaskOk, htask] at htaskOk
  refine ⟨h.acked, h.latest, h.own, htaskOk.1, fun heq groupId hlt tp offset hacked => ?_⟩
  by_cases hp : cfg.partitionFor groupId = partition
  · exfalso
    have hcommitted : committedIn (cfg.partitionGroups s.manager.groups
        (cfg.partitionFor groupId)) groupId tp = some offset :=
      (committedIn_partitionGroups _ _ _).trans (h.acked groupId tp offset hacked)
    rw [hp] at hcommitted
    obtain ⟨st, hget, -⟩ := bind_eq_some_iff.mp hcommitted
    have hmem := SMap.get?_eq_some_iff.mp hget
    rw [hnone] at hmem
    cases hmem
  · exact htaskOk.2 heq groupId (by omega) tp offset hacked

/-! ## Recovery -/

theorem get?_recover {files : Nat → SnapshotDir} {st : ConsumerGroupState}
    (hother : ∀ partition file, loadLatestSnapshot (files partition) = some file →
      ∀ st', file.2.get? groupId = some st' → cfg.partitionFor groupId = partition)
    (hown : ∃ file, loadLatestSnapshot (files (cfg.partitionFor groupId)) = some file ∧
      file.2.get? groupId = some st) {partitions : List Nat}
    (hloads : ∀ partition ∈ partitions, loads partition = true) :
    ∀ m : GroupCoordinatorManager,
      (cfg.partitionFor groupId ∈ partitions ∨ m.groups.get? groupId = some st) →
      (partitions.foldl (recoverPartition files loads) m).groups.get? groupId = some st := by
  induction partitions with
  | nil =>
    intro m hm
    exact hm.resolve_left not_mem_nil
  | cons partition partitions ih =>
    intro m hm
    refine ih (fun p hp => hloads p (mem_cons_of_mem _ hp)) _ ?_
    rw [recoverPartition, if_pos (hloads partition mem_cons_self)]
    by_cases hp : cfg.partitionFor groupId = partition
    · obtain ⟨file, hfile, hget⟩ := hown
      rw [hp] at hfile
      refine .inr ?_
      rw [hfile]
      show (m.groups.insertAll file.2).get? groupId = some st
      rw [SMap.get?_insertAll, hget]
      rfl
    · refine hm.imp (fun hmem => (mem_cons.mp hmem).resolve_left hp) fun hget => ?_
      split
      · rename_i n groups hfile
        have hnone : groups.get? groupId = none := by
          cases hg : groups.get? groupId with
          | none => rfl
          | some st' => exact absurd (hother partition _ hfile st' hg) hp
        show (m.groups.insertAll groups).get? groupId = some st
        rw [SMap.get?_insertAll, hnone]
        exact hget
      · exact hget

theorem System.Durable.restart (h : s.Durable cfg) (hkept : Kept cfg s (.restart loads)) :
    Durable cfg { s with
      manager := cfg.recoverFromSnapshots s.files loads .new
      task := .waiting
      lastSnapshotCommit := 0 } := by
  obtain ⟨hloads, hcount⟩ := hkept
  have hsnapped : ∀ groupId, s.Snapped cfg groupId := by
    have htaskOk := h.task
    unfold TaskOk at htaskOk
    split at htaskOk
    · exact htaskOk.2 hcount
    · omega
    · omega
    · omega
  refine ⟨fun groupId tp offset hacked => ?_, h.latest, h.own, Nat.zero_le _, fun _ groupId =>
    hsnapped groupId⟩
  obtain ⟨file, hfile, hcommitted⟩ :=
    bind_eq_some_iff.mp (hsnapped groupId tp offset hacked)
  obtain ⟨st, hget, hlookup⟩ := bind_eq_some_iff.mp hcommitted
  have hrecovered :
      (cfg.recoverFromSnapshots s.files loads .new).groups.get? groupId = some st := by
    refine get?_recover (fun partition file' hfile' st' hget' => ?_) ⟨file, ?_, hget⟩
      (fun partition hp => hloads partition (mem_range.mp hp)) _
      (.inl (mem_range.mpr (cfg.partitionFor_lt groupId)))
    · rw [h.latest] at hfile'
      exact h.own partition file' hfile' groupId st' hget'
    · rw [h.latest]
      exact hfile
  rw [committedIn, hrecovered]
  exact hlookup

/-! ## Whole runs -/

theorem System.Durable.step {s' : System L} {label : Label} (h : s.Durable cfg)
    (hkept : Kept cfg s label) (hstep : s.Step cfg label s') : s'.Durable cfg := by
  have htaskOk := h.task
  cases hstep with
  | handle hm => exact h.keeps hm
  | commit hlock hcommit => exact h.commit hkept hlock hcommit
  | load htask hsince =>
    refine { h with task := ?_ }
    simp only [TaskOk]
    omega
  | noGroups htask =>
    simp only [TaskOk, htask] at htaskOk
    refine { h with task := ?_ }
    simp only [TaskOk]
    exact ⟨by omega, fun heq => absurd heq (by omega)⟩
  | lock htask =>
    simp only [TaskOk, htask] at htaskOk
    exact ⟨h.acked, h.latest, h.own, htaskOk, fun _ groupId hlt => absurd hlt (Nat.not_lt_zero _)⟩
  | skip htask hskip =>
    refine h.skip htask (hskip.resolve_right fun hfalse => ?_)
    rw [hkept.1] at hfalse
    cases hfalse
  | save htask => exact h.save hkept.2 htask
  | @unlock current partition htask hdone =>
    simp only [TaskOk, htask] at htaskOk
    exact ⟨h.acked, h.latest, h.own, htaskOk.1, fun heq groupId =>
      htaskOk.2 heq groupId (lt_of_lt_of_le (cfg.partitionFor_lt groupId) hdone)⟩
  | @clean current partition removed htask =>
    have hquiet : SavesAhead s (.clean removed) := trivial
    have hclean : s.Step cfg (.clean removed) _ := .clean htask
    simp only [TaskOk, htask] at htaskOk
    exact ⟨h.acked, h.latest.step hquiet hclean, h.own, htaskOk⟩
  | finish htask =>
    simp only [TaskOk, htask] at htaskOk
    exact ⟨h.acked, h.latest, h.own, htaskOk.1.2, htaskOk.2⟩
  | restart => exact h.restart hkept

theorem System.durable_start (log : L) : (System.start log).Durable cfg := by
  refine ⟨?_, fun _ => rfl, ?_, le_rfl, fun _ groupId tp offset hacked => ?_⟩
  · intro groupId tp offset hacked
    cases hacked
  · intro partition file hfile
    cases hfile
  · cases hacked

/-- **Acknowledged commits survive restarts**, and are what `handle_fetch_offset` returns, in
histories whose steps are `Kept`. -/
theorem acked_offsets_survive {log : L} {labels : List Label} {s : System L}
    (hkept : Along (System.step cfg) (Kept cfg) (.start log) labels)
    (hexec : exec (System.step cfg) (.start log) labels = some s) (request : FetchOffsetRequest)
    {tp : TopicPartition} {offset : Nat} (htp : tp ∈ request.topicPartitions)
    (hacked : lastAcked s.acked request.groupId tp = some offset) :
    (s.manager.handleFetchOffset request).offsets.lookup tp = some offset := by
  have hdurable : s.Durable cfg := exec_invariant (I := System.Durable cfg)
    (fun _ _ _ h hP hs => h.step hP (System.step_cases hs)) (System.durable_start log) hkept hexec
  exact lookup_handleFetchOffset htp (hdurable.acked _ _ _ hacked)

end durability

/-- The process of the twenty thousand commits takes a snapshot and crashes then. -/
theorem acked_offsets_survive_firstCommits : ∃ s, exec (System.step takesAll) (.start ())
        (firstCommits ++ (snapshotRound ++ [restartAll])) = some s ∧
      (s.manager.handleFetchOffset ⟨"g", [⟨"t", 0⟩]⟩).offsets.lookup ⟨"t", 0⟩ = some 1 := by
  obtain ⟨halong, hexec⟩ := exec_firstCommits (P := Kept takesAll) (by decide +kernel)
    fun j hj => ⟨.inl le_rfl, by
      show 1 + j + 1 < 2 ^ 64
      omega⟩
  have hround := exec_afterRun afterFirstCommits (snapshotRound ++ [restartAll]) (by decide +kernel)
  have hrun : exec (System.step takesAll) (.start ())
      (firstCommits ++ (snapshotRound ++ [restartAll])) =
      some (afterRun afterFirstCommits (snapshotRound ++ [restartAll])) := by
    rw [exec_append, hexec, bind_some]
    exact hround
  exact ⟨_, hrun, acked_offsets_survive ((along_append hexec).mpr ⟨halong, by decide +kernel⟩) hrun
    ⟨"g", [⟨"t", 0⟩]⟩ (mem_singleton_self _) (by decide +kernel)⟩

/-- A commit is answered with 0 and the process crashes: the new one does not know the group. -/
theorem commit_lost_by_restart :
    (exec (System.step takesAll) (.start ()) [joinG, commitG 5, restartAll]).map (fun s =>
      (lastAcked s.acked "g" ⟨"t", 0⟩, (s.manager.handleFetchOffset ⟨"g", [⟨"t", 0⟩]⟩).errorCode,
        (s.manager.handleFetchOffset ⟨"g", [⟨"t", 0⟩]⟩).offsets.lookup ⟨"t", 0⟩)) =
      some (some 5, 16, none) := by
  decide +kernel

end RustMq.Group
