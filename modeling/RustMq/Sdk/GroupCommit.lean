import RustMq.Group.Membership
import RustMq.Sdk.OffsetTracker

/-!
# Commits of an SDK consumer

`Consumer::subscribe` joins the group and takes its partitions from the answer; the generation in
the answer is not kept. `Consumer::commit` sends generation 1. The coordinator takes a commit of the
current generation only, so it takes the consumer's while the group is in its first generation, and
refuses all later ones (`commit_accepted_iff`).
-/

namespace RustMq.Sdk

open Lib RustMq.Group

/-- A consumer of a group. `partitions` is its partition assignment. -/
structure GroupConsumer where
  id : String
  consumerGroup : String
  topic : String
  offsetTracker : OffsetTracker
  partitions : Option (List Nat)

def OffsetTracker.getAllCommittedOffsets (t : OffsetTracker) : SMap Nat Nat := t.committedOffsets

namespace GroupConsumer

variable {L : Type} (cfg : CoordinatorConfig L) (c : GroupConsumer)

def joinRequest : JoinGroupRequest := ⟨c.consumerGroup, c.id, 30000, [c.topic]⟩

def binaryOffsets (entries : List (Nat × Nat)) : Offsets :=
  entries.foldl (fun offsets e => offsets.insert ⟨c.topic, e.1⟩ e.2) ∅

def commitRequest (entries : List (Nat × Nat)) : CommitOffsetRequest :=
  ⟨c.consumerGroup, c.id, 1, c.binaryOffsets entries⟩

/-- `commit` against a coordinator. The connection and the bytes of the request work. -/
def commit (entries : List (Nat × Nat)) (m : GroupCoordinatorManager) (log : L)
    (timestamps : TopicPartition → Int) :
    Option (Except String Unit × L × GroupCoordinatorManager) :=
  if entries.Perm c.offsetTracker.getAllCommittedOffsets.entries then
    if entries = [] then some (.ok (), log, m)
    else
      (handleCommitOffset cfg m log (c.commitRequest entries) timestamps).map fun r =>
        if r.1 = 0 then (.ok (), r.2)
        else (.error ("Commit failed with error code: " ++ toString r.1), r.2)
  else none

end GroupConsumer

section commits

variable {L : Type} {cfg : CoordinatorConfig L}

theorem exists_commitEntries (hlog : ∀ log record, ∃ log', cfg.append log record = some (true, log'))
    (groupId : String) (timestamps : TopicPartition → Int)
    (entries : List (Sigma fun _ : TopicPartition => Nat)) (log : L) (offsets : Offsets) :
    ∃ r, cfg.commitEntries groupId timestamps log offsets entries = some (true, r) := by
  induction entries generalizing log offsets with
  | nil => exact ⟨_, rfl⟩
  | cons entry entries ih =>
    obtain ⟨log', happend⟩ := hlog log (cfg.offsetRecord groupId timestamps entry.1 entry.2)
    obtain ⟨r, hr⟩ := ih log' (offsets.insert entry.1 entry.2)
    refine ⟨r, ?_⟩
    rw [CoordinatorConfig.commitEntries, happend]
    exact hr

theorem exists_handleCommitOffset
    (hlog : ∀ log record, ∃ log', cfg.append log record = some (true, log'))
    {m : GroupCoordinatorManager} {request : CommitOffsetRequest} {st : ConsumerGroupState}
    (hget : m.groups.get? request.groupId = some st) (log : L)
    (timestamps : TopicPartition → Int) :
    ∃ r, handleCommitOffset cfg m log request timestamps =
      some (if st.generationId = request.generationId then 0 else 22, r) := by
  obtain ⟨⟨log', offsets⟩, hentries⟩ := exists_commitEntries hlog request.groupId timestamps
    request.offsets.entries log st.committedOffsets
  rw [handleCommitOffset, hget]
  by_cases hgeneration : st.generationId = request.generationId
  · rw [if_pos hgeneration]
    simp only [ne_eq, hgeneration, not_true_eq_false, if_false, hentries, if_true]
    exact ⟨_, rfl⟩
  · rw [if_neg hgeneration]
    exact ⟨_, if_pos hgeneration⟩

/-- **A commit is accepted exactly in generation 1**, or when there is nothing to commit. -/
theorem commit_accepted_iff {s : Coordinator L} {c : GroupConsumer}
    (hmember : c.id ∈ (s.manager.group c.consumerGroup).members.keys)
    (hlatest : s.latest c.consumerGroup c.id = some (s.manager.group c.consumerGroup).generationId)
    (hlog : ∀ log record, ∃ log', cfg.append log record = some (true, log'))
    {entries : List (Nat × Nat)}
    (hentries : entries.Perm c.offsetTracker.getAllCommittedOffsets.entries)
    (timestamps : TopicPartition → Int) :
    (∃ r, c.commit cfg entries s.manager s.log timestamps = some (.ok (), r)) ↔
      entries = [] ∨ s.latest c.consumerGroup c.id = some 1 := by
  have hget : ∃ st, s.manager.groups.get? c.consumerGroup = some st := by
    cases hget : s.manager.groups.get? c.consumerGroup with
    | some st => exact ⟨st, rfl⟩
    | none =>
      rw [GroupCoordinatorManager.group, hget] at hmember
      cases hmember
  obtain ⟨st, hget⟩ := hget
  obtain ⟨r, hcommit⟩ : ∃ r, handleCommitOffset cfg s.manager s.log (c.commitRequest entries)
      timestamps = some (if st.generationId = 1 then 0 else 22, r) :=
    exists_handleCommitOffset hlog hget s.log timestamps
  rw [hlatest, GroupCoordinatorManager.group_of_get? hget, Option.some.injEq,
    GroupConsumer.commit, if_pos hentries]
  by_cases hnone : entries = []
  · rw [if_pos hnone]
    exact iff_of_true ⟨_, rfl⟩ (Or.inl hnone)
  · rw [if_neg hnone, hcommit, Option.map_some, or_iff_right hnone]
    by_cases hgeneration : st.generationId = 1
    · rw [if_pos hgeneration]
      exact iff_of_true ⟨r, rfl⟩ hgeneration
    · rw [if_neg hgeneration]
      refine iff_of_false (fun haccepted => ?_) hgeneration
      obtain ⟨r', hr'⟩ := haccepted
      cases hr'

end commits

def consumerA : GroupConsumer :=
  ⟨"a", "g", "t", OffsetTracker.new.setCommittedOffset 0 5, none⟩

/-- The only member of a new group has its commit accepted. -/
theorem first_commit_accepted : ∃ s, exec (Coordinator.step takesAll) (.start .empty ())
        [.join consumerA.joinRequest "" 0 ["t"] ["a"]] = some s ∧
      ∃ r, consumerA.commit takesAll [(0, 5)] s.manager s.log (fun _ => 0) = some (.ok (), r) := by
  have hrun : (exec (Coordinator.step takesAll) (.start .empty ())
      [.join consumerA.joinRequest "" 0 ["t"] ["a"]]).map (fun s =>
        ((s.manager.group "g").members.keys, s.latest "g" "a",
          (s.manager.group "g").generationId)) = some (["a"], some 1, 1) := by
    decide +kernel
  obtain ⟨s, hexec, hs⟩ := Option.map_eq_some_iff.mp hrun
  obtain ⟨hkeys, hs⟩ := Prod.mk.inj hs
  obtain ⟨hlatest, hgeneration⟩ := Prod.mk.inj hs
  have hmember : "a" ∈ (s.manager.group "g").members.keys := hkeys ▸ List.mem_singleton_self _
  have hcurrent : s.latest "g" "a" = some (s.manager.group "g").generationId :=
    hlatest.trans (congrArg some hgeneration.symm)
  exact ⟨s, hexec, (commit_accepted_iff (c := consumerA) hmember hcurrent (fun _ _ => ⟨(), rfl⟩)
    (by decide) fun _ => 0).mpr (Or.inr hlatest)⟩

/-- **A commit in the second generation is refused**, with error code 22. -/
theorem second_commit_refused : (exec (Coordinator.step takesAll) (.start .empty ())
      [.join ⟨"g", "b", 30000, ["t"]⟩ "" 0 ["t"] ["b"],
        .join consumerA.joinRequest "" 0 ["t"] ["a", "b"]]).map (fun s =>
        ((s.manager.group "g").members.keys, s.latest "g" "a", (s.manager.group "g").generationId,
          (consumerA.commit takesAll [(0, 5)] s.manager s.log fun _ => 0).map Prod.fst)) =
      some (["a", "b"], some 2, 2, some (.error "Commit failed with error code: 22")) := by
  decide +kernel

end RustMq.Sdk
