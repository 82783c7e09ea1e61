import RustMq.Group.Membership

/-!
# Requests of members and of others

A heartbeat checks the group, its state, the generation and the member, in this order. A leave
checks the group only, and a commit the group and the generation. So a leave by anyone begins a
rebalance of the others, and a commit by anyone who knows the generation is taken. A commit inserts
each offset as soon as the record log has taken it, so one that fails has inserted those before.
-/

namespace RustMq.Group

open Lib List

def ConsumerGroupState.content (st : ConsumerGroupState) :
    SMap String MemberState × GroupState × Nat × SMap String (List TopicPartition) ×
      (TopicPartition → Option Nat) :=
  (st.members, st.state, st.generationId, st.assignment, fun tp => st.committedOffsets.lookup tp)

def Untouched (m m' : GroupCoordinatorManager) : Prop :=
  ∀ groupId, (m'.groups.get? groupId).map ConsumerGroupState.content =
    (m.groups.get? groupId).map ConsumerGroupState.content

def GroupCoordinatorManager.IsMember (m : GroupCoordinatorManager) (groupId memberId : String) :
    Prop :=
  ∃ st, m.groups.get? groupId = some st ∧ memberId ∈ st.members.keys

theorem Untouched.refl (m : GroupCoordinatorManager) : Untouched m m := fun _ => rfl

variable {m : GroupCoordinatorManager} {id : String} {st : ConsumerGroupState}
  {request : CommitOffsetRequest} {m' : GroupCoordinatorManager} {code : Nat}

theorem untouched_insert_iff {st' : ConsumerGroupState} {count : Nat}
    (hget : m.groups.get? id = some st) :
    Untouched m { m with groups := m.groups.insert id st', commitCount := count } ↔
      st'.content = st.content := by
  constructor
  · intro h
    have hid := h id
    rw [SMap.get?_insert_self, hget] at hid
    exact Option.some.inj hid
  · intro h groupId
    rw [SMap.get?_insert]
    split
    · rename_i heq
      rw [heq, hget]
      exact congrArg some h
    · rfl

/-! ## Heartbeats and leaves -/

/-- **A heartbeat of a member only.** -/
theorem handleHeartbeat_of_not_isMember {request : ConsumerHeartbeatRequest} (now : Nat)
    (h : ¬ m.IsMember request.groupId request.memberId) :
    (m.handleHeartbeat request now).2 = m := by
  rw [GroupCoordinatorManager.handleHeartbeat]
  split
  · rfl
  · rename_i st hget
    split
    · rfl
    · split
      · rfl
      · split
        · rfl
        · rename_i member hmember
          exact absurd ⟨st, hget, SMap.mem_keys.mpr ⟨member, hmember⟩⟩ h

theorem erase_of_not_mem {members : SMap String MemberState} (h : id ∉ members.keys) :
    members.erase id = members := by
  refine SMap.ext_get? fun a => ?_
  rw [SMap.get?_erase]
  split
  · rename_i heq
    cases hget : members.get? a with
    | none => rfl
    | some member => exact absurd (heq ▸ SMap.mem_keys.mpr ⟨member, hget⟩) h
  · rfl

theorem content_keeping_iff (st : ConsumerGroupState) :
    (st.keeping st.members).content = st.content ↔ st.members.entries = [] ∧ st.state = .empty := by
  rw [ConsumerGroupState.keeping]
  split
  · rename_i hnone
    simp only [ConsumerGroupState.content, Prod.mk.injEq, and_true, true_and, hnone]
    exact eq_comm
  · rename_i hsome
    have hgeneration : (st.generationId + 1) % 2 ^ 64 ≠ st.generationId := by omega
    simp only [ConsumerGroupState.content, ConsumerGroupState.rebalance, Prod.mk.injEq,
      hgeneration, hsome, false_and, and_false]

/-- **A leave of another** changes nothing exactly when the group is empty already. -/
theorem untouched_handleLeaveGroup_iff {request : LeaveGroupRequest}
    (h : ¬ m.IsMember request.groupId request.memberId) :
    Untouched m (m.handleLeaveGroup request).2 ↔ ∀ st, m.groups.get? request.groupId = some st →
        st.members.entries = [] ∧ st.state = .empty := by
  rw [GroupCoordinatorManager.handleLeaveGroup]
  split
  · rename_i hget
    exact iff_of_true (.refl m) fun st hst => by rw [hget] at hst; cases hst
  · rename_i st hget
    have hnot : request.memberId ∉ st.members.keys := fun hmem => h ⟨st, hget, hmem⟩
    have hleave : Untouched m
        { m with groups := m.groups.insert request.groupId (st.keeping st.members) } ↔ _ :=
      untouched_insert_iff hget
    rw [content_keeping_iff] at hleave
    simp only [erase_of_not_mem hnot, hget, Option.some.injEq, forall_eq']
    exact hleave

/-! ## Commits -/

section commits

variable {L : Type} {cfg : CoordinatorConfig L} {timestamps : TopicPartition → Int}

section

variable {groupId : String} {entries : List (Sigma fun _ : TopicPartition => Nat)}
  (hkeys : entries.NodupKeys)
include hkeys

theorem content_commit_iff {log log' : L} {offsets : Offsets} {appended : Bool}
    (h : cfg.commitEntries groupId timestamps log st.committedOffsets entries =
      some (appended, log', offsets)) :
    ({ st with committedOffsets := offsets } : ConsumerGroupState).content = st.content ↔
      ∀ e ∈ cfg.taken groupId timestamps log entries,
        st.committedOffsets.lookup e.1 = some e.2 := by
  have htaken : (cfg.taken groupId timestamps log entries).NodupKeys :=
    .sublist (taken_sublist groupId timestamps entries log) hkeys
  have hlookup := lookup_commitEntries hkeys h
  simp only [ConsumerGroupState.content, Prod.mk.injEq, true_and, funext_iff, hlookup]
  constructor
  · intro hsame e he
    rw [← hsame e.1, mem_dlookup htaken he]
    rfl
  · intro hall tp
    cases hfound : (cfg.taken groupId timestamps log entries).dlookup tp with
    | none => rfl
    | some offset => exact (hall _ (of_mem_dlookup hfound)).symm

end

/-- **A commit** changes nothing exactly when it is refused or what the record log took of it was
committed before. -/
theorem untouched_handleCommitOffset_iff {log log' : L}
    (h : handleCommitOffset cfg m log request timestamps = some (code, log', m')) :
    Untouched m m' ↔ ∀ st, m.groups.get? request.groupId = some st →
      st.generationId = request.generationId →
      ∀ e ∈ cfg.taken request.groupId timestamps log request.offsets.entries,
        st.committedOffsets.lookup e.1 = some e.2 := by
  rw [handleCommitOffset] at h
  cases hget : m.groups.get? request.groupId with
  | none =>
    rw [hget] at h
    cases h
    refine iff_of_true (.refl m) fun st hst => ?_
    cases hst
  | some st =>
    simp only [hget] at h
    simp only [Option.some.injEq, forall_eq']
    split at h
    · rename_i hgeneration
      cases h
      exact iff_of_true (.refl m) fun heq => absurd heq hgeneration
    · rename_i hgeneration
      simp only [not_not.mp hgeneration, true_implies]
      split at h
      · cases h
      · rename_i appended log'' offsets hentries
        rw [← content_commit_iff request.offsets.nodupKeys hentries]
        cases appended with
        | true | false =>
          cases h
          exact untouched_insert_iff hget

/-- **Which requests change a group**: of those of others, and of the commits, failed or not. -/
theorem requests_untouched_iff (m : GroupCoordinatorManager) (log : L) :
    (∀ request now, ¬ m.IsMember request.groupId request.memberId →
      Untouched m (m.handleHeartbeat request now).2) ∧
    (∀ request, ¬ m.IsMember request.groupId request.memberId →
      (Untouched m (m.handleLeaveGroup request).2 ↔ ∀ st, m.groups.get? request.groupId = some st →
          st.members.entries = [] ∧ st.state = .empty)) ∧
    ∀ request timestamps code log' m',
      handleCommitOffset cfg m log request timestamps = some (code, log', m') →
      ¬ m.IsMember request.groupId request.memberId ∨ code ≠ 0 →
      (Untouched m m' ↔ ∀ st, m.groups.get? request.groupId = some st →
        st.generationId = request.generationId →
        ∀ e ∈ cfg.taken request.groupId timestamps log request.offsets.entries,
          st.committedOffsets.lookup e.1 = some e.2) := by
  refine ⟨fun request now h => ?_, fun request h => untouched_handleLeaveGroup_iff h,
    fun request timestamps code log' m' h _ => untouched_handleCommitOffset_iff h⟩
  rw [handleHeartbeat_of_not_isMember now h]
  exact .refl m

end commits

def takesFirst : CoordinatorConfig Nat :=
  ⟨fun _ => 0, 2, by decide, fun taken _ => some (decide (taken = 0), taken + 1)⟩

theorem touched_of_head {log' : Nat} {e : Sigma fun _ : TopicPartition => Nat}
    (h : handleCommitOffset takesFirst m 0 request (fun _ => 0) = some (code, log', m'))
    (hget : m.groups.get? request.groupId = some st)
    (hgeneration : st.generationId = request.generationId)
    (hhead : request.offsets.entries.head? = some e)
    (hnew : st.committedOffsets.lookup e.1 ≠ some e.2) : ¬ Untouched m m' := by
  obtain ⟨entries, hentries⟩ := head?_eq_some_iff.mp hhead
  have htaken : e ∈ takesFirst.taken request.groupId (fun _ => 0) 0 request.offsets.entries := by
    rw [hentries]
    exact mem_cons_self
  exact fun hun => hnew ((untouched_handleCommitOffset_iff h).mp hun st hget hgeneration e htaken)

/-- **Requests that are not fenced**: another member's leave and commit, and a commit that is
answered with an error. -/
theorem requests_not_fenced : ∃ s, exec (Coordinator.step takesFirst) (.start .empty 0)
        [.join ⟨"g", "a", 0, ["t"]⟩ "" 0 ["t"] ["a"]] = some s ∧
      ¬ s.manager.IsMember "g" "x" ∧
      ¬ Untouched s.manager (s.manager.handleLeaveGroup ⟨"g", "x"⟩).2 ∧
      (∃ log' m', handleCommitOffset takesFirst s.manager 0
          ⟨"g", "x", 1, AList.singleton ⟨"t", 0⟩ 5⟩ (fun _ => 0) = some (0, log', m') ∧
        ¬ Untouched s.manager m') ∧
      ∃ log' m', handleCommitOffset takesFirst s.manager 0
          ⟨"g", "a", 1, (AList.singleton ⟨"t", 1⟩ 7).insert ⟨"t", 0⟩ 5⟩ (fun _ => 0) =
            some (1, log', m') ∧
        ¬ Untouched s.manager m' := by
  have hrun : (exec (Coordinator.step takesFirst) (.start .empty 0)
      [.join ⟨"g", "a", 0, ["t"]⟩ "" 0 ["t"] ["a"]]).map (fun s =>
        (s.manager.groups.get? "g").map fun st =>
          (st.generationId, st.members.keys, st.committedOffsets.entries)) =
      some (some (1, ["a"], [])) := by
    decide +kernel
  obtain ⟨s, hexec, hgroup⟩ := Option.map_eq_some_iff.mp hrun
  obtain ⟨st, hget, hst⟩ := Option.map_eq_some_iff.mp hgroup
  obtain ⟨hgeneration, hst⟩ := Prod.mk.inj hst
  obtain ⟨hkeys, hoffsets⟩ := Prod.mk.inj hst
  have hnew : st.committedOffsets.lookup ⟨"t", 0⟩ ≠ some 5 := by
    rw [AList.lookup, hoffsets]
    decide
  have hmember : ¬ s.manager.IsMember "g" "x" := by
    rintro ⟨st', hst', hmem⟩
    rw [hget] at hst'
    cases hst'
    rw [hkeys] at hmem
    exact absurd hmem (by decide)
  refine ⟨s, hexec, hmember, fun h => ?_, ?_, ?_⟩
  · obtain ⟨hentries, -⟩ := (untouched_handleLeaveGroup_iff hmember).mp h st hget
    rw [SMap.keys, hentries] at hkeys
    cases hkeys
  · obtain ⟨log', m', hcommit⟩ : ∃ log' m', handleCommitOffset takesFirst s.manager 0
        ⟨"g", "x", 1, AList.singleton ⟨"t", 0⟩ 5⟩ (fun _ => 0) = some (0, log', m') := by
      simp only [handleCommitOffset, hget, hgeneration]
      exact ⟨_, _, rfl⟩
    exact ⟨log', m', hcommit, touched_of_head hcommit hget hgeneration rfl hnew⟩
  · obtain ⟨log', m', hcommit⟩ : ∃ log' m', handleCommitOffset takesFirst s.manager 0
        ⟨"g", "a", 1, (AList.singleton ⟨"t", 1⟩ 7).insert ⟨"t", 0⟩ 5⟩ (fun _ => 0) =
          some (1, log', m') := by
      simp only [handleCommitOffset, hget, hgeneration]
      exact ⟨_, _, rfl⟩
    exact ⟨log', m', hcommit, touched_of_head hcommit hget hgeneration rfl hnew⟩

end RustMq.Group
