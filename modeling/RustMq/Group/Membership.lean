import RustMq.Group.Snapshots

/-!
# Joining, leaving and generations

A run of the coordinator is a list of calls: joins, heartbeats, leaves, commits and rounds of the
reaper, of any groups and members. `Moves` says what a call can do to one group. A join is the only
call that makes an assignment, and it makes one at once, for all members the group has by then. It
begins a new generation unless a leave or the reaper has just begun one.
-/

namespace RustMq.Group

open Lib List SMap GroupCoordinatorManager ConsumerGroupState Option

inductive Call where
  | join (request : JoinGroupRequest) (uuid : String) (now : Nat)
    (allTopics memberIds : List String)
  | heartbeat (request : ConsumerHeartbeatRequest) (now : Nat)
  | leave (request : LeaveGroupRequest)
  | commit (request : CommitOffsetRequest) (timestamps : TopicPartition → Int)
  | reap (now : Nat)

/-- A coordinator and its record log. `answers` are the answers to the joins with their groups, the
last one first; no code reads them. -/
structure Coordinator (L : Type) where
  manager : GroupCoordinatorManager
  log : L
  answers : List (String × JoinGroupResponse)

def GroupCoordinatorManager.group (m : GroupCoordinatorManager) (groupId : String) :
    ConsumerGroupState :=
  (m.groups.get? groupId).getD (.new groupId)

variable {L : Type}

namespace Coordinator

variable (cfg : CoordinatorConfig L)

def start (topicPartitions : SMap String Nat) (log : L) : Coordinator L :=
  ⟨{ GroupCoordinatorManager.new with topicPartitions := topicPartitions }, log, []⟩

def step (s : Coordinator L) : Call → Option (Coordinator L)
  | .join request uuid now allTopics memberIds =>
    (s.manager.handleJoinGroup request uuid now allTopics memberIds).map fun r =>
      { s with manager := r.2, answers := (request.groupId, r.1) :: s.answers }
  | .heartbeat request now => some { s with manager := (s.manager.handleHeartbeat request now).2 }
  | .leave request => some { s with manager := (s.manager.handleLeaveGroup request).2 }
  | .commit request timestamps =>
    (handleCommitOffset cfg s.manager s.log request timestamps).map fun r =>
      { s with manager := r.2.2, log := r.2.1 }
  | .reap now => some { s with manager := s.manager.reap now }

end Coordinator

/-! ## What a call does to a group -/

def JoinGroupRequest.member (request : JoinGroupRequest) (memberId : String) (now : Nat) :
    MemberState :=
  ⟨memberId, request.topics, some now, request.sessionTimeoutMs⟩

def ConsumerGroupState.keeping (st : ConsumerGroupState) (members : SMap String MemberState) :
    ConsumerGroupState :=
  if members.entries = [] then { st with members := members, state := .empty }
  else { st.rebalance with members := members }

@[simp] theorem ConsumerGroupState.members_keeping (st : ConsumerGroupState)
    (members : SMap String MemberState) : (st.keeping members).members = members := by
  rw [keeping]
  split
  · rfl
  · rfl

/-- A group after the join of a member, with the assignment that was made. -/
def ConsumerGroupState.joined (st : ConsumerGroupState) (memberId : String) (member : MemberState)
    (assignment : SMap String (List TopicPartition)) : ConsumerGroupState :=
  { st.prepared with
    members := st.members.insert memberId member
    assignment := assignment
    state := .stable }

@[simp] theorem ConsumerGroupState.members_prepared (st : ConsumerGroupState) :
    st.prepared.members = st.members := by
  rw [prepared]
  split
  · rfl
  · rfl

inductive Moves (topicPartitions : SMap String Nat) (st : ConsumerGroupState) :
    ConsumerGroupState → Prop
  | stays : Moves topicPartitions st st
  | joined {memberId : String} {member : MemberState} {allTopics memberIds : List String}
    (htopics : allTopics.Perm (subscribed (st.members.insert memberId member)))
    (hids : memberIds.Perm (st.members.insert memberId member).keys) :
    Moves topicPartitions st
      (st.joined memberId member (assignAll memberIds (allPartitions topicPartitions allTopics)))
  | beats {memberId : String} {member : MemberState} {heartbeat : Option Nat}
    (hget : st.members.get? memberId = some member) :
    Moves topicPartitions st
      { st with members := st.members.insert memberId { member with lastHeartbeat := heartbeat } }
  /-- The last member is gone. The assignment stays. -/
  | empties {members : SMap String MemberState} (hnone : members.entries = []) :
    Moves topicPartitions st { st with members := members, state := .empty }
  /-- Members are gone, or one left that was none, and others remain. -/
  | shrinks {members : SMap String MemberState}
    (hsub : ∀ id member, members.get? id = some member → st.members.get? id = some member)
    (hsome : members.entries ≠ []) :
    Moves topicPartitions st { st.rebalance with members := members }
  | commits {offsets : Offsets} :
    Moves topicPartitions st { st with committedOffsets := offsets }

variable {groupId : String} {st : ConsumerGroupState} {now : Nat}
  {topicPartitions : SMap String Nat} {m m' : GroupCoordinatorManager} {st' : ConsumerGroupState}

namespace GroupCoordinatorManager

theorem group_insert (id groupId : String) (st : ConsumerGroupState) :
    ({ m with groups := m.groups.insert id st } : GroupCoordinatorManager).group groupId =
      if groupId = id then st else m.group groupId := by
  rw [group, get?_insert]
  split
  · rfl
  · rfl

theorem group_of_get? (h : m.groups.get? groupId = some st) : m.group groupId = st := by
  rw [group, h]
  rfl

theorem handleJoinGroup_eq_some {request : JoinGroupRequest} {uuid : String}
    {allTopics memberIds : List String} {response : JoinGroupResponse}
    (h : m.handleJoinGroup request uuid now allTopics memberIds = some (response, m')) :
    let members := (m.group request.groupId).members.insert response.memberId
      (request.member response.memberId now)
    allTopics.Perm (subscribed members) ∧ memberIds.Perm members.keys ∧
      response.memberId = (if request.memberId = "" then uuid else request.memberId) ∧
      response.generationId = (m.group request.groupId).prepared.generationId ∧
      m' = { m with
        groups := m.groups.insert request.groupId ((m.group request.groupId).joined
          response.memberId (request.member response.memberId now)
          (assignAll memberIds (allPartitions m.topicPartitions allTopics))) } := by
  rw [handleJoinGroup] at h
  obtain ⟨⟨htopics, hids⟩, heq⟩ := ite_none_right_eq_some.mp h
  cases heq
  rw [members_prepared] at htopics hids
  refine ⟨htopics, hids, rfl, rfl, ?_⟩
  simp only [members_prepared]
  rfl

theorem group_reap (m : GroupCoordinatorManager) (now : Nat) (groupId : String) :
    (m.reap now).group groupId = (m.group groupId).reap now := by
  rw [group, reap, get?_mapVals, group]
  cases m.groups.get? groupId with
  | none | some => rfl

end GroupCoordinatorManager

/-- **What a call does to the groups**: each moves, and the numbers of partitions stay. -/
structure GroupsMove (m m' : GroupCoordinatorManager) : Prop where
  topicPartitions : m'.topicPartitions = m.topicPartitions
  moves : ∀ groupId, Moves m.topicPartitions (m.group groupId) (m'.group groupId)

namespace GroupsMove

variable {id : String} {count : Nat}

theorem refl (m : GroupCoordinatorManager) : GroupsMove m m := ⟨rfl, fun _ => .stays⟩

theorem insert (h : Moves m.topicPartitions (m.group id) st') :
    GroupsMove m { m with groups := m.groups.insert id st', commitCount := count } := by
  refine ⟨rfl, fun groupId => ?_⟩
  show Moves _ _ (GroupCoordinatorManager.group { m with groups := m.groups.insert id st' } groupId)
  rw [group_insert]
  split
  · rename_i heq
    rw [heq]
    exact h
  · exact .stays

theorem insert_of_get? (hget : m.groups.get? id = some st) (h : Moves m.topicPartitions st st') :
    GroupsMove m { m with groups := m.groups.insert id st', commitCount := count } :=
  insert ((group_of_get? hget).symm ▸ h)

end GroupsMove

theorem Moves.keeping {members : SMap String MemberState}
    (hsub : ∀ id member, members.get? id = some member → st.members.get? id = some member) :
    Moves topicPartitions st (st.keeping members) := by
  rw [ConsumerGroupState.keeping]
  split
  · rename_i hnone
    exact .empties hnone
  · rename_i hsome
    exact .shrinks hsub hsome

theorem ConsumerGroupState.reap_cases (now : Nat) (st : ConsumerGroupState) :
    st.reap now = st ∨ ∃ members : SMap String MemberState,
      (∀ id member, members.get? id = some member → st.members.get? id = some member) ∧
      st.reap now = st.keeping members := by
  rw [reap]
  split
  · exact .inl rfl
  · exact .inr ⟨_, fun _ _ h => of_get?_filterKeys h, rfl⟩

/-! ## What a step can do -/

section steps

variable {cfg : CoordinatorConfig L}

inductive Coordinator.Step (cfg : CoordinatorConfig L) (s : Coordinator L) :
    Call → Coordinator L → Prop
  /-- A heartbeat or a leave that is answered with an error. -/
  | refused {call : Call} : Step cfg s call s
  | join {request : JoinGroupRequest} {uuid : String} {now : Nat}
    {allTopics memberIds : List String} {response : JoinGroupResponse}
    {m' : GroupCoordinatorManager}
    (h : s.manager.handleJoinGroup request uuid now allTopics memberIds = some (response, m')) :
    Step cfg s (.join request uuid now allTopics memberIds)
      { s with manager := m', answers := (request.groupId, response) :: s.answers }
  | heartbeat {request : ConsumerHeartbeatRequest} {now : Nat} {st : ConsumerGroupState}
    {member : MemberState} (hget : s.manager.groups.get? request.groupId = some st)
    (hmember : st.members.get? request.memberId = some member) :
    Step cfg s (.heartbeat request now) { s with
      manager := { s.manager with
        groups := s.manager.groups.insert request.groupId { st with
          members :=
            st.members.insert request.memberId { member with lastHeartbeat := some now } } } }
  | leave {request : LeaveGroupRequest} {st : ConsumerGroupState}
    (hget : s.manager.groups.get? request.groupId = some st) :
    Step cfg s (.leave request) { s with
      manager := { s.manager with
        groups := s.manager.groups.insert request.groupId
          (st.keeping (st.members.erase request.memberId)) } }
  | commit {request : CommitOffsetRequest} {timestamps : TopicPartition → Int} {code : Nat}
    {log' : L} {m' : GroupCoordinatorManager}
    (h : CommitStep cfg s.manager s.log request timestamps code log' m') :
    Step cfg s (.commit request timestamps) { s with manager := m', log := log' }
  | reap {now : Nat} : Step cfg s (.reap now) { s with manager := s.manager.reap now }

variable {s s' : Coordinator L} {call : Call}

theorem Coordinator.step_cases (h : s.step cfg call = some s') : s.Step cfg call s' := by
  cases call with
  | join request uuid now allTopics memberIds =>
    obtain ⟨⟨response, m'⟩, hjoin, rfl⟩ := map_eq_some_iff.mp h
    exact .join hjoin
  | heartbeat request now =>
    cases h
    rw [GroupCoordinatorManager.handleHeartbeat]
    split
    · exact .refused
    · rename_i st hget
      split
      · exact .refused
      · split
        · exact .refused
        · split
          · exact .refused
          · rename_i member hmember
            exact .heartbeat hget hmember
  | leave request =>
    cases h
    rw [GroupCoordinatorManager.handleLeaveGroup]
    split
    · exact .refused
    · rename_i st hget
      exact .leave hget
  | commit request timestamps =>
    obtain ⟨⟨code, log', m'⟩, hcommit, rfl⟩ := map_eq_some_iff.mp h
    exact .commit (handleCommitOffset_cases hcommit)
  | reap now =>
    cases h
    exact .reap

theorem Coordinator.Step.groupsMove (h : s.Step cfg call s') : GroupsMove s.manager s'.manager := by
  cases h with
  | refused => exact .refl _
  | join hjoin =>
    obtain ⟨htopics, hids, -, -, rfl⟩ := handleJoinGroup_eq_some hjoin
    exact .insert (.joined htopics hids)
  | heartbeat hget hmember => exact .insert_of_get? hget (.beats hmember)
  | leave hget => exact .insert_of_get? hget (.keeping fun _ _ h => of_get?_erase h)
  | commit hcommit =>
    cases hcommit with
    | refused hcode => exact .refl _
    | failed hget hgeneration hentries => exact .insert_of_get? hget .commits
    | acknowledged hget hgeneration hentries => exact .insert_of_get? hget .commits
  | reap =>
    refine ⟨rfl, fun groupId => ?_⟩
    rw [group_reap]
    rcases reap_cases _ (s.manager.group groupId) with heq | ⟨members, hsub, heq⟩
    · rw [heq]
      exact .stays
    · rw [heq]
      exact .keeping hsub

theorem Coordinator.Step.answers (h : s.Step cfg call s') :
    s'.answers = s.answers ∨ ∃ groupId response, s'.answers = (groupId, response) :: s.answers ∧
      response.generationId = (s.manager.group groupId).prepared.generationId ∧
      (s'.manager.group groupId).state = .stable ∧
      (s'.manager.group groupId).generationId = response.generationId := by
  cases h with
  | @join request _ _ _ _ response _ hjoin =>
    obtain ⟨-, -, -, hgeneration, rfl⟩ := handleJoinGroup_eq_some hjoin
    refine .inr ⟨request.groupId, response, rfl, hgeneration, ?_⟩
    simp only [group_insert, if_pos]
    exact ⟨rfl, hgeneration.symm⟩
  | refused | heartbeat | leave | commit | reap => exact .inl rfl

end steps

/-! ## Generations -/

def GroupState.Live (state : GroupState) : Prop :=
  state = .empty ∨ state = .stable ∨ state = .preparingRebalance

/-- An assignment of generation `k` may have been made already. The generation of a rebalance has
none before the next join. -/
def ConsumerGroupState.Past (st : ConsumerGroupState) (k : Nat) : Prop :=
  k ≤ st.generationId ∧ (st.state = .preparingRebalance → k < st.generationId)

theorem succ_mod_of_le {n : Nat} (h : n ≤ (n + 1) % 2 ^ 64) : (n + 1) % 2 ^ 64 = n + 1 := by
  omega

theorem ConsumerGroupState.generationId_prepared (hlive : st.state.Live)
    (hle : st.generationId ≤ st.prepared.generationId) :
    st.prepared.generationId =
      if st.state = .preparingRebalance then st.generationId else st.generationId + 1 := by
  rw [prepared] at hle ⊢
  rcases hlive with h | h | h
  · rw [if_pos (.inl h)] at hle ⊢
    rw [h]
    exact succ_mod_of_le hle
  · rw [if_pos (.inr h)] at hle ⊢
    rw [h]
    exact succ_mod_of_le hle
  · simp [h]

theorem ConsumerGroupState.Past.lt_prepared {k : Nat} (h : st.Past k) (hlive : st.state.Live)
    (hle : st.generationId ≤ st.prepared.generationId) : k < st.prepared.generationId := by
  rw [generationId_prepared hlive hle]
  split
  · rename_i hstate
    exact h.2 hstate
  · exact Nat.lt_succ_of_le h.1

namespace Moves

variable (h : Moves topicPartitions st st')
include h

theorem live (hlive : st.state.Live) : st'.state.Live := by
  cases h with
  | stays | beats | commits => exact hlive
  | joined => exact .inr (.inl rfl)
  | empties => exact .inl rfl
  | shrinks => exact .inr (.inr rfl)

theorem generationId_le (hlt : st.generationId + 1 < 2 ^ 64) :
    st.generationId ≤ st'.generationId := by
  cases h with
  | stays | beats | empties | commits => exact Nat.le_refl _
  | joined =>
    show _ ≤ st.prepared.generationId
    rw [ConsumerGroupState.prepared]
    split
    · exact (Nat.le_succ _).trans (Nat.mod_eq_of_lt hlt).ge
    · exact Nat.le_refl _
  | shrinks => exact (Nat.le_succ _).trans (Nat.mod_eq_of_lt hlt).ge

theorem past (hlive : st.state.Live) (hle : st.generationId ≤ st'.generationId) {k : Nat}
    (hk : st.Past k) : st'.Past k := by
  cases h with
  | stays | beats | commits => exact hk
  | empties => exact ⟨hk.1, nofun⟩
  | joined => exact ⟨(hk.lt_prepared hlive hle).le, nofun⟩
  | shrinks =>
    have hgeneration : st.rebalance.generationId = st.generationId + 1 := succ_mod_of_le hle
    have hlater : k < st.rebalance.generationId := hgeneration ▸ Nat.lt_succ_of_le hk.1
    exact ⟨hlater.le, fun _ => hlater⟩

end Moves

section runs

variable {cfg : CoordinatorConfig L} {s : Coordinator L}

variable (cfg) in
/-- No `generation_id += 1` of the group overflows in the call. With overflow checks it would panic;
without them the generation falls to 0. -/
def Coordinator.NoOverflow (groupId : String) (s : Coordinator L) (call : Call) : Prop :=
  ∀ s', s.step cfg call = some s' →
    (s.manager.group groupId).generationId ≤ (s'.manager.group groupId).generationId

structure Coordinator.Fresh (s : Coordinator L) (groupId : String) : Prop where
  live : (s.manager.group groupId).state.Live
  past : ∀ response, (groupId, response) ∈ s.answers →
    (s.manager.group groupId).Past response.generationId
  distinct : s.answers.Pairwise fun a b =>
    a.1 = groupId → b.1 = groupId → a.2.generationId ≠ b.2.generationId

theorem Coordinator.fresh_start (topicPartitions : SMap String Nat) (log : L) (groupId : String) :
    (start topicPartitions log).Fresh groupId :=
  ⟨.inl rfl, nofun, .nil⟩

theorem Coordinator.Fresh.step {s' : Coordinator L} {call : Call} (h : s.Fresh groupId)
    (hle : (s.manager.group groupId).generationId ≤ (s'.manager.group groupId).generationId)
    (hstep : s.Step cfg call s') : s'.Fresh groupId := by
  have hmoves := hstep.groupsMove.moves groupId
  have hlive := hmoves.live h.live
  have hpast : ∀ response, (groupId, response) ∈ s.answers →
      (s'.manager.group groupId).Past response.generationId := fun response hmem =>
    hmoves.past h.live hle (h.past response hmem)
  rcases hstep.answers with heq | ⟨joined, response, heq, hgeneration, hstable, hlast⟩
  · rw [← heq] at hpast
    exact ⟨hlive, hpast, heq ▸ h.distinct⟩
  · refine ⟨hlive, fun response' hmem => ?_, ?_⟩
    · rw [heq] at hmem
      rcases mem_cons.mp hmem with hnew | hold
      · cases hnew
        exact ⟨hlast.ge, fun hstate => absurd (hstate.symm.trans hstable) nofun⟩
      · exact hpast response' hold
    · rw [heq]
      refine pairwise_cons.mpr ⟨?_, h.distinct⟩
      -- the older answers of the group are of the past, and the new generation is not
      rintro ⟨groupId', response'⟩ hmem hjoined hgroup
      cases hjoined
      cases hgroup
      rw [hlast, hgeneration] at hle
      have hlater := (h.past response' hmem).lt_prepared h.live hle
      rw [hgeneration]
      exact hlater.ne'

/-- **The generations of the answers differ**, in every run in which those of the group do not
overflow. -/
theorem Coordinator.fresh_of_exec {log : L} {calls : List Call}
    (hexec : exec (step cfg) (start topicPartitions log) calls = some s)
    (hover : Along (step cfg) (NoOverflow cfg groupId) (start topicPartitions log) calls) :
    s.Fresh groupId := by
  refine exec_invariant (I := fun s : Coordinator L => s.Fresh groupId) ?_
    (fresh_start topicPartitions log groupId) hover hexec
  intro s call s' h hle hstep
  exact h.step (hle s' hstep) (step_cases hstep)

/-! ## Groups that are stable -/

def Coordinator.latest (s : Coordinator L) (groupId memberId : String) : Option Nat :=
  (s.answers.find? fun a => a.1 = groupId ∧ a.2.memberId = memberId).map fun a => a.2.generationId

/-- A heartbeat with the generation of the latest answer is answered with 0. -/
def Coordinator.UpToDate (s : Coordinator L) (groupId memberId : String) : Prop :=
  ∃ generation, s.latest groupId memberId = some generation ∧
    ∀ now, (s.manager.handleHeartbeat ⟨groupId, memberId, generation⟩ now).1 = 0

theorem GroupCoordinatorManager.handleHeartbeat_eq_zero_iff {request : ConsumerHeartbeatRequest} :
    (m.handleHeartbeat request now).1 = 0 ↔ ∃ st, m.groups.get? request.groupId = some st ∧
      st.state ≠ .preparingRebalance ∧ st.generationId = request.generationId ∧
      request.memberId ∈ st.members.keys := by
  rw [handleHeartbeat]
  cases hget : m.groups.get? request.groupId with
  | none => simp
  | some st =>
    simp only [some.injEq, exists_eq_left']
    split
    · rename_i hstate
      simp [hstate]
    · rename_i hstate
      split
      · rename_i hgeneration
        simp [hgeneration]
      · rename_i hgeneration
        rw [SMap.mem_keys]
        cases st.members.get? request.memberId with
        | none => simp
        | some member => simp [hstate, not_not.mp hgeneration]

/-- **No two members are up to date.** -/
theorem Coordinator.Fresh.eq_of_upToDate (h : s.Fresh groupId) {a b : String}
    (ha : s.UpToDate groupId a) (hb : s.UpToDate groupId b) : a = b := by
  have hanswer : ∀ {id : String}, s.UpToDate groupId id → ∃ response, (groupId, response) ∈ s.answers ∧
      response.memberId = id ∧
      response.generationId = (s.manager.group groupId).generationId := by
    rintro id ⟨generation, hlatest, hbeat⟩
    obtain ⟨⟨groupId', response⟩, hfind, rfl⟩ := map_eq_some_iff.mp hlatest
    have hfound := find?_some hfind
    simp only [decide_eq_true_eq] at hfound
    obtain ⟨rfl, rfl⟩ := hfound
    obtain ⟨st, hget, -, hgeneration, -⟩ :=
      handleHeartbeat_eq_zero_iff.mp (hbeat 0)
    refine ⟨response, mem_of_find?_eq_some hfind, rfl, ?_⟩
    rw [group_of_get? hget]
    exact hgeneration.symm
  obtain ⟨ra, hra, rfl, hga⟩ := hanswer ha
  obtain ⟨rb, hrb, rfl, hgb⟩ := hanswer hb
  by_contra hne
  have hsymm : Std.Symm fun a b : String × JoinGroupResponse =>
      a.1 = groupId → b.1 = groupId → a.2.generationId ≠ b.2.generationId :=
    ⟨fun _ _ hab hb ha => (hab ha hb).symm⟩
  refine h.distinct.forall hra hrb ?_ rfl rfl (hga.trans hgb.symm)
  intro heq
  cases heq
  exact hne rfl

variable (cfg) in
theorem Coordinator.exists_join (s : Coordinator L) (request : JoinGroupRequest) (uuid : String)
    (now : Nat) : ∃ allTopics memberIds s',
      s.step cfg (.join request uuid now allTopics memberIds) = some s' ∧
      s'.UpToDate request.groupId (if request.memberId = "" then uuid else request.memberId) := by
  have hjoin : ∃ allTopics memberIds r,
      s.manager.handleJoinGroup request uuid now allTopics memberIds = some r :=
    ⟨_, _, _, if_pos ⟨.refl _, .refl _⟩⟩
  obtain ⟨allTopics, memberIds, ⟨response, m'⟩, hjoin⟩ := hjoin
  obtain ⟨-, -, hid, hgeneration, rfl⟩ := handleJoinGroup_eq_some hjoin
  refine ⟨allTopics, memberIds, _, map_eq_some_iff.mpr ⟨_, hjoin, rfl⟩,
    response.generationId, ?_, fun later => ?_⟩
  · rw [← hid, latest, find?_cons_of_pos (by simp)]
    rfl
  · refine handleHeartbeat_eq_zero_iff.mpr ⟨_, get?_insert_self _ _ _, nofun, hgeneration.symm,
        mem_keys.mpr ⟨request.member response.memberId now, ?_⟩⟩
    rw [← hid]
    exact get?_insert_self _ _ _

def JoinOf (groupId : String) (ids : Finset String) (topics : String → List String) : Call → Prop
  | .join request uuid _ _ _ =>
    let memberId := if request.memberId = "" then uuid else request.memberId
    request.groupId = groupId ∧ memberId ∈ ids ∧ request.topics = topics memberId
  | _ => False

/-- **A group can become stable exactly when it has at most one member**, as long as its generations
do not overflow. -/
theorem stable_iff_card_le_one {topicPartitions : SMap String Nat} {log : L} {calls : List Call}
    {s : Coordinator L} {groupId : String}
    (hexec : exec (Coordinator.step cfg) (.start topicPartitions log) calls = some s)
    (hover : Along (Coordinator.step cfg) (Coordinator.NoOverflow cfg groupId)
      (.start topicPartitions log) calls)
    (hlt : (s.manager.group groupId).generationId + 1 < 2 ^ 64) (ids : Finset String)
    (topics : String → List String) :
    (∃ joins t, (∀ call ∈ joins, JoinOf groupId ids topics call) ∧
      Along (Coordinator.step cfg) (Coordinator.NoOverflow cfg groupId) s joins ∧
      exec (Coordinator.step cfg) s joins = some t ∧ ∀ id ∈ ids, t.UpToDate groupId id) ↔
      ids.card ≤ 1 := by
  constructor
  · rintro ⟨joins, t, -, hover', hjoins, hall⟩
    have hrun :
        exec (Coordinator.step cfg) (.start topicPartitions log) (calls ++ joins) = some t := by
      rw [exec_append, hexec]
      exact hjoins
    have hfresh := Coordinator.fresh_of_exec hrun ((along_append hexec).mpr ⟨hover, hover'⟩)
    exact Finset.card_le_one.mpr fun a ha b hb => hfresh.eq_of_upToDate (hall a ha) (hall b hb)
  · intro hcard
    obtain ⟨id, hsub⟩ := Finset.card_le_one_iff_subset_singleton.mp hcard
    by_cases hid : id ∈ ids
    · obtain ⟨allTopics, memberIds, t, hstep, hdone⟩ :=
        s.exists_join cfg ⟨groupId, id, 0, topics id⟩ id 0
      simp only [ite_self] at hdone
      refine ⟨[.join ⟨groupId, id, 0, topics id⟩ id 0 allTopics memberIds], t,
        forall_mem_singleton.mpr ?_, ⟨fun s' hs' => ?_, fun _ _ => trivial⟩, ?_,
        fun a ha => ?_⟩
      · simp [JoinOf, hid]
      · exact ((Coordinator.step_cases hs').groupsMove.moves groupId).generationId_le hlt
      · rw [exec, hstep]
        rfl
      · rw [Finset.mem_singleton.mp (hsub ha)]
        exact hdone
    · refine ⟨[], s, forall_mem_nil _, trivial, rfl, fun a ha => ?_⟩
      exact absurd (Finset.mem_singleton.mp (hsub ha) ▸ ha) hid

/-- A member of a new group is up to date after its join. -/
theorem single_member_stable : ∃ joins t, (∀ call ∈ joins, JoinOf "g" {"a"} (fun _ => ["t"]) call) ∧
      Along (Coordinator.step takesAll) (Coordinator.NoOverflow takesAll "g") (.start .empty ())
        joins ∧
      exec (Coordinator.step takesAll) (.start .empty ()) joins = some t ∧
      ∀ id ∈ ({"a"} : Finset String), t.UpToDate "g" id :=
  have hexec : exec (Coordinator.step takesAll) (.start .empty ()) [] = some _ := rfl
  (stable_iff_card_le_one hexec trivial (by decide) {"a"} fun _ => ["t"]).mpr (by decide)

/-- **Two members are never stable.** However they join a new group, as long as its generations do not
overflow the heartbeat of one of them is refused. -/
theorem two_members_never_stable :
    ¬ ∃ joins t, (∀ call ∈ joins, JoinOf "g" {"a", "b"} (fun _ => ["t"]) call) ∧
      Along (Coordinator.step takesAll) (Coordinator.NoOverflow takesAll "g") (.start .empty ())
        joins ∧
      exec (Coordinator.step takesAll) (.start .empty ()) joins = some t ∧
      ∀ id ∈ ({"a", "b"} : Finset String), t.UpToDate "g" id := by
  rintro ⟨joins, t, -, hover, hexec, hall⟩
  have heq := (Coordinator.fresh_of_exec hexec hover).eq_of_upToDate (hall "a" (by decide))
    (hall "b" (by decide))
  exact absurd heq (by decide)

end runs

end RustMq.Group
