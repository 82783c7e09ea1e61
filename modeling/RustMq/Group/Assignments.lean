import RustMq.Group.Membership
import RustMq.Lib.RoundRobin

/-!
# Assignments

A join deals the partitions of all topics that some member subscribes to round all members. In a
stable group the assignment is the one of the last join, and the members and their topics are as
they were then: so every partition has one owner and the shares are even (`CoversOnce`).
-/

namespace RustMq.Group

open Lib List SMap GroupCoordinatorManager

/-! ## The partitions -/

variable {members : SMap String MemberState} {topicPartitions : SMap String Nat}
  {topics memberIds : List String} {topic id memberId : String} {tp : TopicPartition}
  {member : MemberState} {st : ConsumerGroupState} {m : GroupCoordinatorManager} {L : Type}

theorem mem_subscribed : topic ∈ subscribed members ↔
      ∃ id member, members.get? id = some member ∧ topic ∈ member.subscribedTopics := by
  simp only [subscribed, mem_dedup, mem_flatMap, Prod.exists, get?_eq_some_iff]

theorem nodup_subscribed (members : SMap String MemberState) : (subscribed members).Nodup :=
  nodup_dedup _

theorem mem_allPartitions : tp ∈ allPartitions topicPartitions topics ↔
      tp.topic ∈ topics ∧ tp.partition < (topicPartitions.get? tp.topic).getD 1 := by
  simp only [allPartitions, mem_flatMap, mem_map, mem_range]
  constructor
  · rintro ⟨topic, htopic, p, hp, rfl⟩
    exact ⟨htopic, hp⟩
  · rintro ⟨htopic, hp⟩
    exact ⟨tp.topic, htopic, tp.partition, hp, rfl⟩

theorem nodup_allPartitions (h : topics.Nodup) : (allPartitions topicPartitions topics).Nodup := by
  refine nodup_flatMap.mpr ⟨fun topic _ => ?_, h.imp fun hne => ?_⟩
  · refine nodup_range.map fun p q heq => ?_
    cases heq
    rfl
  · intro tp htp htp'
    obtain ⟨p, -, rfl⟩ := mem_map.mp htp
    obtain ⟨q, -, heq⟩ := mem_map.mp htp'
    cases heq
    exact hne rfl

/-! ## The round -/

theorem assignAll_eq (memberIds : List String) (partitions : List TopicPartition) :
    assignAll memberIds partitions = partitions.zipIdx.foldl
      (SMap.file (fun e => (memberIds[e.2 % memberIds.length]?).getD "") Prod.fst) .empty :=
  rfl

/-- **What the round gives to a member**: the share of its place. -/
theorem get?_assignAll (hids : memberIds.Nodup) (partitions : List TopicPartition) {i : Nat}
    (hi : memberIds[i]? = some id) :
    ((assignAll memberIds partitions).get? id).getD [] = dealt memberIds.length i partitions := by
  rw [assignAll_eq, get?_foldl_file, get?_empty, dealt]
  have hlt : i < memberIds.length := (List.getElem?_eq_some_iff.mp hi).1
  have hplace : ∀ e : TopicPartition × Nat,
      (memberIds[e.2 % memberIds.length]?).getD "" = id ↔ e.2 % memberIds.length = i := by
    intro e
    have hmod : e.2 % memberIds.length < memberIds.length := Nat.mod_lt _ (Nat.zero_lt_of_lt hlt)
    rw [← getElem?_inj hmod hids, hi, getElem?_eq_getElem hmod]
    simp
  simp only [hplace]
  rfl

theorem mem_of_mem_keys_assignAll {partitions : List TopicPartition} (hne : memberIds ≠ [])
    (h : id ∈ (assignAll memberIds partitions).keys) : id ∈ memberIds := by
  rw [assignAll_eq] at h
  rcases mem_keys_foldl_file _ _ h with hmem | ⟨e, -, rfl⟩
  · cases hmem
  · have hlt : e.2 % memberIds.length < memberIds.length :=
      Nat.mod_lt _ (length_pos_iff.mpr hne)
    rw [getElem?_eq_getElem hlt]
    exact getElem_mem hlt

/-! ## Coverage -/

def ConsumerGroupState.assigned (st : ConsumerGroupState) (id : String) : List TopicPartition :=
  (st.assignment.get? id).getD []

def ConsumerGroupState.Wanted (topicPartitions : SMap String Nat) (st : ConsumerGroupState)
    (tp : TopicPartition) : Prop :=
  (∃ id member, st.members.get? id = some member ∧ tp.topic ∈ member.subscribedTopics) ∧
    tp.partition < (topicPartitions.get? tp.topic).getD 1

/-- The assignment covers the partitions, each once, in even shares, and nothing else. -/
structure CoversOnce (topicPartitions : SMap String Nat) (st : ConsumerGroupState) : Prop where
  owner : ∀ tp, st.Wanted topicPartitions tp → ∃! id, id ∈ st.members.keys ∧ tp ∈ st.assigned id
  once : ∀ id, (st.assigned id).Nodup
  members : ∀ id ∈ st.assignment.keys, id ∈ st.members.keys
  wanted : ∀ id, ∀ tp ∈ st.assigned id, st.Wanted topicPartitions tp
  even : ∀ a ∈ st.members.keys, ∀ b ∈ st.members.keys,
    (st.assigned a).length ≤ (st.assigned b).length + 1

structure Assigned (topicPartitions : SMap String Nat) (st : ConsumerGroupState)
    (allTopics memberIds : List String) : Prop where
  topics : allTopics.Nodup
  mem_topics : ∀ topic, topic ∈ allTopics ↔ topic ∈ subscribed st.members
  nonempty : memberIds ≠ []
  ids : memberIds.Nodup
  mem_ids : ∀ id, id ∈ memberIds ↔ id ∈ st.members.keys
  assignment : st.assignment = assignAll memberIds (allPartitions topicPartitions allTopics)

namespace Assigned

variable {allTopics : List String}

/-- **The assignment of a join** is made for the members and topics after it. -/
theorem joined (htopics : allTopics.Perm (subscribed (st.members.insert memberId member)))
    (hids : memberIds.Perm (st.members.insert memberId member).keys) :
    Assigned topicPartitions (st.joined memberId member
      (assignAll memberIds (allPartitions topicPartitions allTopics))) allTopics memberIds := by
  refine ⟨htopics.nodup_iff.mpr (nodup_subscribed _), fun topic => htopics.mem_iff, ?_,
    hids.nodup_iff.mpr (sorted_keys _).nodup, fun id => hids.mem_iff, rfl⟩
  rintro rfl
  have hnone : memberId ∈ ([] : List String) :=
    hids.mem_iff.mpr (mem_keys.mpr ⟨member, get?_insert_self _ _ _⟩)
  cases hnone

variable (h : Assigned topicPartitions st allTopics memberIds)
include h

theorem mem_partitions :
    tp ∈ allPartitions topicPartitions allTopics ↔ st.Wanted topicPartitions tp := by
  rw [mem_allPartitions, h.mem_topics, mem_subscribed]
  rfl

theorem assigned_eq {i : Nat} (hi : memberIds[i]? = some id) :
    st.assigned id = dealt memberIds.length i (allPartitions topicPartitions allTopics) := by
  rw [ConsumerGroupState.assigned, h.assignment, get?_assignAll h.ids _ hi]

theorem mem_of_mem_keys (hid : id ∈ st.assignment.keys) : id ∈ st.members.keys := by
  rw [h.assignment] at hid
  exact (h.mem_ids id).mp (mem_of_mem_keys_assignAll h.nonempty hid)

theorem assigned_cases (id : String) : st.assigned id = [] ∨ ∃ i, memberIds[i]? = some id ∧
      st.assigned id = dealt memberIds.length i (allPartitions topicPartitions allTopics) := by
  rw [ConsumerGroupState.assigned]
  cases hget : st.assignment.get? id with
  | none => exact Or.inl rfl
  | some tps =>
    have hmem := (h.mem_ids id).mpr (h.mem_of_mem_keys (mem_keys.mpr ⟨tps, hget⟩))
    obtain ⟨i, hi⟩ := mem_iff_getElem?.mp hmem
    refine Or.inr ⟨i, hi, ?_⟩
    rw [← h.assigned_eq hi, ConsumerGroupState.assigned, hget]

theorem nodup_partitions : (allPartitions topicPartitions allTopics).Nodup :=
  nodup_allPartitions h.topics

theorem owner (htp : st.Wanted topicPartitions tp) :
    ∃! id, id ∈ st.members.keys ∧ tp ∈ st.assigned id := by
  obtain ⟨i, ⟨hi, hmem⟩, hunique⟩ := existsUnique_dealt (length_pos_iff.mpr h.nonempty)
    h.nodup_partitions (h.mem_partitions.mpr htp)
  have hget : memberIds[i]? = some memberIds[i] := getElem?_eq_getElem hi
  refine ⟨memberIds[i], ⟨(h.mem_ids _).mp (getElem_mem hi), ?_⟩, ?_⟩
  · rw [h.assigned_eq hget]
    exact hmem
  · rintro id ⟨hid, htp⟩
    obtain ⟨j, hj⟩ := mem_iff_getElem?.mp ((h.mem_ids id).mpr hid)
    rw [h.assigned_eq hj] at htp
    obtain rfl := hunique j ⟨(List.getElem?_eq_some_iff.mp hj).1, htp⟩
    exact Option.some.inj (hj.symm.trans hget)

/-- **The round covers the partitions.** -/
theorem coversOnce : CoversOnce topicPartitions st where
  owner _ htp := h.owner htp
  once id := by
    rcases h.assigned_cases id with hnil | ⟨i, -, heq⟩
    · rw [hnil]
      exact nodup_nil
    · rw [heq]
      exact nodup_dealt h.nodup_partitions
  members _ hid := h.mem_of_mem_keys hid
  wanted id tp htp := by
    rcases h.assigned_cases id with hnil | ⟨i, -, heq⟩
    · rw [hnil] at htp
      cases htp
    · rw [heq] at htp
      obtain ⟨j, hj, -⟩ := mem_dealt.mp htp
      exact h.mem_partitions.mp (mem_of_getElem? hj)
  even a ha b hb := by
    obtain ⟨i, hi⟩ := mem_iff_getElem?.mp ((h.mem_ids a).mpr ha)
    obtain ⟨j, hj⟩ := mem_iff_getElem?.mp ((h.mem_ids b).mpr hb)
    rw [h.assigned_eq hi, h.assigned_eq hj]
    exact length_dealt_le (List.getElem?_eq_some_iff.mp hi).1 (List.getElem?_eq_some_iff.mp hj).1

end Assigned

/-! ## Stable groups -/

theorem get?_beats {heartbeat : Option Nat} (hget : members.get? id = some member) (a : String) :
    ((members.insert id { member with lastHeartbeat := heartbeat }).get? a).map
      MemberState.subscribedTopics = (members.get? a).map MemberState.subscribedTopics := by
  rw [get?_insert]
  split
  · rename_i heq
    rw [heq, hget]
    rfl
  · rfl

theorem mem_keys_iff_map : id ∈ members.keys ↔
      ∃ topics, (members.get? id).map MemberState.subscribedTopics = some topics := by
  rw [SMap.mem_keys]
  simp

theorem mem_subscribed_iff_map : topic ∈ subscribed members ↔ ∃ id topics,
      (members.get? id).map MemberState.subscribedTopics = some topics ∧ topic ∈ topics := by
  rw [mem_subscribed]
  simp

def StableAssigned (topicPartitions : SMap String Nat) (st : ConsumerGroupState) : Prop :=
  st.state = .stable → ∃ allTopics memberIds, Assigned topicPartitions st allTopics memberIds

theorem StableAssigned.moves {st' : ConsumerGroupState} (h : StableAssigned topicPartitions st)
    (hmoves : Moves topicPartitions st st') : StableAssigned topicPartitions st' := by
  intro hstable
  cases hmoves with
  | stays => exact h hstable
  | joined htopics hids => exact ⟨_, _, .joined htopics hids⟩
  | @beats memberId member heartbeat hget =>
    obtain ⟨allTopics, memberIds, ha⟩ := h hstable
    refine ⟨allTopics, memberIds, { ha with mem_topics := fun topic => ?_, mem_ids := fun id => ?_ }⟩
    · rw [ha.mem_topics, mem_subscribed_iff_map, mem_subscribed_iff_map]
      simp only [get?_beats hget]
    · rw [ha.mem_ids, mem_keys_iff_map, mem_keys_iff_map]
      simp only [get?_beats hget]
  | empties | shrinks => cases hstable
  | commits =>
    obtain ⟨allTopics, memberIds, ha⟩ := h hstable
    exact ⟨allTopics, memberIds, { ha with }⟩

section runs

variable {cfg : CoordinatorConfig L} {log : L}

/-- **Stable groups cover every partition once**, and no two assignments of a group have the same
generation as long as those of the group do not overflow. -/
theorem stable_groups_cover {calls : List Call} {s : Coordinator L}
    (hexec : exec (Coordinator.step cfg) (.start topicPartitions log) calls = some s) :
    (∀ groupId, (s.manager.group groupId).state = .stable →
      CoversOnce topicPartitions (s.manager.group groupId)) ∧
    ∀ groupId, Along (Coordinator.step cfg) (Coordinator.NoOverflow cfg groupId)
        (.start topicPartitions log) calls →
      s.answers.Pairwise fun a b =>
        a.1 = groupId → b.1 = groupId → a.2.generationId ≠ b.2.generationId := by
  have hinv : s.manager.topicPartitions = topicPartitions ∧
      ∀ groupId, StableAssigned topicPartitions (s.manager.group groupId) := by
    refine exec_invariant_of_step (I := fun s : Coordinator L =>
      s.manager.topicPartitions = topicPartitions ∧
        ∀ groupId, StableAssigned topicPartitions (s.manager.group groupId)) ?_ ⟨rfl, ?_⟩ hexec
    · rintro s call s' ⟨hcounts, h⟩ hstep
      obtain ⟨hkept, hmoves⟩ := (Coordinator.step_cases hstep).groupsMove
      rw [hcounts] at hkept hmoves
      exact ⟨hkept, fun groupId => (h groupId).moves (hmoves groupId)⟩
    · intro groupId hstable
      cases hstable
  refine ⟨fun groupId hstable => ?_,
    fun groupId hover => (Coordinator.fresh_of_exec hexec hover).distinct⟩
  obtain ⟨allTopics, memberIds, hassigned⟩ := hinv.2 groupId hstable
  exact hassigned.coversOnce

/-- Two members of a topic with three partitions are stable, and cover it. -/
theorem two_members_cover :
    ∃ s, exec (Coordinator.step takesAll) (.start (SMap.empty.insert "t" 3) ())
        [.join ⟨"g", "a", 0, ["t"]⟩ "" 0 ["t"] ["a"],
          .join ⟨"g", "b", 0, ["t"]⟩ "" 0 ["t"] ["b", "a"]] = some s ∧
      (s.manager.group "g").state = .stable ∧
      CoversOnce (SMap.empty.insert "t" 3) (s.manager.group "g") := by
  have hrun : (exec (Coordinator.step takesAll) (.start (SMap.empty.insert "t" 3) ())
      [.join ⟨"g", "a", 0, ["t"]⟩ "" 0 ["t"] ["a"],
        .join ⟨"g", "b", 0, ["t"]⟩ "" 0 ["t"] ["b", "a"]]).map
      (fun s => (s.manager.group "g").state) = some .stable := by
    decide +kernel
  obtain ⟨s, hexec, hstable⟩ := Option.map_eq_some_iff.mp hrun
  exact ⟨s, hexec, hstable, (stable_groups_cover hexec).1 "g" hstable⟩

def oneMember (generationId : Nat) : ConsumerGroupState :=
  ⟨"g", generationId, SMap.empty.insert "a" ⟨"a", ["t"], some 0, 0⟩, .stable,
    SMap.empty.insert "a" [⟨"t", 0⟩], ∅⟩

def rejoin : Call := .join ⟨"g", "a", 0, ["t"]⟩ "" 0 ["t"] ["a"]

def oneAnswer (generationId : Nat) : String × JoinGroupResponse :=
  ("g", ⟨generationId, "a", "a", SMap.empty.insert "a" [⟨"t", 0⟩], 0⟩)

def rejoined : Nat → Coordinator Unit
  | 0 => .start .empty ()
  | k + 1 =>
    ⟨⟨SMap.empty.insert "g" (oneMember ((k + 1) % 2 ^ 64)), .empty, 0⟩, (),
      (List.range (k + 1)).reverse.map fun j => oneAnswer ((j + 1) % 2 ^ 64)⟩

theorem step_rejoin {answers : List (String × JoinGroupResponse)} {generationId : Nat}
    (hcounts : m.topicPartitions = .empty)
    (hgroup : (m.group "g").prepared = ⟨"g", generationId, members, .preparingRebalance, .empty, ∅⟩)
    (hmembers : ∀ member, members.insert "a" member = SMap.empty.insert "a" member) :
    Coordinator.step takesAll ⟨m, (), answers⟩ rejoin =
      some ⟨{ m with groups := m.groups.insert "g" (oneMember generationId) }, (),
        oneAnswer generationId :: answers⟩ := by
  have horder : ["t"].Perm (subscribed (SMap.empty.insert "a" ⟨"a", ["t"], some 0, 0⟩)) ∧
      ["a"].Perm (SMap.empty.insert "a" (⟨"a", ["t"], some 0, 0⟩ : MemberState)).keys := by
    decide
  rw [GroupCoordinatorManager.group] at hgroup
  simp only [rejoin, Coordinator.step, GroupCoordinatorManager.handleJoinGroup, hgroup, hcounts,
    hmembers, String.reduceEq, if_false, if_pos horder]
  rfl

theorem step_rejoined (k : Nat) : (rejoined k).step takesAll rejoin = some (rejoined (k + 1)) := by
  cases k with
  | zero => exact step_rejoin rfl rfl fun _ => rfl
  | succ k =>
    have hgroup : GroupCoordinatorManager.group
        ⟨SMap.empty.insert "g" (oneMember ((k + 1) % 2 ^ 64)), .empty, 0⟩ "g" =
          oneMember ((k + 1) % 2 ^ 64) :=
      group_of_get? (get?_insert_self _ _ _)
    have hprepared : (oneMember ((k + 1) % 2 ^ 64)).prepared =
        ⟨"g", (k + 1 + 1) % 2 ^ 64, SMap.empty.insert "a" ⟨"a", ["t"], some 0, 0⟩,
          .preparingRebalance, .empty, ∅⟩ := by
      rw [← Nat.mod_add_mod (k + 1)]
      rfl
    rw [rejoined, step_rejoin rfl (hgroup ▸ hprepared) fun _ => insert_insert _ _ _ _]
    simp only [insert_insert, rejoined, range_succ, reverse_append,
      reverse_singleton, singleton_append, map_cons]

/-- **The generations repeat after `2 ^ 64` joins.** -/
theorem generation_repeated :
    ∃ s, exec (Coordinator.step takesAll) (.start .empty ()) (List.replicate (2 ^ 64 + 1) rejoin) =
        some s ∧
      ¬ s.answers.Pairwise fun a b => a.1 = b.1 → a.2.generationId ≠ b.2.generationId := by
  have hrun := (exec_replicate (P := fun _ _ => True) (f := rejoined) (l := rejoin) (k := 0)
    (n := 2 ^ 64 + 1) fun j _ _ => ⟨trivial, step_rejoined j⟩).2
  refine ⟨_, hrun, fun hdistinct => ?_⟩
  rw [Nat.zero_add, rejoined, range_succ, reverse_append, reverse_singleton,
    singleton_append, map_cons, pairwise_cons] at hdistinct
  have hfirst : oneAnswer ((0 + 1) % 2 ^ 64) ∈
      (range (2 ^ 64)).reverse.map fun j => oneAnswer ((j + 1) % 2 ^ 64) :=
    mem_map_of_mem (mem_reverse.mpr (mem_range.mpr (by decide)))
  exact hdistinct.1 _ hfirst rfl (by rw [Nat.add_mod_left])

/-! ## Owners and their topics -/

/-- The owners are members, and subscribe to what they own. -/
def OnlySubscribed (st : ConsumerGroupState) : Prop :=
  ∀ id tps, st.assignment.get? id = some tps →
    ∃ member, st.members.get? id = some member ∧ ∀ tp ∈ tps, tp.topic ∈ member.subscribedTopics

def SameTopics (members : SMap String MemberState) : Prop :=
  ∀ e ∈ members.entries, ∀ topic ∈ subscribed members, topic ∈ e.2.subscribedTopics

/-- The members of a group have the same topics after a join, and the last member of a group goes
only while nothing is assigned. -/
def Orderly (s : Coordinator L) : Call → Prop
  | .join request uuid now _ _ =>
    let memberId := if request.memberId = "" then uuid else request.memberId
    SameTopics ((s.manager.group request.groupId).members.insert memberId
      (request.member memberId now))
  | .leave request =>
    ((s.manager.group request.groupId).members.erase request.memberId).entries = [] →
      (s.manager.group request.groupId).assignment.entries = []
  | .reap now => ∀ e ∈ s.manager.groups.entries,
    (e.2.reap now).members.entries = [] → e.2.assignment.entries = []
  | .heartbeat .. | .commit .. => True

instance (members : SMap String MemberState) : Decidable (SameTopics members) :=
  inferInstanceAs (Decidable (∀ e ∈ _, ∀ _ ∈ _, _))

instance (s : Coordinator L) (call) : Decidable (Orderly s call) := by
  unfold Orderly
  split <;> infer_instance

end runs

namespace OnlySubscribed

variable {st' : ConsumerGroupState}

theorem of_nil (h : st.assignment.entries = []) : OnlySubscribed st := by
  intro id tps hget
  have hmem := get?_eq_some_iff.mp hget
  rw [h] at hmem
  cases hmem

theorem of_members (h : OnlySubscribed st) (hassignment : st'.assignment = st.assignment)
    (hmembers : ∀ id, (st'.members.get? id).map MemberState.subscribedTopics =
      (st.members.get? id).map MemberState.subscribedTopics) : OnlySubscribed st' := by
  intro id tps hget
  rw [hassignment] at hget
  obtain ⟨member, hmember, htopics⟩ := h id tps hget
  have hsame := hmembers id
  rw [hmember] at hsame
  obtain ⟨member', hmember', heq⟩ := Option.map_eq_some_iff.mp hsame
  exact ⟨member', hmember', fun tp htp => heq ▸ htopics tp htp⟩

theorem joined {allTopics : List String}
    (htopics : allTopics.Perm (subscribed (st.members.insert memberId member)))
    (hids : memberIds.Perm (st.members.insert memberId member).keys)
    (hsame : SameTopics (st.members.insert memberId member)) :
    OnlySubscribed (st.joined memberId member
      (assignAll memberIds (allPartitions topicPartitions allTopics))) := by
  intro id tps hget
  have hcovers : CoversOnce topicPartitions (st.joined memberId member _) :=
    (Assigned.joined htopics hids).coversOnce
  obtain ⟨member', hmember'⟩ :=
    mem_keys.mp (hcovers.members id (mem_keys.mpr ⟨tps, hget⟩))
  refine ⟨member', hmember', fun tp htp => ?_⟩
  have hwanted := hcovers.wanted id tp (by rwa [ConsumerGroupState.assigned, hget])
  exact hsame _ (get?_eq_some_iff.mp hmember') _ (mem_subscribed.mpr hwanted.1)

theorem keeping (h : members.entries = [] → st.assignment.entries = []) :
    OnlySubscribed (st.keeping members) := by
  rw [ConsumerGroupState.keeping]
  split
  · rename_i hnone
    exact of_nil (h hnone)
  · exact of_nil rfl

end OnlySubscribed

section runs

variable {cfg : CoordinatorConfig L} {log : L}

theorem forall_group_insert {I : ConsumerGroupState → Prop} {count : Nat}
    (h : ∀ groupId, I (m.group groupId)) (hst : I st) (groupId : String) :
    I (GroupCoordinatorManager.group
      { m with groups := m.groups.insert id st, commitCount := count } groupId) := by
  show I (GroupCoordinatorManager.group { m with groups := m.groups.insert id st } groupId)
  rw [group_insert]
  split
  · exact hst
  · exact h groupId

theorem OnlySubscribed.step {s s' : Coordinator L} {call : Call}
    (h : ∀ groupId, OnlySubscribed (s.manager.group groupId)) (horderly : Orderly s call)
    (hstep : s.Step cfg call s') (groupId : String) :
    OnlySubscribed (s'.manager.group groupId) := by
  have hknown : ∀ {id st}, s.manager.groups.get? id = some st → OnlySubscribed st :=
    fun hget => group_of_get? hget ▸ h _
  cases hstep with
  | refused => exact h groupId
  | @join request uuid now allTopics memberIds response m' hjoin =>
    obtain ⟨htopics, hids, hid, -, rfl⟩ := handleJoinGroup_eq_some hjoin
    rw [Orderly, ← hid] at horderly
    exact forall_group_insert h (.joined htopics hids horderly) groupId
  | heartbeat hget hmember =>
    refine forall_group_insert h ?_ groupId
    exact (hknown hget).of_members rfl (get?_beats hmember)
  | leave hget =>
    rw [Orderly, group_of_get? hget] at horderly
    exact forall_group_insert h (.keeping horderly) groupId
  | commit hcommit =>
    cases hcommit with
    | refused => exact h groupId
    | failed hget =>
      refine forall_group_insert h ?_ groupId
      exact (hknown hget).of_members rfl fun _ => rfl
    | acknowledged hget =>
      refine forall_group_insert h ?_ groupId
      exact (hknown hget).of_members rfl fun _ => rfl
  | @reap now =>
    rw [group_reap]
    cases hget : s.manager.groups.get? groupId with
    | none =>
      rw [GroupCoordinatorManager.group, hget]
      exact .of_nil rfl
    | some st =>
      have horderly := horderly _ (get?_eq_some_iff.mp hget)
      rw [group_of_get? hget]
      rcases ConsumerGroupState.reap_cases now st with heq | ⟨members, -, heq⟩
      · rw [heq]
        exact hknown hget
      · rw [heq] at horderly ⊢
        rw [ConsumerGroupState.members_keeping] at horderly
        exact .keeping horderly

/-- **Owners subscribe to what they own**, in runs whose calls are orderly. -/
theorem owners_subscribe {calls : List Call} {s : Coordinator L}
    (hexec : exec (Coordinator.step cfg) (.start topicPartitions log) calls = some s)
    (halong : Along (Coordinator.step cfg) Orderly (.start topicPartitions log) calls)
    (groupId : String) : OnlySubscribed (s.manager.group groupId) := by
  refine exec_invariant
    (I := fun s : Coordinator L => ∀ groupId, OnlySubscribed (s.manager.group groupId)) ?_
    (fun _ => .of_nil rfl) halong hexec groupId
  intro s call s' h horderly hstep
  exact OnlySubscribed.step h horderly (Coordinator.step_cases hstep)

/-- Two members with the same topics, of which one leaves and then the other. -/
theorem owners_subscribe_leaving : ∃ s, exec (Coordinator.step takesAll) (.start .empty ())
        [.join ⟨"g", "a", 0, ["t", "u"]⟩ "" 0 ["t", "u"] ["a"],
          .join ⟨"g", "b", 0, ["u", "t"]⟩ "" 0 ["u", "t"] ["a", "b"],
          .leave ⟨"g", "a"⟩, .leave ⟨"g", "b"⟩] = some s ∧
      OnlySubscribed (s.manager.group "g") := by
  have hrun : (exec (Coordinator.step takesAll) (.start .empty ())
      [.join ⟨"g", "a", 0, ["t", "u"]⟩ "" 0 ["t", "u"] ["a"],
        .join ⟨"g", "b", 0, ["u", "t"]⟩ "" 0 ["u", "t"] ["a", "b"],
        .leave ⟨"g", "a"⟩, .leave ⟨"g", "b"⟩]).isSome = true := by
    decide +kernel
  obtain ⟨s, hexec⟩ := Option.isSome_iff_exists.mp hrun
  exact ⟨s, hexec, owners_subscribe hexec (by decide +kernel) "g"⟩

theorem not_onlySubscribed {tps : List TopicPartition} {topics : Option (List String)}
    (h : (st.assignment.get? id, (st.members.get? id).map MemberState.subscribedTopics) =
      (some tps, topics))
    (hnot : ∀ subscribed, topics = some subscribed → ∃ tp ∈ tps, tp.topic ∉ subscribed) :
    ¬ OnlySubscribed st := by
  obtain ⟨hget, hmember⟩ := Prod.mk.inj h
  intro honly
  obtain ⟨member, hsome, htopics⟩ := honly id tps hget
  rw [hsome] at hmember
  obtain ⟨tp, htp, hnot⟩ := hnot _ hmember.symm
  exact hnot (htopics tp htp)

/-- **Partitions of members that left, and of others' topics**, are assigned. -/
theorem owners_not_subscribed : (∃ s, exec (Coordinator.step takesAll) (.start .empty ())
        [.join ⟨"g", "a", 0, ["t"]⟩ "" 0 ["t"] ["a"], .leave ⟨"g", "a"⟩] = some s ∧
      ¬ OnlySubscribed (s.manager.group "g")) ∧
    ∃ s, exec (Coordinator.step takesAll) (.start .empty ())
        [.join ⟨"g", "a", 0, ["t"]⟩ "" 0 ["t"] ["a"],
          .join ⟨"g", "b", 0, ["u"]⟩ "" 0 ["u", "t"] ["a", "b"]] = some s ∧
      ¬ OnlySubscribed (s.manager.group "g") := by
  have hleft : (exec (Coordinator.step takesAll) (.start .empty ())
      [.join ⟨"g", "a", 0, ["t"]⟩ "" 0 ["t"] ["a"], .leave ⟨"g", "a"⟩]).map
      (fun s => ((s.manager.group "g").assignment.get? "a",
        ((s.manager.group "g").members.get? "a").map MemberState.subscribedTopics)) =
      some (some [⟨"t", 0⟩], none) := by
    decide +kernel
  have hothers : (exec (Coordinator.step takesAll) (.start .empty ())
      [.join ⟨"g", "a", 0, ["t"]⟩ "" 0 ["t"] ["a"],
        .join ⟨"g", "b", 0, ["u"]⟩ "" 0 ["u", "t"] ["a", "b"]]).map
      (fun s => ((s.manager.group "g").assignment.get? "a",
        ((s.manager.group "g").members.get? "a").map MemberState.subscribedTopics)) =
      some (some [⟨"u", 0⟩], some ["t"]) := by
    decide +kernel
  obtain ⟨s, hexec, heq⟩ := Option.map_eq_some_iff.mp hleft
  obtain ⟨s', hexec', heq'⟩ := Option.map_eq_some_iff.mp hothers
  refine ⟨⟨s, hexec, not_onlySubscribed heq nofun⟩, s', hexec', not_onlySubscribed heq' ?_⟩
  rintro subscribed ⟨⟩
  exact ⟨_, mem_singleton_self _, by decide⟩

end runs

end RustMq.Group
