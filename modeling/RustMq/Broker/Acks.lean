import RustMq.Broker.Core
import RustMq.Replication.Network

/-!
# What an acknowledged batch was stored on

`append_records` (`src/broker/core.rs`) calls `replicate_record` for every record of a batch with
level `Majority`, `All` or `Custom(n)`, and `wait_for_acknowledgments`
(`src/replication/manager.rs`) collects the followers' answers. The level is not passed on: the wait
ends at the first `min_in_sync_replicas - 1` successes, at the first one if that number is 0, and it
is `Ok(LocalOnly)` if they do not come.
-/

namespace RustMq.Broker

open Lib Store List Function
open Replication (BrokerId ManagerConfig Replica DurabilityLevel)

/-! ## Waiting for acknowledgments -/

inductive Answer where
  | success
  | refused
  | rpcError
  | timeout
  deriving DecidableEq

def Answer.isSuccess : Answer → Bool
  | .success => true
  | .refused | .rpcError | .timeout => false

structure ReplicaGroup where
  config : ManagerConfig
  nodup : config.replicaSet.Nodup

def ReplicaGroup.size (g : ReplicaGroup) : Nat := g.config.followers.length + 1

theorem ReplicaGroup.nodup_followers (g : ReplicaGroup) : g.config.followers.Nodup :=
  g.nodup.filter _

/-- The loop over the answers in the order in which they come. The answers after the `break` are
dropped with their futures. -/
def collectAcks (requiredAcks : Nat) : List (BrokerId × Answer) → (acked : List BrokerId) →
    List BrokerId
  | [], acked => acked
  | (broker, answer) :: answers, acked =>
    if answer.isSuccess then
      if requiredAcks ≤ acked.length + 1 then acked ++ [broker]
      else collectAcks requiredAcks answers (acked ++ [broker])
    else collectAcks requiredAcks answers acked

/-- The durability `wait_for_acknowledgments` returns, and the followers it has an `Ok` from. -/
def waitForAcknowledgments (cfg : ManagerConfig) (answers : List (BrokerId × Answer)) :
    DurabilityLevel × List BrokerId :=
  if cfg.followers = [] then (.durable, [])
  else
    let acked := collectAcks cfg.requiredAcks answers []
    (if cfg.requiredAcks ≤ acked.length then .durable else .localOnly, acked)

def successes (answers : List (BrokerId × Answer)) : Nat :=
  answers.countP fun a => a.2.isSuccess

theorem length_collectAcks (requiredAcks : Nat) (answers : List (BrokerId × Answer))
    (acked : List BrokerId) (h : acked.length < max 1 requiredAcks) :
    (collectAcks requiredAcks answers acked).length =
      min (acked.length + successes answers) (max 1 requiredAcks) := by
  induction answers generalizing acked with
  | nil =>
    show acked.length = _
    unfold successes
    rw [countP_nil]
    omega
  | cons a answers ih =>
    obtain ⟨broker, answer⟩ := a
    unfold collectAcks successes
    rw [countP_cons]
    by_cases hok : answer.isSuccess = true
    · simp only [hok, if_true]
      split
      · rw [length_append, length_singleton]
        omega
      · rw [ih _ (by rw [length_append, length_singleton]; omega), length_append, length_singleton]
        unfold successes
        omega
    · simp only [hok]
      exact ih acked h

theorem collectAcks_sublist (requiredAcks : Nat) (answers : List (BrokerId × Answer))
    (acked : List BrokerId) : ∃ rest, List.Sublist rest (answers.map Prod.fst) ∧
      collectAcks requiredAcks answers acked = acked ++ rest := by
  induction answers generalizing acked with
  | nil => exact ⟨[], Sublist.refl _, (append_nil acked).symm⟩
  | cons a answers ih =>
    obtain ⟨broker, answer⟩ := a
    unfold collectAcks
    split
    · split
      · exact ⟨[broker], (nil_sublist _).cons_cons broker, rfl⟩
      · obtain ⟨rest, hsub, heq⟩ := ih (acked ++ [broker])
        refine ⟨broker :: rest, hsub.cons_cons broker, ?_⟩
        rw [heq, append_assoc, singleton_append]
    · obtain ⟨rest, hsub, heq⟩ := ih acked
      exact ⟨rest, hsub.cons broker, heq⟩

/-! ## The machine with the memory of what is stored where -/

def ReplicaGroup.needed (g : ReplicaGroup) : AcknowledgmentLevel → Nat
  | .none => 0
  | .leader => 1
  | .majority => g.size / 2 + 1
  | .all => g.size
  | .custom n => n

structure AckState where
  core : State
  /-- The replicas that have stored record `i` of a call: the leader by its own append, a follower
  by answering the request for it with success. -/
  storedBy : (id i : Nat) → Finset Replica

def AckState.note (s : AckState) (core : State) (id i : Nat) (replicas : Finset Replica) :
    AckState where
  core := core
  storedBy := Function.update s.storedBy id
    (Function.update (s.storedBy id) i (s.storedBy id i ∪ replicas))

/-- A write to the log that returned `Ok`: the leader has stored the record, or the followers have
that the wait has an `Ok` from. -/
def AckState.written (g : ReplicaGroup) (s : AckState) (core : State) (id : Nat)
    (answers : List (BrokerId × Answer)) : Phase → Option AckState
  | .append .own _ i true => some (s.note core id i {.leader})
  | .append .replica _ i true =>
    if (answers.map Prod.fst).Perm g.config.followers then
      some (s.note core id i
        ((waitForAcknowledgments g.config answers).2.map Replica.follower).toFinset)
    else none
  | _ => some { s with core := core }

/-- A step of the broker, with the answers of the followers in the order in which they come where
the step is the replication of a record. -/
def ackStep (cfg : StoreConfig) (g : ReplicaGroup) (s : AckState)
    (l : Label × List (BrokerId × Answer)) : Option AckState :=
  (step cfg s.core l.1).bind fun core =>
    match l.1 with
    | .call id .ok => (s.core.calls id).bind fun c => s.written g core id l.2 c.phase
    | _ => some { s with core := core }

def Phase.replicating : Phase → Bool
  | .append .replica _ _ indexed => indexed
  | _ => false

/-- Where the step replicates a record, enough followers answer with success, and the wait does
not end before the level is reached. -/
def AnswersSuffice (g : ReplicaGroup) (s : AckState) (l : Label × List (BrokerId × Answer)) :
    Prop :=
  match l.1 with
  | .call id .ok => ∀ c ∈ s.core.calls id, c.phase.replicating = true →
      g.needed c.acks ≤ successes l.2 + 1 ∧ g.needed c.acks ≤ max 2 g.config.minInSyncReplicas
  | _ => True

instance (g : ReplicaGroup) (s : AckState) (l : Label × List (BrokerId × Answer)) :
    Decidable (AnswersSuffice g s l) := by
  unfold AnswersSuffice
  split <;> infer_instance

variable {answers : List (BrokerId × Answer)} {g : ReplicaGroup} {s : AckState} {id : Nat}
  {c : Call} {phase : Phase}

theorem waitForAcknowledgments_iff (g : ReplicaGroup)
    (hperm : (answers.map Prod.fst).Perm g.config.followers) (needed : Nat) :
    needed ≤ ((waitForAcknowledgments g.config answers).2.map Replica.follower).toFinset.card + 1 ↔
      needed ≤ successes answers + 1 ∧ needed ≤ max 2 g.config.minInSyncReplicas := by
  have hcard : ((waitForAcknowledgments g.config answers).2.map Replica.follower).toFinset.card =
      min (successes answers) (max 1 g.config.requiredAcks) := by
    unfold waitForAcknowledgments
    split
    · rename_i hnone
      rw [hnone] at hperm
      rw [map_eq_nil_iff.mp (perm_nil.mp hperm)]
      exact (Nat.zero_min _).symm
    · have hlen := length_collectAcks g.config.requiredAcks answers [] (by simp)
      obtain ⟨rest, hsub, heq⟩ := collectAcks_sublist g.config.requiredAcks answers []
      rw [nil_append] at heq
      have hnodup : rest.Nodup := (hperm.nodup_iff.mpr g.nodup_followers).sublist hsub
      show ((collectAcks g.config.requiredAcks answers []).map Replica.follower).toFinset.card = _
      rw [heq] at hlen ⊢
      rw [toFinset_card_of_nodup (hnodup.map fun _ _ h => Replica.follower.inj h),
        length_map, hlen, length_nil, Nat.zero_add]
  rw [hcard]
  unfold Replication.ManagerConfig.requiredAcks
  omega

/-! ## The invariant -/

def Reached (g : ReplicaGroup) (s : AckState) (id : Nat) (c : Call) (i : Nat) : Prop :=
  g.needed c.acks ≤ (s.storedBy id i).card

/-- What the position of a call says about what is stored where. -/
def PhaseStored (g : ReplicaGroup) (s : AckState) (id : Nat) (c : Call) : Phase → Prop
  | .snapshot | .done (.error _) => True
  | .append .own _ i _ => ∀ j < i, .leader ∈ s.storedBy id j
  | .append .replica _ i _ =>
    (∀ j < c.records.length, .leader ∈ s.storedBy id j) ∧ ∀ j < i, Reached g s id c j
  | .advance _ | .done (.ok _) =>
    c.acks.replicates = true → ∀ j < c.records.length, Reached g s id c j

def AckInv (g : ReplicaGroup) (s : AckState) : Prop :=
  ∀ id c, s.core.calls id = some c → PhaseStored g s id c c.phase

theorem AckState.storedBy_note (s : AckState) (core : State) (id i : Nat)
    (replicas : Finset Replica) (id' j : Nat) :
    (s.note core id i replicas).storedBy id' j =
      if id' = id ∧ j = i then s.storedBy id i ∪ replicas else s.storedBy id' j := by
  show update s.storedBy id _ id' j = _
  by_cases hid : id' = id
  · subst hid
    rw [update_self, update_apply]
    simp only [true_and]
  · rw [update_of_ne hid, if_neg (fun h => hid h.1)]

section

variable {s' : AckState}

theorem PhaseStored.mono (h : PhaseStored g s id c phase)
    (hsub : ∀ j, s.storedBy id j ⊆ s'.storedBy id j) : PhaseStored g s' id c phase := by
  have hreach : ∀ j, Reached g s id c j → Reached g s' id c j :=
    fun j hj => hj.trans (Finset.card_le_card (hsub j))
  match phase, h with
  | .snapshot, _ => trivial
  | .done (.error _), _ => trivial
  | .append .own _ i _, h => exact fun j hj => hsub j (h j hj)
  | .append .replica _ i _, h =>
    exact ⟨fun j hj => hsub j (h.1 j hj), fun j hj => hreach j (h.2 j hj)⟩
  | .advance _, h => exact fun hrep j hj => hreach j (h hrep j hj)
  | .done (.ok _), h => exact fun hrep j hj => hreach j (h hrep j hj)

theorem AckInv.move (h : AckInv g s) (hsub : ∀ id j, s.storedBy id j ⊆ s'.storedBy id j)
    (hcalls : s'.core.calls = Function.update s.core.calls id (some { c with phase := phase }))
    (hphase : PhaseStored g s' id c phase) : AckInv g s' := by
  intro id' c' hc'
  rw [hcalls] at hc'
  rcases of_update_eq_some hc' with ⟨rfl, rfl⟩ | ⟨-, hc'⟩
  · -- the records and the level of the call are the old ones
    revert hphase
    cases phase with
    | append pass base i indexed => cases pass <;> exact id
    | done result => cases result <;> exact id
    | _ => exact id
  · exact (h id' c' hc').mono (hsub id')

end

section

variable {core : State} {base i : Nat} {cfg : StoreConfig}

section

variable (h : AckInv g s)
  (hcalls : core.calls = Function.update s.core.calls id (some { c with phase := phase }))
include h hcalls

theorem AckInv.quiet (hphase : PhaseStored g s id c phase) : AckInv g { s with core := core } :=
  h.move (fun _ _ => Finset.Subset.refl _) (by exact hcalls)
    (hphase.mono fun _ => Finset.Subset.refl _)

theorem AckInv.note {replicas : Finset Replica}
    (hphase : PhaseStored g (s.note core id i replicas) id c phase) :
    AckInv g (s.note core id i replicas) := by
  refine h.move (fun id' j => ?_) hcalls hphase
  rw [AckState.storedBy_note]
  split
  · rename_i hat
    rw [hat.1, hat.2]
    exact Finset.subset_union_left
  · exact Finset.Subset.refl _

end

theorem AckInv.own (h : AckInv g s) (hc : s.core.calls id = some c)
    (hphase : c.phase = .append .own base i true)
    (hcalls : core.calls =
      Function.update s.core.calls id (some { c with phase := .append .own base (i + 1) false })) :
    AckInv g (s.note core id i {.leader}) := by
  refine h.note hcalls fun j hj => ?_
  have hold := h id c hc
  rw [hphase] at hold
  rw [AckState.storedBy_note]
  split
  · exact Finset.mem_union_right _ (Finset.mem_singleton_self _)
  · exact hold j (by omega)

theorem AckInv.replica (h : AckInv g s) (hc : s.core.calls id = some c)
    (hphase : c.phase = .append .replica base i true) (hlt : i < c.records.length)
    (hperm : (answers.map Prod.fst).Perm g.config.followers)
    (hsuff : g.needed c.acks ≤ successes answers + 1 ∧
      g.needed c.acks ≤ max 2 g.config.minInSyncReplicas)
    (hcalls : core.calls = Function.update s.core.calls id
      (some { c with phase := .append .replica base (i + 1) false })) :
    AckInv g (s.note core id i
      ((waitForAcknowledgments g.config answers).2.map Replica.follower).toFinset) := by
  have hold := h id c hc
  rw [hphase] at hold
  refine h.note hcalls ⟨fun j hj => ?_, fun j hj => ?_⟩
  · rw [AckState.storedBy_note]
    split
    · exact Finset.mem_union_left _ (hold.1 i hlt)
    · exact hold.1 j hj
  · unfold Reached
    rw [AckState.storedBy_note]
    by_cases hji : j = i
    · rw [if_pos ⟨rfl, hji⟩]
      refine ((waitForAcknowledgments_iff g hperm _).mpr hsuff).trans ?_
      -- the leader is none of the followers
      have hnot : Replica.leader ∉
          ((waitForAcknowledgments g.config answers).2.map Replica.follower).toFinset := by
        intro hmem
        obtain ⟨b, -, hb⟩ := mem_map.mp (mem_toFinset.mp hmem)
        cases hb
      rw [← Finset.card_insert_of_notMem hnot]
      refine Finset.card_le_card (Finset.insert_subset ?_ Finset.subset_union_right)
      exact Finset.mem_union_left _ (hold.1 i hlt)
    · rw [if_neg fun hat => hji hat.2]
      exact hold.2 j (by omega)

theorem PhaseStored.callStep {outcome : AppendOutcome} {store : PartitionStore}
    {partitions : TopicPartition → Option PartitionMetadata} (h : PhaseStored g s id c c.phase)
    (hmove : CallStep cfg s.core c outcome store partitions phase)
    (hquiet : outcome = .ok → ∀ pass base i, c.phase ≠ .append pass base i true) :
    PhaseStored g s id c phase := by
  cases hmove with
  | refused | failed => trivial
  | snapshot m hphase hm => exact fun j hj => absurd hj (Nat.not_lt_zero j)
  | index pass base i r hphase hr =>
    rw [hphase] at h
    cases pass with
    | own | replica => exact h
  | loopEnd pass base i hphase hr =>
    rw [hphase] at h
    have hlen : c.records.length ≤ i := getElem?_eq_none_iff.mp hr
    cases pass with
    | own =>
      unfold Call.afterPass
      by_cases hrep : c.acks.replicates = true
      · simp only [hrep, if_true]
        exact ⟨fun j hj => h j (by omega), fun j hj => absurd hj (Nat.not_lt_zero j)⟩
      · simp only [hrep]
        exact fun hrep' => absurd hrep' hrep
    | replica => exact fun _ j hj => h.2 j (by omega)
  | written pass base i r hphase hr hok => exact absurd hphase (hquiet hok pass base i)
  | finish base hphase =>
    rw [hphase] at h
    exact h

theorem AckInv.step {s' : AckState} {l : Label × List (BrokerId × Answer)} (h : AckInv g s)
    (hsuff : AnswersSuffice g s l) (hstep : ackStep cfg g s l = some s') : AckInv g s' := by
  obtain ⟨label, answers⟩ := l
  obtain ⟨core, hcore, hnote⟩ := Option.bind_eq_some_iff.mp hstep
  rcases step_cases hcore with ⟨id, tp, records, acks, rfl, hfree, rfl⟩ |
    ⟨id, outcome, c, store, partitions, phase, rfl, hc, hmove, rfl⟩ | ⟨rfl, rfl⟩
  · cases hnote
    exact h.quiet (c := ⟨tp, records, acks, .snapshot⟩) rfl
      (show PhaseStored g s id _ .snapshot from trivial)
  · have hmove := Call.step_cases hmove
    by_cases hquiet : outcome = .ok → ∀ pass base i, c.phase ≠ .append pass base i true
    · have hs' : s' = { s with core := ⟨store, partitions,
          update s.core.calls id (some { c with phase := phase })⟩ } := by
        cases outcome with
        | fail left => cases hnote; rfl
        | ok =>
          simp only [hc, Option.bind_some] at hnote
          unfold AckState.written at hnote
          split at hnote
          · rename_i hphase
            exact absurd hphase (hquiet rfl _ _ _)
          · rename_i hphase
            exact absurd hphase (hquiet rfl _ _ _)
          · cases hnote; rfl
      rw [hs']
      exact h.quiet rfl ((h id c hc).callStep hmove hquiet)
    · push Not at hquiet
      obtain ⟨rfl, pass, base, i, hphase⟩ := hquiet
      simp only [hc, Option.bind_some, hphase] at hnote
      cases hmove with
      | written pass' base' i' r hphase' hr hok =>
        rw [hphase] at hphase'
        cases hphase'
        cases pass with
        | own =>
          cases hnote
          exact h.own hc hphase rfl
        | replica =>
          simp only [AckState.written] at hnote
          split at hnote
          · rename_i hperm
            cases hnote
            exact h.replica hc hphase (List.getElem?_eq_some_iff.mp hr).1 hperm
              (hsuff c hc (by rw [hphase]; rfl)) rfl
          · cases hnote
      | refused e hphase' | snapshot m hphase' | index pass' base' i' r hphase'
      | loopEnd pass' base' i' hphase' | finish base' hphase' =>
        rw [hphase] at hphase'
        cases hphase'
      | failed pass' base' i' r left hphase' hr hfail => cases hfail
  · cases hnote
    exact fun id c hc => (h id c hc).mono fun _ => Finset.Subset.refl _

end

/-! ## The result -/

def AckState.idle (store : PartitionStore)
    (partitions : TopicPartition → Option PartitionMetadata) : AckState where
  core := ⟨store, partitions, fun _ => none⟩
  storedBy _ _ := ∅

/-- **An acknowledged batch is stored where its level says.** Any number of calls in any
interleaving, any failures of the log, any answers in any order. -/
theorem acks_met (cfg : StoreConfig) (g : ReplicaGroup) (store : PartitionStore)
    (partitions : TopicPartition → Option PartitionMetadata)
    {labels : List (Label × List (BrokerId × Answer))} {s : AckState}
    (hsuff : Along (ackStep cfg g) (AnswersSuffice g) (.idle store partitions) labels)
    (hexec : exec (ackStep cfg g) (.idle store partitions) labels = some s) :
    ∀ id c offsets, s.core.calls id = some c → c.phase = .done (.ok offsets) →
      c.acks.replicates = true → ∀ i < c.records.length,
        g.needed c.acks ≤ (s.storedBy id i).card := by
  have hidle : AckInv g (.idle store partitions) := by
    intro id c hc
    cases hc
  have hinv := exec_invariant (I := AckInv g) (fun _ _ _ h hP hs => h.step hP hs) hidle hsuff hexec
  intro id c offsets hc hphase hrep i hi
  have hstored := hinv id c hc
  rw [hphase] at hstored
  exact hstored hrep i hi

def pairGroup : ReplicaGroup := ⟨Replication.pairConfig, by decide⟩

def allBatch (answer : Answer) : List (Label × List (BrokerId × Answer)) :=
  [(.spawn 0 ⟨"orders", 0⟩ [⟨none, [1], [], 0⟩] .all, []), (.call 0 .ok, []), (.call 0 .ok, []),
    (.call 0 .ok, []), (.call 0 .ok, []), (.call 0 .ok, []),
    (.call 0 .ok, [("broker-2", answer)]), (.call 0 .ok, []), (.call 0 .ok, [])]

def leadingOrders : AckState :=
  .idle .empty fun tp => if tp = ⟨"orders", 0⟩ then some ⟨0, true⟩ else none

theorem allBatch_suffices :
    Along (ackStep plainConfig pairGroup) (AnswersSuffice pairGroup) leadingOrders
      (allBatch .success) := by
  decide +kernel

theorem acks_met_allBatch :
    ∃ s c, exec (ackStep plainConfig pairGroup) leadingOrders (allBatch .success) = some s ∧
      s.core.calls 0 = some c ∧ c.phase = .done (.ok [0]) ∧
      ∀ i < c.records.length, pairGroup.needed .all ≤ (s.storedBy 0 i).card :=
  ⟨_, _, rfl, rfl, rfl, acks_met plainConfig pairGroup .empty _ allBatch_suffices rfl 0 _ _ rfl rfl
    rfl⟩

/-- The follower does not answer in time, and the batch is acknowledged. -/
theorem ok_without_followers :
    ∃ s c, exec (ackStep plainConfig pairGroup) leadingOrders (allBatch .timeout) = some s ∧
      s.core.calls 0 = some c ∧ c.acks = .all ∧ c.records.length = 1 ∧
      c.phase = .done (.ok [0]) ∧ s.storedBy 0 0 = {.leader} ∧ pairGroup.needed .all = 2 :=
  ⟨_, _, rfl, rfl, rfl, rfl, rfl, by decide, rfl⟩

end RustMq.Broker
