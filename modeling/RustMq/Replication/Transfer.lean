import RustMq.Replication.Follower
import RustMq.Store.Reservation

/-!
# Leadership transfers with a reservation

`transfer_leadership` and `reserve_leadership` of `src/network/grpc_server.rs`, with the whole
`acquire` of `src/storage/reservation.rs` in between. Other nodes may write the reservation before
each access, and any access may fail.

The new epoch is one above the handler's own, whatever epoch the request is from. A request from a
later epoch than the handler knows is accepted, and leadership then goes to an epoch below the one
it comes from (`transfer_from_later_epoch`).
-/

namespace RustMq.Replication

open Lib Store

variable {V : Type}

/-- One round of `acquire`: what other nodes do before its read and before its conditional write,
which of the two fails, and the version of the write. -/
structure AcquireRound (V : Type) where
  beforeGet : VersionedObjects V → VersionedObjects V
  getFails : Bool
  beforePut : VersionedObjects V → VersionedObjects V
  putFails : Bool
  version : V

/-- `acquire` with the rounds that are left, and the read after the last of them. -/
def acquire [DecidableEq V] (c : AcquireCall V) (env : Nat → AcquireRound V) :
    (left : Nat) → VersionedObjects V → Except RustMqError AcquireOutcome × VersionedObjects V
  | 0, objects =>
    let objects := (env 0).beforeGet objects
    let currentEpoch := if (env 0).getFails then c.epoch
      else c.seenEpoch (objects (reservationKey c.topicPartition))
    (.ok (.fenced currentEpoch), objects)
  | left + 1, objects =>
    let round := env (left + 1)
    let objects := round.beforeGet objects
    if round.getFails then (.error .io, objects)
    else
      match c.afterGet left (objects (reservationKey c.topicPartition)) with
      | .put _ failover expect =>
        let objects := round.beforePut objects
        if round.putFails then (.error .io, objects)
        else
          match putIf objects (reservationKey c.topicPartition)
              (encodeReservation c.nodeId c.epoch failover) expect round.version with
          | (.written _, objects) => (.ok .owned, objects)
          | (.preconditionFailed, objects) => acquire c env left objects
      | .done result => (result, objects)
      | .get _ | .finalGet => (.error .io, objects)

def Reserved (objects : VersionedObjects V) (tp : TopicPartition) (nodeId : String)
    (epoch : Nat) : Prop :=
  ∃ bytes version r, objects (reservationKey tp) = some (bytes, version) ∧
    decodeReservation bytes = .ok r ∧ r.nodeId = nodeId ∧ r.epoch = epoch

/-- Whatever it read, an acquire goes on to a write, or returns `Owned` with the reservation in
place, or returns something else. -/
theorem afterGet_cases (c : AcquireCall V) (left : Nat) (objects : VersionedObjects V) :
    (∃ failover expect, failover < 2 ^ 64 ∧
      c.afterGet left (objects (reservationKey c.topicPartition)) = .put left failover expect) ∨
      ∃ result, c.afterGet left (objects (reservationKey c.topicPartition)) = .done result ∧
        (result = .ok .owned → Reserved objects c.topicPartition c.nodeId c.epoch) := by
  cases hobj : objects (reservationKey c.topicPartition) with
  | none => exact .inl ⟨0, .create, by decide, rfl⟩
  | some o =>
    obtain ⟨bytes, version⟩ := o
    rw [AcquireCall.afterGet]
    cases hdec : decodeReservation bytes with
    | error e => exact .inr ⟨.error e, rfl, fun h => nomatch h⟩
    | ok r =>
      simp only
      split
      · exact .inr ⟨_, rfl, fun h => nomatch h⟩
      · split
        · rename_i hsame
          exact .inr ⟨_, rfl, fun _ => ⟨bytes, version, r, hobj, hdec, hsame.2, hsame.1⟩⟩
        · exact .inl ⟨_, _, Nat.mod_lt _ (by decide), rfl⟩

theorem reserved_of_acquire [DecidableEq V] {c : AcquireCall V} {env : Nat → AcquireRound V}
    {left : Nat} {objects : VersionedObjects V} (hnode : Codec.string.Fits c.nodeId)
    (hepoch : c.epoch < 2 ^ 64) (h : (acquire c env left objects).1 = .ok .owned) :
    Reserved (acquire c env left objects).2 c.topicPartition c.nodeId c.epoch := by
  induction left generalizing objects with
  | zero => cases h
  | succ left ih =>
    rw [acquire] at h ⊢
    generalize hobj : (env (left + 1)).beforeGet objects = seen at h ⊢
    simp only at h ⊢
    split at h
    · cases h
    · rename_i hget
      rw [if_neg hget]
      rcases afterGet_cases c left seen with ⟨failover, expect, hfailover, hput⟩ | ⟨_, hdone, hown⟩
      · simp only [hput] at h ⊢
        split at h
        · cases h
        · rename_i hfails
          rw [if_neg hfails]
          rcases putIf_cases ((env (left + 1)).beforePut seen) (reservationKey c.topicPartition)
            (encodeReservation c.nodeId c.epoch failover) expect (env (left + 1)).version with
            hlost | ⟨hwritten, -⟩
          · simp only [hlost] at h ⊢
            exact ih h
          · simp only [hwritten]
            exact ⟨_, _, _, Function.update_self .., decodeReservation_encode hnode hepoch hfailover,
              rfl, rfl⟩
      · simp only [hdone] at h ⊢
        exact hown h

/-! ## The transfer -/

/-- The broker's side of the service. `leadership` is the epoch and the role that tiering goes by;
without `fencing` there is neither a reservation service nor that table. -/
structure ReplicationServer where
  brokerId : BrokerId
  fencing : Bool
  leadership : TopicPartition → Option (Nat × Bool)

structure Transferred (V : Type) where
  answer : Except RustMqError TransferLeadershipResponse
  handler : FollowerReplicationHandler
  objects : VersionedObjects V
  server : ReplicationServer

namespace ReplicationServer

variable [DecidableEq V] (server : ReplicationServer) (env : Nat → AcquireRound V)
  (objects : VersionedObjects V)

def reserveLeadership (tp : TopicPartition) (leaderId : BrokerId) (epoch : Nat) :
    Except RustMqError FenceResult × VersionedObjects V × ReplicationServer :=
  if leaderId ≠ server.brokerId ∨ server.fencing = false then (.ok .proceed, objects, server)
  else
    match acquire ⟨tp, server.brokerId, epoch, .get maxCasRetries⟩ env maxCasRetries objects with
    | (.ok .owned, objects) => (.ok .proceed, objects,
        { server with leadership := Function.update server.leadership tp (some (epoch, true)) })
    | (.ok (.fenced currentEpoch), objects) => (.ok (.fenced currentEpoch), objects, server)
    | (.error e, objects) => (.error e, objects, server)

/-- The reservation is asked for only after the test of the epoch. -/
def transferLeadership (h : FollowerReplicationHandler) (request : TransferLeadershipRequest) :
    Transferred V :=
  let (fence, objects, server) :=
    if request.currentLeaderEpoch < h.leaderEpoch then (.ok .proceed, objects, server)
    else server.reserveLeadership env objects request.topicPartition request.newLeaderId
      ((h.leaderEpoch + 1) % 2 ^ 64)
  let (answer, handler) := Replication.transferLeadership h request fence
  ⟨answer, handler, objects, server⟩

theorem reserved_of_proceed {tp : TopicPartition} {leaderId : BrokerId} {epoch : Nat}
    (hnode : Codec.string.Fits server.brokerId) (hepoch : epoch < 2 ^ 64)
    (hfencing : server.fencing = true) (hleader : leaderId = server.brokerId)
    (h : (server.reserveLeadership env objects tp leaderId epoch).1 = .ok .proceed) :
    Reserved (server.reserveLeadership env objects tp leaderId epoch).2.1 tp server.brokerId
      epoch := by
  have hask : ¬ (leaderId ≠ server.brokerId ∨ server.fencing = false) := by
    rw [hfencing]
    exact fun hno => hno.elim (fun hne => hne hleader) fun hf => nomatch hf
  let c : AcquireCall V := ⟨tp, server.brokerId, epoch, .get maxCasRetries⟩
  have hown : (acquire c env maxCasRetries objects).1 = .ok .owned →
      Reserved (acquire c env maxCasRetries objects).2 tp server.brokerId epoch :=
    reserved_of_acquire hnode hepoch
  rw [reserveLeadership, if_neg hask] at h ⊢
  split at h
  · rename_i heq
    rw [heq] at hown
    exact hown rfl
  · cases h
  · cases h

/-- **A successful transfer raises the epoch** of the handler and reserves it; it is above the one
of the request exactly if the request is not from a later epoch. -/
theorem transfer_raises_epoch (h : FollowerReplicationHandler)
    (request : TransferLeadershipRequest) (hleft : h.leaderEpoch + 1 < 2 ^ 64)
    (hnode : Codec.string.Fits server.brokerId) :
    let out := server.transferLeadership env objects h request
    (∀ response, out.answer = .ok response → response.success = true →
      ∃ epoch, response.newLeaderEpoch = some epoch ∧ h.leaderEpoch < epoch ∧
        (request.currentLeaderEpoch < epoch ↔ request.currentLeaderEpoch ≤ h.leaderEpoch) ∧
        out.handler = h.updateLeadership epoch request.newLeaderId ∧
        (server.fencing = true → request.newLeaderId = server.brokerId →
          Reserved out.objects request.topicPartition server.brokerId epoch)) ∧
      ((∀ response, out.answer = .ok response → response.success = false) → out.handler = h) := by
  simp only [transferLeadership, Replication.transferLeadership]
  by_cases hstale : request.currentLeaderEpoch < h.leaderEpoch
  · simp only [if_pos hstale]
    refine ⟨fun response hok hsuccess => ?_, fun _ => trivial⟩
    cases hok
    cases hsuccess
  · simp only [if_neg hstale, Nat.mod_eq_of_lt hleft]
    have hreserved : server.fencing = true → request.newLeaderId = server.brokerId →
        (server.reserveLeadership env objects request.topicPartition request.newLeaderId
          (h.leaderEpoch + 1)).1 = .ok .proceed → _ :=
      server.reserved_of_proceed env objects hnode hleft
    generalize server.reserveLeadership env objects request.topicPartition request.newLeaderId
      (h.leaderEpoch + 1) = reserve at hreserved ⊢
    obtain ⟨fence, objects', server'⟩ := reserve
    split
    · exact ⟨fun _ hok => (nomatch hok), fun _ => rfl⟩
    · refine ⟨fun response hok hsuccess => ?_, fun _ => rfl⟩
      cases hok
      cases hsuccess
    · rename_i hproceed
      refine ⟨fun response hok _ => ?_, fun hno => nomatch hno _ rfl⟩
      cases hok
      exact ⟨_, rfl, Nat.lt_succ_self _, Nat.lt_succ_iff, rfl, fun hfencing hleader =>
        hreserved hfencing hleader hproceed⟩

def undisturbed : Nat → AcquireRound Nat := fun _ => ⟨id, false, id, false, 1⟩

def fencedServer : ReplicationServer := ⟨"broker-2", true, fun _ => none⟩

theorem transfer_raises_epoch_fenced :
    ∃ response, (fencedServer.transferLeadership undisturbed (fun _ => none) (followerAt 3)
        ⟨⟨"orders", 0⟩, "broker-1", 3, "broker-2"⟩).answer = .ok response ∧
      ∃ epoch, response.newLeaderEpoch = some epoch ∧ (followerAt 3).leaderEpoch < epoch ∧
        Reserved (fencedServer.transferLeadership undisturbed (fun _ => none) (followerAt 3)
          ⟨⟨"orders", 0⟩, "broker-1", 3, "broker-2"⟩).objects ⟨"orders", 0⟩ "broker-2" epoch := by
  obtain ⟨hok, -⟩ := fencedServer.transfer_raises_epoch undisturbed (fun _ => none) (followerAt 3)
    ⟨⟨"orders", 0⟩, "broker-1", 3, "broker-2"⟩ (by decide)
    (show "broker-2".toUTF8.data.toList.length < 256 ^ 8 by decide +kernel)
  obtain ⟨epoch, hepoch, hlt, -, -, hreserved⟩ := hok _ rfl rfl
  exact ⟨_, rfl, epoch, hepoch, hlt, hreserved rfl rfl⟩

/-- The handler knows epoch 3, the request is from epoch 10, and leadership goes to epoch 4. -/
theorem transfer_from_later_epoch :
    let out := fencedServer.transferLeadership undisturbed (fun _ => none) (followerAt 3)
      ⟨⟨"orders", 0⟩, "broker-1", 10, "broker-3"⟩
    out.answer = .ok ⟨true, 0, none, some 4⟩ ∧ out.handler.leaderEpoch = 4 :=
  ⟨rfl, rfl⟩

end ReplicationServer
end RustMq.Replication
