import RustMq.Lib.Runs
import RustMq.Store.Objects

/-!
# The leadership reservation

`ReservationService` (`src/storage/reservation.rs`): a partition's reservation is an object that
names the leader and its epoch. `acquire` reads the object and creates it, takes it over with a
conditional write against the version it read, or returns; a lost race is retried, three rounds in
all. Any number of calls of any number of nodes run interleaved, where every read and every
conditional write is one step.

The store gives each write a version, and a conditional write takes place only if the version is
still the one that was read. What is asked of the versions is that one version of a key never
names two contents: counters are such versions, and so are hashes of the content. `written`
remembers what each version named; the code does not see it, nor the list of grants.
-/

namespace RustMq.Store

open Lib Function Option

/-! ## The object -/

structure Reservation where
  magic : Nat
  nodeId : String
  epoch : Nat
  failover : Nat
  deriving DecidableEq

def reservationMagic : Nat := 0x524D5152

def maxCasRetries : Nat := 3

def reservationCodec : Codec Reservation :=
  ((Codec.uint 4).pair (Codec.string.pair ((Codec.uint 8).pair (.uint 8)))).iso
    (fun p => ⟨p.1, p.2.1, p.2.2.1, p.2.2.2⟩)
    (fun r => (r.magic, r.nodeId, r.epoch, r.failover)) fun _ => rfl

def reservationKey (tp : TopicPartition) : String :=
  "topics/" ++ tp.topic ++ "/" ++ toString tp.partition ++ "/_epoch"

def encodeReservation (nodeId : String) (epoch failover : Nat) : Bytes :=
  reservationCodec.enc ⟨reservationMagic, nodeId, epoch, failover⟩

def decodeReservation (bytes : Bytes) : Except RustMqError Reservation :=
  match reservationCodec.decode bytes with
  | none => .error (.storage "reservation decode")
  | some r =>
    if r.magic ≠ reservationMagic then .error (.storage "reservation magic mismatch") else .ok r

variable {failover : Nat}

theorem decodeReservation_encode {nodeId : String} {epoch : Nat} (hnode : Codec.string.Fits nodeId)
    (hepoch : epoch < 2 ^ 64) (hfailover : failover < 2 ^ 64) :
    decodeReservation (encodeReservation nodeId epoch failover) =
      .ok ⟨reservationMagic, nodeId, epoch, failover⟩ := by
  have hfits : reservationCodec.Fits ⟨reservationMagic, nodeId, epoch, failover⟩ :=
    ⟨by show reservationMagic < 256 ^ 4; decide, hnode, hepoch, hfailover⟩
  have hdec := reservationCodec.decode_enc hfits []
  rw [List.append_nil] at hdec
  unfold decodeReservation encodeReservation
  rw [hdec]
  rfl

/-! ## Conditional writes -/

section machine

variable {V : Type} [DecidableEq V]

abbrev VersionedObjects (V : Type) := String → Option (Bytes × V)

inductive Precondition (V : Type) where
  | create
  | matchVersion (version : V)
  deriving DecidableEq

inductive PutOutcome (V : Type) where
  | written (version : V)
  | preconditionFailed

/-- `put_if`, where `version` is the version a write gets. -/
def putIf (objects : VersionedObjects V) (key : String) (data : Bytes) (expect : Precondition V)
    (version : V) : PutOutcome V × VersionedObjects V :=
  match expect, objects key with
  | .create, none => (.written version, Function.update objects key (some (data, version)))
  | .create, some _ => (.preconditionFailed, objects)
  | .matchVersion _, none => (.preconditionFailed, objects)
  | .matchVersion v, some (_, current) =>
    if current = v then (.written version, Function.update objects key (some (data, version)))
    else (.preconditionFailed, objects)

theorem putIf_cases (objects : VersionedObjects V) (key : String) (data : Bytes)
    (expect : Precondition V) (version : V) :
    putIf objects key data expect version = (.preconditionFailed, objects) ∨
      (putIf objects key data expect version =
          (.written version, Function.update objects key (some (data, version))) ∧
        match expect with
        | .create => objects key = none
        | .matchVersion v => ∃ bytes, objects key = some (bytes, v)) := by
  unfold putIf
  cases expect with
  | create =>
    cases hobj : objects key with
    | none => exact .inr ⟨rfl, rfl⟩
    | some o => exact .inl rfl
  | matchVersion v =>
    cases hobj : objects key with
    | none => exact .inl rfl
    | some o =>
      obtain ⟨bytes, current⟩ := o
      by_cases hv : current = v
      · simp only [if_pos hv]
        exact .inr ⟨trivial, bytes, by rw [hv]⟩
      · simp only [if_neg hv]
        exact .inl trivial

/-! ## The calls -/

inductive AcquireOutcome where
  | owned
  | fenced (currentEpoch : Nat)
  deriving DecidableEq

/-- Where a call of `acquire` stands; `left` rounds are left, this one included. -/
inductive AcquirePhase (V : Type) where
  | get (left : Nat)
  | put (left failover : Nat) (expect : Precondition V)
  | finalGet
  | done (result : Except RustMqError AcquireOutcome)

structure AcquireCall (V : Type) where
  topicPartition : TopicPartition
  nodeId : String
  epoch : Nat
  phase : AcquirePhase V

structure Grant where
  topicPartition : TopicPartition
  nodeId : String
  epoch : Nat
  deriving DecidableEq

def AcquireCall.grant (c : AcquireCall V) : Grant := ⟨c.topicPartition, c.nodeId, c.epoch⟩

structure VerifyCall where
  topicPartition : TopicPartition
  nodeId : String
  epoch : Nat
  /-- The grants made before the call. -/
  before : List Grant
  result : Option (Except RustMqError Bool)

structure ReservationState (V : Type) where
  objects : VersionedObjects V
  written : String → V → Option Bytes
  acquires : Nat → Option (AcquireCall V)
  verifies : Nat → Option VerifyCall
  granted : List Grant

/-- What becomes of a conditional write: its answer comes back, the answer is lost, or the
request is. -/
inductive Delivery where
  | answered
  | unanswered
  | lost
  deriving DecidableEq

inductive ReservationLabel (V : Type) where
  | acquire (id : Nat) (tp : TopicPartition) (nodeId : String) (epoch : Nat)
  | verify (id : Nat) (tp : TopicPartition) (nodeId : String) (epoch : Nat)
  /-- The next read of an acquire, or a storage error. -/
  | get (id : Nat) (fails : Bool)
  /-- Its conditional write. -/
  | put (id : Nat) (version : V) (delivery : Delivery)
  | verifyGet (id : Nat) (fails : Bool)

def AcquireCall.afterGet (c : AcquireCall V) (left : Nat) : Option (Bytes × V) → AcquirePhase V
  | none => .put left 0 .create
  | some (bytes, version) =>
    match decodeReservation bytes with
    | .error e => .done (.error e)
    | .ok current =>
      if c.epoch < current.epoch ∨ (current.epoch = c.epoch ∧ current.nodeId ≠ c.nodeId) then
        .done (.ok (.fenced current.epoch))
      else if current.epoch = c.epoch ∧ current.nodeId = c.nodeId then .done (.ok .owned)
      else .put left ((current.failover + 1) % 2 ^ 64) (.matchVersion version)

def AcquireCall.seenEpoch (c : AcquireCall V) (object : Option (Bytes × V)) : Nat :=
  match object with
  | none => c.epoch
  | some (bytes, _) =>
    match decodeReservation bytes with
    | .ok r => r.epoch
    | .error _ => c.epoch

def retry (left : Nat) : AcquirePhase V := if left ≤ 1 then .finalGet else .get (left - 1)

namespace ReservationState

/-- Move an acquire, and note the grant if it returns `Owned`. -/
def setAcquire (s : ReservationState V) (id : Nat) (c : AcquireCall V) (phase : AcquirePhase V) :
    ReservationState V :=
  { s with
    acquires := Function.update s.acquires id (some { c with phase := phase })
    granted := match phase with
      | .done (.ok .owned) => c.grant :: s.granted
      | _ => s.granted }

def write (s : ReservationState V) (key : String) (data : Bytes) (version : V) :
    Option (ReservationState V) :=
  if s.written key version = none ∨ s.written key version = some data then
    some { s with
      objects := Function.update s.objects key (some (data, version))
      written := Function.update s.written key
        (Function.update (s.written key) version (some data)) }
  else none

def put (s : ReservationState V) (id : Nat) (c : AcquireCall V) (left failover : Nat)
    (expect : Precondition V) (version : V) (delivery : Delivery) : Option (ReservationState V) :=
  let key := reservationKey c.topicPartition
  let body := encodeReservation c.nodeId c.epoch failover
  if delivery = .lost then some (s.setAcquire id c (.done (.error .io)))
  else
    match (putIf s.objects key body expect version).1 with
    | .written _ => (s.write key body version).map fun s =>
        s.setAcquire id c (.done (if delivery = .answered then .ok .owned else .error .io))
    | .preconditionFailed =>
      some (s.setAcquire id c (if delivery = .answered then retry left else .done (.error .io)))

def step (s : ReservationState V) : ReservationLabel V → Option (ReservationState V)
  | .acquire id tp nodeId epoch =>
    -- the arguments are values of their Rust types
    if s.acquires id = none ∧ nodeId.toUTF8.data.toList.length < 256 ^ 8 ∧ epoch < 2 ^ 64 then
      some (s.setAcquire id ⟨tp, nodeId, epoch, .get maxCasRetries⟩ (.get maxCasRetries))
    else none
  | .verify id tp nodeId epoch =>
    match s.verifies id with
    | some _ => none
    | none => some { s with verifies := Function.update s.verifies id
                              (some ⟨tp, nodeId, epoch, s.granted, none⟩) }
  | .get id fails =>
    match s.acquires id with
    | none => none
    | some c =>
      let object := s.objects (reservationKey c.topicPartition)
      match c.phase with
      | .get left =>
        some (s.setAcquire id c (if fails then .done (.error .io) else c.afterGet left object))
      | .finalGet =>
        let epoch := if fails then c.epoch else c.seenEpoch object
        some (s.setAcquire id c (.done (.ok (.fenced epoch))))
      | _ => none
  | .put id version delivery =>
    match s.acquires id with
    | none => none
    | some c =>
      match c.phase with
      | .put left failover expect => s.put id c left failover expect version delivery
      | _ => none
  | .verifyGet id fails =>
    match s.verifies id with
    | none => none
    | some v =>
      let result : Except RustMqError Bool :=
        if fails then .error .io
        else
          match s.objects (reservationKey v.topicPartition) with
          | none => .ok false
          | some (bytes, _) =>
            (decodeReservation bytes).map fun r => r.nodeId = v.nodeId ∧ r.epoch = v.epoch
      match v.result with
      | some _ => none
      | none => some { s with verifies := Function.update s.verifies id
                                (some { v with result := some result }) }

def stored (s : ReservationState V) (tp : TopicPartition) : Option Reservation :=
  (s.objects (reservationKey tp)).bind fun o => (decodeReservation o.1).toOption

def start (objects : VersionedObjects V) : ReservationState V where
  objects := objects
  written key version := (objects key).bind fun o => if o.2 = version then some o.1 else none
  acquires _ := none
  verifies _ := none
  granted := []

end ReservationState

/-! ## What a step does to the stored epoch -/

/-- What is stored stays, or a larger epoch replaces it; what a version named it still names. -/
structure Advances (s s' : ReservationState V) : Prop where
  written : ∀ key version bytes, s.written key version = some bytes →
    s'.written key version = some bytes
  stored : ∀ tp r, s.stored tp = some r →
    ∃ r', s'.stored tp = some r' ∧ (r' = r ∨ r.epoch < r'.epoch)

variable {s s' : ReservationState V} {g : Grant} {phase : AcquirePhase V}
  {label : ReservationLabel V}

omit [DecidableEq V] in
theorem Advances.of_eq (hobjects : s'.objects = s.objects) (hwritten : s'.written = s.written) :
    Advances s s' where
  written key version bytes h := by rw [hwritten]; exact h
  stored tp r h := ⟨r, by rw [ReservationState.stored, hobjects]; exact h, .inl rfl⟩

/-! ## The invariant -/

/-- What a call's place says about the object it read, or the grant it got. -/
def PhaseSound (s : ReservationState V) (g : Grant) : AcquirePhase V → Prop
  | .put _ failover .create => failover < 2 ^ 64
  | .put _ failover (.matchVersion v) => failover < 2 ^ 64 ∧
      ∃ bytes r, s.written (reservationKey g.topicPartition) v = some bytes ∧
        decodeReservation bytes = .ok r ∧ r.epoch < g.epoch
  | .done (.ok .owned) => g ∈ s.granted
  | _ => True

/-- The grant is a lower bound of what is stored. -/
def GrantBound (s : ReservationState V) (g : Grant) : Prop :=
  ∃ r, s.stored g.topicPartition = some r ∧ g.epoch ≤ r.epoch ∧
    (r.epoch = g.epoch → r.nodeId = g.nodeId)

structure ReservationInv (s : ReservationState V) : Prop where
  current : ∀ key bytes v, s.objects key = some (bytes, v) → s.written key v = some bytes
  acquires : ∀ id c, s.acquires id = some c →
    Codec.string.Fits c.nodeId ∧ c.epoch < 2 ^ 64 ∧ PhaseSound s c.grant c.phase
  bound : ∀ g ∈ s.granted, GrantBound s g
  unique : ∀ g ∈ s.granted, ∀ g' ∈ s.granted, g.topicPartition = g'.topicPartition →
    g.epoch = g'.epoch → g.nodeId = g'.nodeId
  verifies : ∀ id v, s.verifies id = some v → v.before ⊆ s.granted ∧
    (v.result = some (.ok true) → ∀ g ∈ v.before, g.topicPartition = v.topicPartition →
      g.epoch ≤ v.epoch ∧ (g.epoch = v.epoch → g.nodeId = v.nodeId))

omit [DecidableEq V] in
theorem PhaseSound.mono (h : PhaseSound s g phase)
    (hwritten : ∀ key version bytes, s.written key version = some bytes →
      s'.written key version = some bytes) (hgranted : s.granted ⊆ s'.granted) :
    PhaseSound s' g phase := by
  match phase, h with
  | .put _ _ .create, h => exact h
  | .put _ _ (.matchVersion v), ⟨hfail, bytes, r, hbytes, hdec, hlt⟩ =>
    exact ⟨hfail, bytes, r, hwritten _ _ _ hbytes, hdec, hlt⟩
  | .done (.ok .owned), h => exact hgranted h
  | .done (.ok (.fenced _)), _ => trivial
  | .done (.error _), _ => trivial
  | .get _, _ => trivial
  | .finalGet, _ => trivial

omit [DecidableEq V] in
theorem GrantBound.advance (h : GrantBound s g) (hadv : Advances s s') : GrantBound s' g := by
  obtain ⟨r, hr, hle, hnode⟩ := h
  obtain ⟨r', hr', rfl | hlt⟩ := hadv.stored _ r hr
  · exact ⟨r', hr', hle, hnode⟩
  · exact ⟨r', hr', by omega, fun heq => absurd heq (by omega)⟩

/-- Grants are not taken back, and a verify remembers the grants of its start. -/
structure Remembers (s s' : ReservationState V) : Prop where
  granted : s.granted ⊆ s'.granted
  verifies : ∀ id v', s'.verifies id = some v' →
    (∃ v, s.verifies id = some v ∧ v'.before = v.before) ∨
      (s.verifies id = none ∧ v'.before = s.granted)

omit [DecidableEq V] in
theorem Remembers.setAcquire {s₁ : ReservationState V} (hgranted : s₁.granted = s.granted)
    (hverifies : s₁.verifies = s.verifies) (id : Nat) (c : AcquireCall V) (phase : AcquirePhase V) :
    Remembers s (s₁.setAcquire id c phase) := by
  refine ⟨fun g hg => ?_, fun id' v hv => .inl ⟨v, hverifies ▸ hv, rfl⟩⟩
  rw [← hgranted] at hg
  unfold ReservationState.setAcquire
  dsimp only
  split
  · exact List.mem_cons_of_mem _ hg
  · exact hg

namespace ReservationInv

variable {s s' : ReservationState V} {c : AcquireCall V} {tp : TopicPartition} {version : V}
  {id : Nat}

theorem start (objects : VersionedObjects V) : ReservationInv (.start objects) where
  current key bytes v h := by
    show (objects key).bind _ = some bytes
    have h' : objects key = some (bytes, v) := h
    rw [h', bind_some, if_pos rfl]
  acquires _ _ h := nomatch h
  bound _ h := nomatch h
  unique _ h := nomatch h
  verifies _ _ h := nomatch h

omit [DecidableEq V] in
theorem advance (h : ReservationInv s) {objects : VersionedObjects V}
    {written : String → V → Option Bytes}
    (hadv : Advances s { s with objects := objects, written := written })
    (hcurrent : ∀ key bytes v, objects key = some (bytes, v) → written key v = some bytes) :
    ReservationInv { s with objects := objects, written := written } where
  current := hcurrent
  acquires id c hc := by
    obtain ⟨hnode, hepoch, hphase⟩ := h.acquires id c hc
    exact ⟨hnode, hepoch, hphase.mono hadv.written fun _ hg => hg⟩
  bound g hg := (h.bound g hg).advance hadv
  unique := h.unique
  verifies := h.verifies

omit [DecidableEq V] in
theorem setAcquire (h : ReservationInv s) (id : Nat) (hnode : Codec.string.Fits c.nodeId)
    (hepoch : c.epoch < 2 ^ 64) (hsound : phase ≠ .done (.ok .owned) → PhaseSound s c.grant phase)
    (howned : phase = .done (.ok .owned) → ∃ r, s.stored c.topicPartition = some r ∧
      r.epoch = c.epoch ∧ r.nodeId = c.nodeId) : ReservationInv (s.setAcquire id c phase) := by
  have hsub : s.granted ⊆ (s.setAcquire id c phase).granted := by
    intro g hg
    unfold ReservationState.setAcquire
    dsimp only
    split
    · exact List.mem_cons_of_mem _ hg
    · exact hg
  have hgranted : ∀ g ∈ (s.setAcquire id c phase).granted, g ∈ s.granted ∨
      (phase = .done (.ok .owned) ∧ g = c.grant) := by
    intro g hg
    unfold ReservationState.setAcquire at hg
    dsimp only at hg
    split at hg
    · rcases List.mem_cons.mp hg with rfl | hg
      · exact .inr ⟨rfl, rfl⟩
      · exact .inl hg
    · exact .inl hg
  refine ⟨h.current, fun id' c' hc' => ?_, fun g hg => ?_, fun g hg g' hg' htp heq => ?_,
    fun id' v hv => ?_⟩
  · rcases of_update_eq_some hc' with ⟨-, rfl⟩ | ⟨-, hlook⟩
    · refine ⟨hnode, hepoch, ?_⟩
      by_cases hphase : phase = .done (.ok .owned)
      · subst hphase
        exact List.mem_cons_self
      · exact (hsound hphase).mono (fun _ _ _ hb => hb) hsub
    · obtain ⟨hnode', hepoch', hphase'⟩ := h.acquires id' c' hlook
      exact ⟨hnode', hepoch', hphase'.mono (fun _ _ _ hb => hb) hsub⟩
  · rcases hgranted g hg with hg | ⟨hphase, rfl⟩
    · exact h.bound g hg
    · obtain ⟨r, hr, hre, hrn⟩ := howned hphase
      exact ⟨r, hr, hre.ge, fun _ => hrn⟩
  · -- an earlier grant at the same epoch bounds the reservation the new one was given for
    have hnew : ∀ g ∈ s.granted, phase = .done (.ok .owned) →
        g.topicPartition = c.topicPartition → g.epoch = c.epoch → g.nodeId = c.nodeId := by
      intro g hg hphase htp heq
      obtain ⟨r, hr, hre, hrn⟩ := howned hphase
      obtain ⟨r', hr', -, hnode'⟩ := h.bound g hg
      rw [htp, hr] at hr'
      cases hr'
      rw [← hnode' (hre.trans heq.symm), hrn]
    rcases hgranted g hg with hg | ⟨hphase, rfl⟩
    · rcases hgranted g' hg' with hg' | ⟨hphase, rfl⟩
      · exact h.unique g hg g' hg' htp heq
      · exact hnew g hg hphase htp heq
    · rcases hgranted g' hg' with hg' | ⟨-, rfl⟩
      · exact (hnew g' hg' hphase htp.symm heq.symm).symm
      · rfl
  · obtain ⟨hbefore, hresult⟩ := h.verifies id' v hv
    exact ⟨fun g hg => hsub (hbefore hg), hresult⟩

/-- **A write replaces nothing or a smaller epoch**, and is what is stored then. -/
theorem write (h : ReservationInv s) {body : Bytes} {new : Reservation}
    (hwrite : s.write (reservationKey tp) body version = some s')
    (hnew : decodeReservation body = .ok new)
    (hold : ∀ r, s.stored tp = some r → r.epoch < new.epoch) :
    ReservationInv s' ∧ Advances s s' ∧ s'.stored tp = some new ∧
      s'.granted = s.granted ∧ s'.verifies = s.verifies := by
  unfold ReservationState.write at hwrite
  split at hwrite
  · rename_i hfree
    cases hwrite
    have hstored : ∀ objects : VersionedObjects V, objects = update s.objects
        (reservationKey tp) (some (body, version)) → ∀ tp' : TopicPartition,
          (objects (reservationKey tp')).bind (fun o => (decodeReservation o.1).toOption) =
            if reservationKey tp' = reservationKey tp then some new else s.stored tp' := by
      rintro objects rfl tp'
      rw [update_apply]
      split
      · rw [bind_some, hnew]
        rfl
      · rfl
    have hadv : Advances s { s with
        objects := update s.objects (reservationKey tp) (some (body, version))
        written := update s.written (reservationKey tp)
          (update (s.written (reservationKey tp)) version (some body)) } := by
      refine ⟨fun key v bytes hbytes => ?_, fun tp' r hr => ?_⟩
      · show update s.written (reservationKey tp) _ key v = some bytes
        by_cases hkey : key = reservationKey tp
        · subst hkey
          rw [update_self, update_apply]
          split
          · rename_i hv
            rw [hv] at hbytes
            rcases hfree with hfree | hfree
            · rw [hfree] at hbytes
              cases hbytes
            · rw [← hfree, hbytes]
          · exact hbytes
        · rw [update_of_ne hkey]
          exact hbytes
      · have hlook := hstored _ rfl tp'
        by_cases hkey : reservationKey tp' = reservationKey tp
        · rw [if_pos hkey] at hlook
          refine ⟨new, hlook, .inr (hold r ?_)⟩
          rw [ReservationState.stored, ← hkey]
          exact hr
        · rw [if_neg hkey] at hlook
          exact ⟨r, hlook.trans hr, .inl rfl⟩
    refine ⟨h.advance hadv fun key bytes v hobj => ?_, hadv, ?_, rfl, rfl⟩
    · by_cases hkey : key = reservationKey tp
      · subst hkey
        rw [update_self] at hobj
        cases hobj
        rw [update_self, update_self]
      · rw [update_of_ne hkey] at hobj ⊢
        exact h.current key bytes v hobj
    · exact (hstored _ rfl tp).trans (if_pos rfl)
  · cases hwrite

omit [DecidableEq V] in
theorem stored_of_get {bytes : Bytes} {v : V} {r : Reservation}
    (hobj : s.objects (reservationKey tp) = some (bytes, v))
    (hdec : decodeReservation bytes = .ok r) : s.stored tp = some r := by
  rw [ReservationState.stored, hobj, bind_some, hdec]
  rfl

omit [DecidableEq V] in
theorem afterGet (h : ReservationInv s) (id left : Nat) (hnode : Codec.string.Fits c.nodeId)
    (hepoch : c.epoch < 2 ^ 64) :
    ReservationInv (s.setAcquire id c
      (c.afterGet left (s.objects (reservationKey c.topicPartition)))) := by
  cases hobj : s.objects (reservationKey c.topicPartition) with
  | none =>
    exact h.setAcquire id hnode hepoch (fun _ => by show 0 < 2 ^ 64; decide)
      fun heq => (nomatch heq)
  | some o =>
    obtain ⟨bytes, v⟩ := o
    unfold AcquireCall.afterGet
    cases hdec : decodeReservation bytes with
    | error e =>
      simp only [hdec]
      exact h.setAcquire id hnode hepoch (fun _ => trivial) fun heq => (nomatch heq)
    | ok current =>
      simp only [hdec]
      split
      · exact h.setAcquire id hnode hepoch (fun _ => trivial) fun heq => (nomatch heq)
      · rename_i hnot
        split
        · rename_i hours
          exact h.setAcquire id hnode hepoch (fun hne => absurd rfl hne)
            fun _ => ⟨current, stored_of_get hobj hdec, hours⟩
        · rename_i hother
          refine h.setAcquire id hnode hepoch (fun _ => ?_) fun heq => (nomatch heq)
          refine ⟨Nat.mod_lt _ (by decide), bytes, current, h.current _ _ _ hobj, hdec, ?_⟩
          show current.epoch < c.epoch
          by_contra hge
          push Not at hnot hother
          have heq : current.epoch = c.epoch := by omega
          exact hother heq (hnot.2 heq)

omit [DecidableEq V] in
theorem moved (h : ReservationInv (s.setAcquire id c phase)) :
    ReservationInv (s.setAcquire id c phase) ∧ Advances s (s.setAcquire id c phase) ∧
      Remembers s (s.setAcquire id c phase) :=
  ⟨h, .of_eq rfl rfl, .setAcquire rfl rfl ..⟩

theorem put (h : ReservationInv s) {left : Nat} {expect : Precondition V} {delivery : Delivery}
    (hc : s.acquires id = some c) (hphase : c.phase = .put left failover expect)
    (hput : s.put id c left failover expect version delivery = some s') :
    ReservationInv s' ∧ Advances s s' ∧ Remembers s s' := by
  obtain ⟨hnode, hepoch, hsound⟩ := h.acquires id c hc
  rw [hphase] at hsound
  have hmove : ∀ phase : AcquirePhase V, phase ≠ .done (.ok .owned) → PhaseSound s c.grant phase →
      ReservationInv (s.setAcquire id c phase) ∧ Advances s (s.setAcquire id c phase) ∧
        Remembers s (s.setAcquire id c phase) :=
    fun phase hne hok => moved (h.setAcquire id hnode hepoch (fun _ => hok) fun heq => absurd heq hne)
  unfold ReservationState.put at hput
  dsimp only at hput
  split at hput
  · cases hput
    exact hmove _ (fun heq => (nomatch heq)) trivial
  · rcases putIf_cases s.objects (reservationKey c.topicPartition)
      (encodeReservation c.nodeId c.epoch failover) expect version with hif | ⟨hif, hexpect⟩
    · rw [hif] at hput
      cases hput
      split
      · unfold retry
        split
        · exact hmove _ (fun heq => (nomatch heq)) trivial
        · exact hmove _ (fun heq => (nomatch heq)) trivial
      · exact hmove _ (fun heq => (nomatch heq)) trivial
    · rw [hif] at hput
      obtain ⟨s₁, hwrite, rfl⟩ := map_eq_some_iff.mp hput
      have hfailover : failover < 2 ^ 64 := by
        cases expect with
        | create => exact hsound
        | matchVersion v => exact hsound.1
      have hold : ∀ r, s.stored c.topicPartition = some r → r.epoch < c.epoch := by
        intro r hr
        cases expect with
        | create =>
          rw [ReservationState.stored, hexpect] at hr
          cases hr
        | matchVersion v =>
          -- the version is still the one that was read, so it names what was read
          obtain ⟨-, bytes, r', hbytes, hdec, hlt⟩ := hsound
          obtain ⟨bytes', hobj⟩ := hexpect
          have hsame := h.current _ _ _ hobj
          rw [show s.written (reservationKey c.topicPartition) v = some bytes from hbytes] at hsame
          cases hsame
          rw [stored_of_get hobj hdec] at hr
          cases hr
          exact hlt
      obtain ⟨hinv, hadv, hnew, hgranted, hverifies⟩ :=
        h.write hwrite (decodeReservation_encode hnode hepoch hfailover) hold
      refine ⟨hinv.setAcquire id hnode hepoch (fun hne => ?_) fun _ => ⟨_, hnew, rfl, rfl⟩,
        ⟨hadv.written, hadv.stored⟩, .setAcquire hgranted hverifies ..⟩
      split
      · rename_i hans
        rw [if_pos hans] at hne
        exact absurd rfl hne
      · trivial

omit [DecidableEq V] in
theorem verifyGet (h : ReservationInv s) {v : VerifyCall} (hv : s.verifies id = some v)
    {result : Except RustMqError Bool}
    (hresult : result = .ok true → ∃ r, s.stored v.topicPartition = some r ∧
      r.nodeId = v.nodeId ∧ r.epoch = v.epoch) :
    ReservationInv { s with verifies := Function.update s.verifies id
                              (some { v with result := some result }) } := by
  refine { h with verifies := fun id' v' hv' => ?_ }
  rcases of_update_eq_some hv' with ⟨-, rfl⟩ | ⟨-, hlook⟩
  · obtain ⟨hbefore, -⟩ := h.verifies id v hv
    refine ⟨hbefore, fun htrue g hg htp => ?_⟩
    obtain ⟨r, hr, hnode, hepoch⟩ := hresult (some.inj htrue)
    obtain ⟨r', hr', hle, hsame⟩ := h.bound g (hbefore hg)
    rw [show g.topicPartition = v.topicPartition from htp, hr] at hr'
    cases hr'
    rw [hepoch] at hle hsame
    exact ⟨hle, fun heq => (hsame heq.symm).symm.trans hnode⟩
  · exact h.verifies id' v' hlook

theorem step (h : ReservationInv s) (hstep : s.step label = some s') :
    ReservationInv s' ∧ Advances s s' ∧ Remembers s s' := by
  cases label with
  | acquire id tp nodeId epoch =>
    simp only [ReservationState.step] at hstep
    split at hstep
    · rename_i hok
      cases hstep
      exact moved (h.setAcquire id hok.2.1 hok.2.2 (fun _ => trivial) fun heq => (nomatch heq))
    · cases hstep
  | verify id tp nodeId epoch =>
    simp only [ReservationState.step] at hstep
    split at hstep
    · cases hstep
    · rename_i hnone
      cases hstep
      refine ⟨{ h with verifies := fun id' v hv => ?_ }, .of_eq rfl rfl,
        fun _ hg => hg, fun id' v hv => ?_⟩
      · rcases of_update_eq_some hv with ⟨-, rfl⟩ | ⟨-, hold⟩
        · exact ⟨fun _ hg => hg, fun hnone => (nomatch hnone)⟩
        · exact h.verifies id' v hold
      · rcases of_update_eq_some hv with ⟨rfl, rfl⟩ | ⟨-, hold⟩
        · exact .inr ⟨hnone, rfl⟩
        · exact .inl ⟨v, hold, rfl⟩
  | get id fails =>
    simp only [ReservationState.step] at hstep
    split at hstep
    · cases hstep
    · rename_i c hc
      obtain ⟨hnode, hepoch, -⟩ := h.acquires id c hc
      split at hstep
      · cases hstep
        refine moved ?_
        split
        · exact h.setAcquire id hnode hepoch (fun _ => trivial) fun heq => (nomatch heq)
        · exact h.afterGet id _ hnode hepoch
      · cases hstep
        exact moved (h.setAcquire id hnode hepoch (fun _ => trivial) fun heq => (nomatch heq))
      · cases hstep
  | put id version delivery =>
    simp only [ReservationState.step] at hstep
    split at hstep
    · cases hstep
    · rename_i c hc
      split at hstep
      · rename_i left failover expect hphase
        exact h.put hc hphase hstep
      · cases hstep
  | verifyGet id fails =>
    simp only [ReservationState.step] at hstep
    split at hstep
    · cases hstep
    · rename_i v hv
      split at hstep
      · cases hstep
      · cases hstep
        refine ⟨h.verifyGet hv fun htrue => ?_, .of_eq rfl rfl, fun _ hg => hg,
          fun id' v' hv' => .inl ?_⟩
        · split at htrue
          · cases htrue
          · split at htrue
            · cases htrue
            · rename_i bytes version hobj
              cases hdec : decodeReservation bytes with
              | error e =>
                rw [hdec] at htrue
                cases htrue
              | ok r =>
                rw [hdec] at htrue
                have hboth := of_decide_eq_true (Except.ok.inj htrue)
                exact ⟨r, stored_of_get hobj hdec, hboth⟩
        · rcases of_update_eq_some hv' with ⟨rfl, rfl⟩ | ⟨-, hlook⟩
          · exact ⟨v, hv, rfl⟩
          · exact ⟨v', hlook, rfl⟩

end ReservationInv

/-- What holds of every state after `s`. -/
structure Since (s s' : ReservationState V) : Prop where
  inv : ReservationInv s'
  stored : ∀ tp r, s.stored tp = some r → ∃ r', s'.stored tp = some r' ∧ r.epoch ≤ r'.epoch
  granted : s.granted ⊆ s'.granted
  verifies : ∀ id v, s.verifies id = none → s'.verifies id = some v → s.granted ⊆ v.before

theorem Since.step {s₀ : ReservationState V} (h : Since s₀ s) (hstep : s.step label = some s') :
    Since s₀ s' := by
  obtain ⟨hinv, hadv, hrem⟩ := h.inv.step hstep
  refine ⟨hinv, fun tp r hr => ?_, fun g hg => hrem.granted (h.granted hg), fun id v hid hv => ?_⟩
  · obtain ⟨r₁, hr₁, hle⟩ := h.stored tp r hr
    obtain ⟨r₂, hr₂, rfl | hlt⟩ := hadv.stored tp r₁ hr₁
    · exact ⟨r₂, hr₂, hle⟩
    · exact ⟨r₂, hr₂, by omega⟩
  · rcases hrem.verifies id v hv with ⟨v₁, hv₁, heq⟩ | ⟨-, heq⟩
    · rw [heq]
      exact h.verifies id v₁ hid hv₁
    · rw [heq]
      exact h.granted

/-! ## The result -/

/-- **The reservation is exclusive by epoch**: the stored epoch does not fall, one epoch is granted
to one node, and no verify succeeds against a grant before it. -/
theorem reservation_exclusive (objects : VersionedObjects V)
    {before after : List (ReservationLabel V)} {s s' : ReservationState V}
    (hbefore : exec ReservationState.step (.start objects) before = some s)
    (hafter : exec ReservationState.step s after = some s') :
    (∀ tp r, s.stored tp = some r → ∃ r', s'.stored tp = some r' ∧ r.epoch ≤ r'.epoch) ∧
    (∀ id id' c c', s'.acquires id = some c → s'.acquires id' = some c' →
      c.phase = .done (.ok .owned) → c'.phase = .done (.ok .owned) →
      c.topicPartition = c'.topicPartition → c.epoch = c'.epoch → c.nodeId = c'.nodeId) ∧
    ∀ id c id' v, s.acquires id = some c → c.phase = .done (.ok .owned) → s.verifies id' = none →
      s'.verifies id' = some v → v.result = some (.ok true) →
      v.topicPartition = c.topicPartition →
        c.epoch ≤ v.epoch ∧ (v.epoch = c.epoch → v.nodeId = c.nodeId) := by
  have hinv : ReservationInv s := exec_invariant_of_step (I := ReservationInv)
    (fun _ _ _ h hs => (h.step hs).1) (.start objects) hbefore
  have hstart : Since s s := ⟨hinv, fun _ r hr => ⟨r, hr, le_rfl⟩, fun _ hg => hg,
    fun id v hid hv => absurd (hid.symm.trans hv) (by simp)⟩
  have hsince : Since s s' := exec_invariant_of_step (I := Since s)
    (fun _ _ _ h hs => h.step hs) hstart hafter
  refine ⟨hsince.stored, ?_, ?_⟩
  · intro id id' c c' hc hc' hphase hphase' htp hepoch
    obtain ⟨-, -, hgrant⟩ := hsince.inv.acquires id c hc
    obtain ⟨-, -, hgrant'⟩ := hsince.inv.acquires id' c' hc'
    rw [hphase] at hgrant
    rw [hphase'] at hgrant'
    exact hsince.inv.unique _ hgrant _ hgrant' htp hepoch
  · intro id c id' v hc hphase hnone hv hresult htp
    obtain ⟨-, -, hgrant⟩ := hinv.acquires id c hc
    rw [hphase] at hgrant
    obtain ⟨hle, hnode⟩ := (hsince.inv.verifies id' v hv).2 hresult c.grant
      (hsince.verifies id' v hnone hv hgrant) htp.symm
    exact ⟨hle, fun heq => (hnode heq.symm).symm⟩

end machine

def takeover : List (ReservationLabel Nat) :=
  [.acquire 0 ⟨"orders", 0⟩ "broker-1" 1, .get 0 false, .put 0 0 .answered,
    .acquire 1 ⟨"orders", 0⟩ "broker-2" 2, .get 1 false, .put 1 1 .answered]

def verifies : List (ReservationLabel Nat) :=
  [.verify 0 ⟨"orders", 0⟩ "broker-1" 1, .verifyGet 0 false,
    .verify 1 ⟨"orders", 0⟩ "broker-2" 2, .verifyGet 1 false]

theorem reservation_exclusive_takeover :
    ∃ s s' c v, exec ReservationState.step (.start fun _ => none) takeover = some s ∧
      exec ReservationState.step s verifies = some s' ∧
      s.acquires 1 = some c ∧ c.phase = .done (.ok .owned) ∧ c.epoch = 2 ∧
      s'.verifies 1 = some v ∧ v.result = some (.ok true) ∧
      c.epoch ≤ v.epoch ∧ (v.epoch = c.epoch → v.nodeId = c.nodeId) :=
  ⟨_, _, _, _, rfl, rfl, rfl, rfl, rfl, rfl, rfl,
    (@reservation_exclusive Nat _ (fun _ => none) takeover verifies _ _ rfl rfl).2.2
      1 _ 1 _ rfl rfl rfl rfl rfl rfl⟩

end RustMq.Store
