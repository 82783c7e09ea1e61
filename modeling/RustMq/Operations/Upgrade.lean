import RustMq.Lib.AllBut
import RustMq.Lib.Runs

/-!
# Rolling upgrades

`RollingUpgradeManagerImpl` (`src/operations/upgrade.rs`). `start_upgrade` looks for the operation
id in the status map and spawns a task; the id gets into the map only when the task runs. The
task takes the brokers one by one: drain, upgrade, health checks, restore. Any of these may
fail, which ends the task and leaves the broker as it is. `rollback_upgrade` writes a status and
does nothing else, and no task ever reads the status.

`drained` is the state of the cluster: the brokers drained and not restored. `rolledBack` is not in the
code and remembers the operations for which `rollback_upgrade` has returned `Ok`. Instants and
sleeps are left out.
-/

namespace RustMq.Operations

open Lib List Option

/-! ## The code -/

inductive UpgradeStatus where
  | notStarted
  | inProgress (currentBroker : String) (completedBrokers remainingBrokers : List String)
  | completed (upgradedBrokers : List String)
  | failed (error failedBroker : String)
  | rolledBack (reason : String)
  deriving DecidableEq

structure UpgradeRequest where
  operationId : String
  targetVersion : String
  upgradeVelocity : Nat
  rollbackOnFailure : Bool
  deriving DecidableEq

/-- `cannotRollback` is the `InvalidConfig` that prints the status it found. -/
inductive UpgradeError where
  | invalidConfig (message : String)
  | storage (message : String)
  | cannotRollback (status : UpgradeStatus)
  deriving DecidableEq

/-- The broker in hand, the brokers after it, `completed_brokers` and `remaining_brokers`. -/
structure Turn where
  broker : String
  todo : List String
  completed : List String
  remaining : List String
  deriving DecidableEq

inductive Phase where
  | readBrokers
  | initStatus (brokers : List String)
  | next (todo completed remaining : List String)
  | drain (turn : Turn)
  | upgrade (turn : Turn)
  | health (turn : Turn)
  | finalCheck (turn : Turn)
  | restore (turn : Turn)
  | markFailed (turn : Turn) (error : String)
  | markRolledBack (turn : Turn) (error : String)
  | finished
  deriving DecidableEq

structure Task where
  request : UpgradeRequest
  phase : Phase
  deriving DecidableEq

inductive RollbackPhase where
  | check (operationId : String)
  | insert (operationId reason : String)
  | done (result : Except UpgradeError Unit)

structure Upgrades where
  brokerList : List String
  statuses : String → Option UpgradeStatus
  tasks : List Task
  rollbacks : List RollbackPhase
  drained : List String
  rolledBack : List String

inductive Event where
  | proceed
  | ok
  | err (error : String)
  | healthy (answer : Bool)
  | timeUp
  deriving DecidableEq

inductive Label where
  | startUpgrade (request : UpgradeRequest)
  | task (i : Nat) (event : Event)
  | rollbackUpgrade (operationId : String)
  | rollback (i : Nat)
  | setBrokers (brokers : List String)
  deriving DecidableEq

namespace Upgrades

def new (brokerList : List String) : Upgrades := ⟨brokerList, fun _ => none, [], [], [], []⟩

def setStatus (s : Upgrades) (operationId : String) (status : UpgradeStatus) : Upgrades :=
  { s with statuses := Function.update s.statuses operationId (some status) }

def startUpgrade (s : Upgrades) (request : UpgradeRequest) :
    Upgrades × Except UpgradeError String :=
  if request.upgradeVelocity = 0 then
    (s, .error (.invalidConfig "Upgrade velocity must be greater than 0"))
  else if (s.statuses request.operationId).isSome then
    (s, .error (.invalidConfig
      ("Upgrade operation " ++ request.operationId ++ " already exists")))
  else ({ s with tasks := s.tasks ++ [⟨request, .readBrokers⟩] }, .ok request.operationId)

def taskStep (s : Upgrades) (request : UpgradeRequest) : Phase → Event →
    Option (Upgrades × Phase)
  | .readBrokers, .proceed => some (s, .initStatus s.brokerList)
  | .initStatus brokers, .proceed =>
    some (s.setStatus request.operationId (.inProgress "" [] brokers), .next brokers [] brokers)
  | .next [] completed _, .proceed =>
    some (s.setStatus request.operationId (.completed completed), .finished)
  | .next (broker :: todo) completed remaining, .proceed =>
    if (s.statuses request.operationId).isNone then
      some (s, .drain ⟨broker, todo, completed, remaining⟩)
    -- `remaining_brokers[1..]` panics: the broker was listed twice and both are taken off
    else if remaining = [] then some (s, .finished)
    else some (s.setStatus request.operationId (.inProgress broker completed remaining.tail),
      .drain ⟨broker, todo, completed, remaining⟩)
  | .drain turn, .ok => some ({ s with drained := s.drained.insert turn.broker }, .upgrade turn)
  | .upgrade turn, .ok => some (s, .health turn)
  | .health turn, .healthy answer => some (s, if answer then .finalCheck turn else .health turn)
  | .health turn, .timeUp => some (s, .finalCheck turn)
  | .finalCheck turn, .healthy answer =>
    some (s, if answer then .restore turn
      else .markFailed turn
        ("Storage error: Broker " ++ turn.broker ++ " failed health check after upgrade"))
  | .restore turn, .ok =>
    some ({ s with drained := s.drained.filter (· ≠ turn.broker) },
      .next turn.todo (turn.completed ++ [turn.broker])
        (turn.remaining.filter (· ≠ turn.broker)))
  | .drain turn, .err error => some (s, .markFailed turn error)
  | .upgrade turn, .err error => some (s, .markFailed turn error)
  | .health turn, .err error => some (s, .markFailed turn error)
  | .finalCheck turn, .err error => some (s, .markFailed turn error)
  | .restore turn, .err error => some (s, .markFailed turn error)
  | .markFailed turn error, .proceed =>
    some (s.setStatus request.operationId (.failed error turn.broker),
      if request.rollbackOnFailure then .markRolledBack turn error else .finished)
  -- `rollback_completed_brokers` only logs
  | .markRolledBack turn error, .proceed =>
    some (s.setStatus request.operationId
      (.rolledBack ("Failed to upgrade broker " ++ turn.broker ++ ": " ++ error)), .finished)
  | _, _ => none

/-- `rollback_upgrade`, one step: a look at the status under the lock, and later the insert. -/
def rollbackStep (s : Upgrades) : RollbackPhase → Option (Upgrades × RollbackPhase)
  | .check operationId =>
    match s.statuses operationId with
    | none => some (s, .done (.error (.storage
        ("Upgrade operation " ++ operationId ++ " not found"))))
    | some (.inProgress _ _ _) =>
      some (s, .insert operationId "Manual rollback requested")
    | some (.completed _) =>
      some (s, .insert operationId "Manual rollback of completed upgrade")
    | some status => some (s, .done (.error (.cannotRollback status)))
  | .insert operationId reason =>
    some ({ s.setStatus operationId (.rolledBack reason) with
      rolledBack := operationId :: s.rolledBack }, .done (.ok ()))
  | .done _ => none

def step (s : Upgrades) : Label → Option Upgrades
  | .startUpgrade request => some (s.startUpgrade request).1
  | .task i event =>
    (s.tasks[i]?).bind fun t =>
      (s.taskStep t.request t.phase event).map fun next =>
        { next.1 with tasks := s.tasks.set i { t with phase := next.2 } }
  | .rollbackUpgrade operationId =>
    some { s with rollbacks := s.rollbacks ++ [.check operationId] }
  | .rollback i =>
    (s.rollbacks[i]?).bind fun phase =>
      (s.rollbackStep phase).map fun next =>
        { next.1 with rollbacks := s.rollbacks.set i next.2 }
  | .setBrokers brokers => some { s with brokerList := brokers }

end Upgrades

/-! ## Conditions on a run -/

def Upgrades.Ended (s : Upgrades) (operationId : String) : Prop :=
  ∀ t ∈ s.tasks, t.request.operationId = operationId → t.phase = .finished

def RollbackPhase.checks : RollbackPhase → Option String
  | .check operationId => some operationId
  | _ => none

/-- A task is spawned when no other runs and no broker is drained; an operation is rolled back
after its task has ended. -/
def Orderly (s : Upgrades) : Label → Prop
  | .startUpgrade request =>
    (s.startUpgrade request).2.isOk = true →
      (∀ t ∈ s.tasks, t.phase = .finished) ∧ s.drained = []
  | .rollback i => ∀ phase ∈ s.rollbacks[i]?, ∀ operationId ∈ phase.checks, s.Ended operationId
  | _ => True

instance (s : Upgrades) (operationId : String) : Decidable (s.Ended operationId) :=
  inferInstanceAs (Decidable (∀ t ∈ s.tasks, _ → _))

instance (s : Upgrades) (l) : Decidable (Orderly s l) := by
  unfold Orderly
  split <;> infer_instance

/-! ## What a step of a task does -/

def Phase.begun : Phase → Bool
  | .readBrokers | .initStatus _ => false
  | _ => true

/-- What is drained while a task that runs alone stands there. -/
def Phase.DrainedOk (drained : List String) : Phase → Prop
  | .readBrokers | .initStatus _ | .next _ _ _ | .drain _ => drained = []
  | .upgrade turn | .health turn | .finalCheck turn | .restore turn => drained = [turn.broker]
  | .markFailed _ _ | .markRolledBack _ _ | .finished => True

/-- The steps of a task, by what they touch: nothing, the status of its operation, or the
traffic of its broker. -/
inductive Move (s : Upgrades) (operationId : String) : Phase → Upgrades → Phase → Prop
  | quiet {phase phase' : Phase} (hbegun : phase'.begun = true → phase.begun = true)
      (hdrained : ∀ drained, phase.DrainedOk drained → phase'.DrainedOk drained) :
      Move s operationId phase s phase'
  | wrote {phase phase' : Phase} (status : UpgradeStatus)
      (hdrained : ∀ drained, phase.DrainedOk drained → phase'.DrainedOk drained) :
      Move s operationId phase (s.setStatus operationId status) phase'
  | drained (turn : Turn) :
      Move s operationId (.drain turn) { s with drained := s.drained.insert turn.broker }
        (.upgrade turn)
  | restored (turn : Turn) (todo completed remaining : List String) :
      Move s operationId (.restore turn) { s with drained := s.drained.filter (· ≠ turn.broker) }
        (.next todo completed remaining)

variable {s s' : Upgrades} {phase' : Phase}

theorem Upgrades.taskStep_cases {request : UpgradeRequest} {phase : Phase} {event : Event}
    (h : s.taskStep request phase event = some (s', phase')) :
    Move s request.operationId phase s' phase' := by
  cases phase <;> cases event <;> simp only [Upgrades.taskStep, reduceCtorEq] at h
  case readBrokers.proceed =>
    cases h
    exact .quiet id fun _ hd => hd
  case initStatus.proceed =>
    cases h
    exact .wrote _ fun _ hd => hd
  case next.proceed todo completed remaining =>
    cases todo with
    | nil =>
      cases h
      exact .wrote _ fun _ _ => trivial
    | cons broker todo =>
      simp only at h
      split_ifs at h
      · cases h
        exact .quiet id fun _ hd => hd
      · cases h
        exact .quiet id fun _ _ => trivial
      · cases h
        exact .wrote _ fun _ hd => hd
  case drain.ok turn =>
    cases h
    exact .drained turn
  case restore.ok turn =>
    cases h
    exact .restored turn _ _ _
  case upgrade.ok | health.timeUp =>
    cases h
    exact .quiet id fun _ hd => hd
  case health.healthy turn answer =>
    cases h
    cases answer <;> exact .quiet id fun _ hd => hd
  case finalCheck.healthy turn answer =>
    cases h
    cases answer with
    | true => exact .quiet id fun _ hd => hd
    | false => exact .quiet id fun _ _ => trivial
  case markFailed.proceed turn error =>
    cases h
    refine .wrote _ fun _ _ => ?_
    split <;> trivial
  case markRolledBack.proceed turn error =>
    cases h
    exact .wrote _ fun _ _ => trivial
  all_goals
    -- an operation on the broker failed
    cases h
    exact .quiet (fun _ => rfl) fun _ _ => trivial

theorem Upgrades.taskStep_finished (s : Upgrades) (request : UpgradeRequest) (event : Event) :
    s.taskStep request .finished event = none := by
  cases event <;> rfl

theorem Upgrades.rollbackStep_check {operationId : String} {phase' : RollbackPhase}
    (h : s.rollbackStep (.check operationId) = some (s', phase')) :
    s' = s ∧ ∀ id reason, phase' = .insert id reason →
      id = operationId ∧ (s.statuses id).isSome := by
  simp only [Upgrades.rollbackStep] at h
  split at h
  case h_1 | h_4 =>
    cases h
    exact ⟨rfl, fun id reason heq => by cases heq⟩
  case h_2 hsome | h_3 hsome =>
    cases h
    refine ⟨rfl, fun id reason heq => ?_⟩
    cases heq
    exact ⟨rfl, isSome_iff_exists.mpr ⟨_, hsome⟩⟩

namespace Move

variable {operationId : String} {phase : Phase}

variable (hmove : Move s operationId phase s' phase') {other : String}
include hmove

theorem rollbacks_eq : s'.rollbacks = s.rollbacks ∧ s'.rolledBack = s.rolledBack := by
  cases hmove <;> exact ⟨rfl, rfl⟩

theorem statuses_other (hother : other ≠ operationId) : s'.statuses other = s.statuses other := by
  cases hmove with
  | wrote status hdrained => exact Function.update_of_ne hother _ _
  | quiet | drained | restored => rfl

theorem status_kept (hsome : (s.statuses other).isSome) : (s'.statuses other).isSome := by
  by_cases hother : other = operationId
  · subst hother
    cases hmove with
    | wrote status hdrained => simp [Upgrades.setStatus]
    | quiet | drained | restored => exact hsome
  · rw [hmove.statuses_other hother]
    exact hsome

theorem begun_status (hstatus : phase.begun = true → (s.statuses operationId).isSome)
    (hbegun : phase'.begun = true) : (s'.statuses operationId).isSome := by
  cases hmove with
  | quiet hback hdrained => exact hstatus (hback hbegun)
  | wrote status hdrained => simp [Upgrades.setStatus]
  | drained | restored => exact hstatus rfl

theorem drainedOk (hone : s.drained.length ≤ 1) (hok : phase.DrainedOk s.drained) :
    s'.drained.length ≤ 1 ∧ phase'.DrainedOk s'.drained := by
  cases hmove with
  | quiet hback hdrained => exact ⟨hone, hdrained _ hok⟩
  | wrote status hdrained => exact ⟨hone, hdrained _ hok⟩
  | drained turn =>
    have hnone : s.drained = [] := hok
    simp [hnone, Phase.DrainedOk]
  | restored turn todo completed remaining =>
    have hturn : s.drained = [turn.broker] := hok
    simp [hturn, Phase.DrainedOk]

end Move

/-! ## The invariant of orderly runs -/

structure OrderlyInv (s : Upgrades) : Prop where
  oneTask : (s.tasks.map (·.request.operationId)).Nodup
  alone : AllBut (fun t => t.phase = .finished) s.tasks
  begun : ∀ t ∈ s.tasks, t.phase.begun = true → (s.statuses t.request.operationId).isSome
  one : s.drained.length ≤ 1
  drainedOk : ∀ t ∈ s.tasks, t.phase.DrainedOk s.drained
  rolledBack : ∀ operationId ∈ s.rolledBack,
    (∃ reason, s.statuses operationId = some (.rolledBack reason)) ∧ s.Ended operationId
  /-- A rollback that has found its status. -/
  pending : ∀ operationId reason, .insert operationId reason ∈ s.rollbacks →
    (s.statuses operationId).isSome ∧ s.Ended operationId

namespace OrderlyInv

theorem new (brokers : List String) : OrderlyInv (Upgrades.new brokers) where
  oneTask := List.nodup_nil
  alone := .nil
  begun := by simp [Upgrades.new]
  one := Nat.zero_le _
  drainedOk := by simp [Upgrades.new]
  rolledBack := by simp [Upgrades.new]
  pending := by simp [Upgrades.new]

theorem startUpgrade (hinv : OrderlyInv s) {request : UpgradeRequest}
    (horderly : Orderly s (.startUpgrade request)) : OrderlyInv (s.startUpgrade request).1 := by
  unfold Upgrades.startUpgrade
  split_ifs with hvelocity hexists
  · exact hinv
  · exact hinv
  obtain ⟨hended, hclean⟩ := horderly (by
    rw [Upgrades.startUpgrade, if_neg hvelocity, if_neg hexists]
    rfl)
  have hnew : ∀ operationId, (s.statuses operationId).isSome →
      s.Ended operationId → ∀ t ∈ s.tasks ++ [⟨request, .readBrokers⟩],
        t.request.operationId = operationId → t.phase = .finished := by
    intro operationId hsome hold t ht hop
    rcases mem_append.mp ht with hin | hin
    · exact hold t hin hop
    · cases mem_singleton.mp hin
      exact absurd (hop ▸ hsome) hexists
  constructor
  case oneTask =>
    rw [map_append, nodup_append]
    refine ⟨hinv.oneTask, pairwise_singleton _ _, ?_⟩
    intro operationId hop new hnewId heq
    obtain ⟨t, ht, rfl⟩ := mem_map.mp hop
    cases mem_singleton.mp hnewId
    have hbegun := hinv.begun t ht (by rw [hended t ht]; rfl)
    rw [show t.request.operationId = request.operationId from heq] at hbegun
    exact hexists hbegun
  case alone => exact .concat hended _
  case begun =>
    intro t ht hbegun
    rcases mem_append.mp ht with hin | hin
    · exact hinv.begun t hin hbegun
    · cases mem_singleton.mp hin
      cases hbegun
  case one => exact hinv.one
  case drainedOk =>
    intro t ht
    rcases mem_append.mp ht with hin | hin
    · exact hinv.drainedOk t hin
    · cases mem_singleton.mp hin
      exact hclean
  case rolledBack =>
    intro operationId hop
    obtain ⟨⟨reason, hreason⟩, hold⟩ := hinv.rolledBack operationId hop
    exact ⟨⟨reason, hreason⟩, hnew operationId (by rw [hreason]; rfl) hold⟩
  case pending =>
    intro operationId reason hop
    obtain ⟨hsome, hold⟩ := hinv.pending operationId reason hop
    exact ⟨hsome, hnew operationId hsome hold⟩

theorem task (hinv : OrderlyInv s) {i : Nat} {t : Task} (ht : s.tasks[i]? = some t)
    (hrunning : t.phase ≠ .finished) (hmove : Move s t.request.operationId t.phase s' phase') :
    OrderlyInv { s' with tasks := s.tasks.set i { t with phase := phase' } } := by
  have hmem : t ∈ s.tasks := mem_of_getElem? ht
  -- the one task that runs is this one
  have hset : ∀ u ∈ s.tasks.set i { t with phase := phase' },
      u = { t with phase := phase' } ∨ u ∈ s.tasks ∧ u.phase = .finished :=
    fun u hu => hinv.alone.of_mem_set ht hrunning hu
  have hended : ∀ operationId, s.Ended operationId → operationId ≠ t.request.operationId ∧
      ∀ u ∈ s.tasks.set i { t with phase := phase' },
        u.request.operationId = operationId → u.phase = .finished := by
    intro operationId hold
    have hne : operationId ≠ t.request.operationId := fun heq => hrunning (hold t hmem heq.symm)
    refine ⟨hne, fun u hu hop => ?_⟩
    rcases hset u hu with rfl | ⟨hin, hfin⟩
    · exact absurd hop.symm hne
    · exact hfin
  constructor
  case oneTask =>
    have hids : (s.tasks.set i { t with phase := phase' }).map (·.request.operationId) =
        s.tasks.map (·.request.operationId) := by
      rw [map_set]
      refine ext_getElem? fun j => ?_
      rw [getElem?_set]
      split_ifs with hij hlt
      · subst hij
        simp [ht]
      · subst hij
        simpa using hlt
      · rfl
    rw [hids]
    exact hinv.oneTask
  case alone => exact hinv.alone.set ht hrunning _
  case begun =>
    intro u hu hbegun
    rcases hset u hu with rfl | ⟨hin, _⟩
    · exact hmove.begun_status (hinv.begun t hmem) hbegun
    · exact hmove.status_kept (hinv.begun u hin hbegun)
  case one => exact (hmove.drainedOk hinv.one (hinv.drainedOk t hmem)).1
  case drainedOk =>
    intro u hu
    rcases hset u hu with rfl | ⟨_, hfin⟩
    · exact (hmove.drainedOk hinv.one (hinv.drainedOk t hmem)).2
    · rw [hfin]
      trivial
  case rolledBack =>
    intro operationId hop
    rw [hmove.rollbacks_eq.2] at hop
    obtain ⟨⟨reason, hreason⟩, hold⟩ := hinv.rolledBack operationId hop
    obtain ⟨hne, hnow⟩ := hended operationId hold
    exact ⟨⟨reason, (hmove.statuses_other hne).trans hreason⟩, hnow⟩
  case pending =>
    intro operationId reason hop
    rw [hmove.rollbacks_eq.1] at hop
    obtain ⟨hsome, hold⟩ := hinv.pending operationId reason hop
    exact ⟨hmove.status_kept hsome, (hended operationId hold).2⟩

theorem rollback (hinv : OrderlyInv s) {i : Nat} {phase phase' : RollbackPhase}
    (hphase : s.rollbacks[i]? = some phase)
    (horderly : ∀ operationId ∈ phase.checks, s.Ended operationId)
    (hstep : s.rollbackStep phase = some (s', phase')) :
    OrderlyInv { s' with rollbacks := s.rollbacks.set i phase' } := by
  cases phase with
  | check operationId =>
    obtain ⟨rfl, hfound⟩ := Upgrades.rollbackStep_check hstep
    refine { hinv with pending := fun id reason hmem => ?_ }
    rcases mem_or_eq_of_mem_set hmem with hin | heq
    · exact hinv.pending id reason hin
    · obtain ⟨rfl, hsome⟩ := hfound id reason heq.symm
      exact ⟨hsome, horderly _ rfl⟩
  | insert operationId reason =>
    cases hstep
    obtain ⟨hsome, hended⟩ := hinv.pending operationId reason (mem_of_getElem? hphase)
    have hkept : ∀ other, (s.statuses other).isSome →
        ((s.setStatus operationId (.rolledBack reason)).statuses other).isSome := by
      intro other hother
      by_cases heq : other = operationId
      · subst heq
        simp [Upgrades.setStatus]
      · simpa [Upgrades.setStatus, heq] using hother
    refine { hinv with
      begun := fun t ht hbegun => hkept _ (hinv.begun t ht hbegun)
      rolledBack := fun id hid => ?_
      pending := fun id reason' hmem => ?_ }
    · by_cases heq : id = operationId
      · subst heq
        exact ⟨⟨reason, by simp [Upgrades.setStatus]⟩, hended⟩
      · obtain ⟨⟨reason', hreason'⟩, hold⟩ :=
          hinv.rolledBack id (mem_of_ne_of_mem heq hid)
        exact ⟨⟨reason', by simpa [Upgrades.setStatus, heq] using hreason'⟩, hold⟩
    · rcases mem_or_eq_of_mem_set hmem with hin | heq
      · obtain ⟨hid, hold⟩ := hinv.pending id reason' hin
        exact ⟨hkept id hid, hold⟩
      · cases heq
  | done result => cases hstep

end OrderlyInv

theorem OrderlyInv.step {l : Label} (hinv : OrderlyInv s) (horderly : Orderly s l)
    (hstep : s.step l = some s') : OrderlyInv s' := by
  cases l with
  | startUpgrade request =>
    cases hstep
    exact hinv.startUpgrade horderly
  | task i event =>
    obtain ⟨t, ht, hnext⟩ := bind_eq_some_iff.mp hstep
    obtain ⟨⟨s₁, phase'⟩, hmove, rfl⟩ := map_eq_some_iff.mp hnext
    refine hinv.task ht (fun hfin => ?_) (Upgrades.taskStep_cases hmove)
    rw [hfin, Upgrades.taskStep_finished] at hmove
    cases hmove
  | rollbackUpgrade operationId =>
    cases hstep
    refine { hinv with pending := fun id reason hmem => hinv.pending id reason ?_ }
    simpa using hmem
  | rollback i =>
    obtain ⟨phase, hphase, hnext⟩ := bind_eq_some_iff.mp hstep
    obtain ⟨⟨s₁, phase'⟩, hmove, rfl⟩ := map_eq_some_iff.mp hnext
    exact hinv.rollback hphase (horderly phase hphase) hmove
  | setBrokers brokers =>
    cases hstep
    exact { hinv with }

/-- **Orderly upgrades.** If tasks are spawned one after the other with no broker left drained, and
roll-backs wait for the task, then no operation has two tasks, at most one broker is drained, and
what was rolled back stays so. -/
theorem upgrades_orderly {brokers : List String} {labels : List Label} {s : Upgrades}
    (horderly : Along Upgrades.step Orderly (Upgrades.new brokers) labels)
    (hrun : exec Upgrades.step (Upgrades.new brokers) labels = some s) :
    (s.tasks.map (·.request.operationId)).Nodup ∧ s.drained.length ≤ 1 ∧
      ∀ operationId ∈ s.rolledBack, (∃ reason, s.statuses operationId = some (.rolledBack reason)) ∧
          ∀ i t event, s.tasks[i]? = some t → t.request.operationId = operationId →
            s.step (.task i event) = none := by
  have hinv : OrderlyInv s :=
    exec_invariant (fun _ _ _ hinv horderly hstep => hinv.step horderly hstep)
      (OrderlyInv.new brokers) horderly hrun
  refine ⟨hinv.oneTask, hinv.one, fun operationId hop => ?_⟩
  obtain ⟨hstatus, hended⟩ := hinv.rolledBack operationId hop
  refine ⟨hstatus, fun i t event ht hid => ?_⟩
  have hfin : t.phase = .finished := hended t (mem_of_getElem? ht) hid
  rw [Upgrades.step, ht, bind_some, hfin, Upgrades.taskStep_finished]
  rfl

namespace Runs

def request (operationId : String) : UpgradeRequest := ⟨operationId, "2.0.0", 1, true⟩

def oneBroker (i : Nat) : List Label :=
  [.task i .proceed, .task i .ok, .task i .ok, .task i (.healthy true), .task i (.healthy true),
    .task i .ok]

def begin (i : Nat) : List Label := [.task i .proceed, .task i .proceed]

def upgradeThenRollback : List Label :=
  [.startUpgrade (request "up-1")] ++ begin 0 ++ oneBroker 0 ++ oneBroker 0 ++
    [.task 0 .proceed, .rollbackUpgrade "up-1", .rollback 0, .rollback 0]

/-- The upgrade of the second broker fails after it was drained, and a second operation begins. -/
def failThenUpgrade : List Label :=
  [.startUpgrade (request "up-1")] ++ begin 0 ++ oneBroker 0 ++
    [.task 0 .proceed, .task 0 .ok, .task 0 (.err "no image"), .task 0 .proceed,
      .task 0 .proceed] ++
    [.startUpgrade (request "up-2")] ++ begin 1 ++ [.task 1 .proceed, .task 1 .ok]

def rollbackRunning : List Label :=
  [.startUpgrade (request "up-1")] ++ begin 0 ++
    [.rollbackUpgrade "up-1", .rollback 0, .rollback 0]

end Runs

open Runs

theorem upgrades_orderly_rolledBack :
    ∃ s, exec Upgrades.step (Upgrades.new ["broker-1", "broker-2"]) upgradeThenRollback = some s ∧
      s.rolledBack = ["up-1"] ∧ (s.tasks.map (·.request.operationId)).Nodup ∧
      s.drained.length ≤ 1 ∧ ∃ reason, s.statuses "up-1" = some (.rolledBack reason) := by
  have hrun : ∃ s, exec Upgrades.step (Upgrades.new ["broker-1", "broker-2"])
      upgradeThenRollback = some s ∧ s.rolledBack = ["up-1"] := ⟨_, rfl, rfl⟩
  obtain ⟨s, hexec, hrolled⟩ := hrun
  obtain ⟨hids, hone, hback⟩ := upgrades_orderly (by decide +kernel) hexec
  exact ⟨s, hexec, hrolled, hids, hone, (hback "up-1" (by rw [hrolled]; decide)).1⟩

/-- Two starts give one operation two tasks; a failed upgrade leaves its broker drained while the
next drains another; and a rolled back operation drains a broker. -/
theorem upgrades_overlap : ((exec Upgrades.step (Upgrades.new ["broker-1", "broker-2"])
        [.startUpgrade (request "up-1"), .startUpgrade (request "up-1")]).map
      (·.tasks.map (·.request.operationId))) = some ["up-1", "up-1"] ∧
    ((exec Upgrades.step (Upgrades.new ["broker-1", "broker-2"]) failThenUpgrade).map
      (·.drained)) = some ["broker-1", "broker-2"] ∧
    ((exec Upgrades.step (Upgrades.new ["broker-1", "broker-2"]) rollbackRunning).map
      fun s => (s.rolledBack, s.statuses "up-1", s.drained)) =
        some (["up-1"], some (.rolledBack "Manual rollback requested"), []) ∧
    ((exec Upgrades.step (Upgrades.new ["broker-1", "broker-2"])
        (rollbackRunning ++ [.task 0 .proceed, .task 0 .ok])).map
      fun s => (s.rolledBack, s.statuses "up-1", s.drained)) =
        some (["up-1"], some (.inProgress "broker-1" [] ["broker-2"]), ["broker-1"]) :=
  ⟨rfl, rfl, rfl, rfl⟩

end RustMq.Operations
