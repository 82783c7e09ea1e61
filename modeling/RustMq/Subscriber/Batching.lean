import RustMq.Subscriber.Delivery

/-!
# From the queue into batches

`process_pending_messages` takes as many messages from the queue as a batch may have rows, and fills
a batch with them until it is full. A batch is also full when it has enough bytes: the messages that
are left then are neither in the batch nor in the queue. And the batch stays in `active_batches` when
it was inserted, so that the check for aged batches finds it there and inserts it again.

Where neither happens the batches and the queue are, one after the other, what was queued
(`Conserved`).
-/

namespace RustMq.BigQuery

open Lib List

namespace Service

variable {J : Type} (cfg : SubscriberConfig J)

/-- What was queued is what was passed to `insert_batch`, what is on its way there, and what is still
in the queue. -/
def Conserved (s : Service J) : Prop :=
  match s.phase with
  | .idle => s.queued = s.passed.flatMap BigQueryBatch.messages ++ s.messageQueue
  | .sending batch aged => aged = [] ∧
    s.queued = s.passed.flatMap BigQueryBatch.messages ++ (batch.messages ++ s.messageQueue)

/-- The processor's calls only, with every insert a success: no batch is full before its last message,
and none is aged. -/
def Kept (s : Service J) : Label → Prop
  | .pending .. => (s.collected cfg).length ≤ 1 ∨
    BigQueryBatch.sizeOf cfg.serde (s.collected cfg).dropLast < cfg.batching.maxBatchSizeBytes
  | .check now order => ∀ id ∈ order, ∀ batch ∈ s.activeBatches.get? id,
    batch.isAged now cfg.batching.maxBatchLatencyMs = false
  | .insert outcome => ∃ result ∈ outcome.toOption, result.success = true
  | .receive _ | .commit _ => True
  | .shutdown .. | .crash => False

instance (s : Service J) (label) : Decidable (Kept cfg s label) := by
  induction label using Label.casesOn <;> dsimp only [Kept] <;> infer_instance

variable {cfg} {s s' : Service J}

theorem Conserved.receive {message : BigQueryMessage J} (h : s.Conserved)
    (hphase : s'.phase = s.phase) (hpassed : s'.passed = s.passed)
    (hqueue : s'.messageQueue = s.messageQueue ++ [message])
    (hqueued : s'.queued = s.queued ++ [message]) : s'.Conserved := by
  unfold Conserved at h ⊢
  rw [hphase, hpassed, hqueue, hqueued]
  cases hp : s.phase with
  | idle =>
    simp only [hp] at h ⊢
    rw [h, append_assoc]
  | sending batch aged =>
    simp only [hp] at h ⊢
    exact ⟨h.1, by rw [h.2]; simp only [append_assoc]⟩

theorem Conserved.pending {batchId : String} {now : Int} (h : s.Conserved) (hphase : s.phase = .idle)
    (hkept : Kept cfg s (.pending batchId now)) :
    s.queued = s.passed.flatMap BigQueryBatch.messages ++
      (((BigQueryBatch.new batchId now).fill cfg.serde cfg.batching (s.collected cfg)).messages ++
        s.messageQueue.drop (min cfg.batching.maxRowsPerBatch s.messageQueue.length)) := by
  have hrows : (BigQueryBatch.new batchId now : BigQueryBatch J).messages.length +
      (s.collected cfg).length ≤ cfg.batching.maxRowsPerBatch := by
    rw [collected, length_take]
    simp only [BigQueryBatch.new, length_nil]
    omega
  have hfill : ((BigQueryBatch.new batchId now).fill cfg.serde cfg.batching
      (s.collected cfg)).messages = [] ++ s.collected cfg :=
    (BigQueryBatch.messages_fill_iff hrows).mpr
      (hkept.imp id fun hsize => by rwa [BigQueryBatch.new, Nat.zero_add])
  rw [hfill, nil_append, collected, take_append_drop]
  rw [Conserved, hphase] at h
  exact h

theorem verdict_of_success {config : ErrorHandlingConfig} {attempt : Nat}
    {outcome : Except BigQueryError InsertResult} {result : InsertResult}
    (hresult : result ∈ outcome.toOption) (hsuccess : result.success = true) :
    config.verdict attempt outcome = .inserted := by
  cases outcome with
  | error e => cases hresult
  | ok r =>
    cases hresult
    exact if_pos hsuccess

theorem nextAged_of_kept {now : Int} {order : List String} (hkept : Kept cfg s (.check now order)) :
    nextAged cfg s (order.filter fun id =>
      (s.activeBatches.get? id).any (·.isAged now cfg.batching.maxBatchLatencyMs)) =
      { s with phase := .idle } := by
  have hnone : (order.filter fun id =>
      (s.activeBatches.get? id).any (·.isAged now cfg.batching.maxBatchLatencyMs)) = [] := by
    refine filter_eq_nil_iff.mpr fun id hid haged => ?_
    cases hget : s.activeBatches.get? id with
    | none =>
      rw [hget] at haged
      cases haged
    | some batch =>
      rw [hget, Option.any_some, hkept id hid batch hget] at haged
      cases haged
  rw [hnone, nextAged]

theorem Conserved.step {label : Label} (h : s.Conserved) (hkept : Kept cfg s label)
    (hstep : Step cfg s label s') : s'.Conserved := by
  cases hstep with
  | skipped | refused | committed | noPermit => exact h
  | queued => exact h.receive rfl rfl rfl rfl
  | nothing hphase hmax hnone =>
    have hpending := h.pending hphase hkept
    subst hmax
    rw [collected, hnone] at hpending
    simp only [Conserved, hphase]
    exact hpending
  | filled hphase hmax hbatch =>
    subst hmax hbatch
    exact ⟨rfl, h.pending hphase hkept⟩
  | check hphase =>
    rw [nextAged_of_kept hkept]
    rw [Conserved, hphase] at h
    exact h
  | @insert outcome batch aged hphase =>
    obtain ⟨result, hresult, hsuccess⟩ := hkept
    rw [Conserved, hphase] at h
    obtain ⟨rfl, h⟩ := h
    rw [verdict_of_success hresult hsuccess]
    show s.queued = (s.passed ++ [batch]).flatMap _ ++ s.messageQueue
    rw [flatMap_append, flatMap_singleton, append_assoc]
    exact h
  | shutdown | crash => exact absurd hkept id

/-- **Nothing is lost and nothing repeated** between the calls. -/
theorem conserved_between_calls {queue : List (BigQueryMessage J)} {labels : List Label}
    (hexec : exec (Service.step cfg) (start queue) labels = some s)
    (hkept : Along (Service.step cfg) (Kept cfg) (start queue) labels) (hidle : s.phase = .idle) :
    s.queued = s.passed.flatMap BigQueryBatch.messages ++ s.messageQueue := by
  have h : s.Conserved := exec_invariant (I := Conserved (J := J))
    (fun _ _ _ h hP hs => h.step hP (step_cases hs)) (show Conserved (start queue) from rfl) hkept
    hexec
  rw [Conserved, hidle] at h
  exact h

end Service

/-! ## Runs -/

def queuedMessage (offset : Nat) (value : List UInt8) : BigQueryMessage (List UInt8) :=
  BigQueryMessage.generateInsertId
    ⟨value, ⟨"t", 0, offset, 0, none, .empty, none, none⟩, none, none⟩

/-- Three messages of a byte go into two batches. -/
theorem three_messages_conserved : ∃ s, exec (Service.step plainConfig)
        (.start [queuedMessage 0 [1], queuedMessage 1 [2], queuedMessage 2 [3]])
        [.pending "b" 0, .insert (.ok ⟨true, []⟩), .check 500 ["b"], .pending "c" 600,
          .insert (.ok ⟨true, []⟩)] = some s ∧
      s.queued = s.passed.flatMap BigQueryBatch.messages ++ s.messageQueue := by
  have hrun : (exec (Service.step plainConfig)
      (.start [queuedMessage 0 [1], queuedMessage 1 [2], queuedMessage 2 [3]])
      [.pending "b" 0, .insert (.ok ⟨true, []⟩), .check 500 ["b"], .pending "c" 600,
        .insert (.ok ⟨true, []⟩)]).map (fun s => s.phase.isIdle) = some true := by
    decide +kernel
  obtain ⟨s, hexec, hidle⟩ := Option.map_eq_some_iff.mp hrun
  exact ⟨s, hexec, Service.conserved_between_calls hexec (by decide +kernel)
    (Phase.eq_idle_of_isIdle hidle)⟩

/-- **Lost and repeated.** The first of two messages fills the batch, and the second is in no queue
any more; and an inserted message is inserted again when its batch is a second old. -/
theorem lost_and_repeated : (∃ s, exec (Service.step plainConfig)
        (.start [queuedMessage 0 (List.replicate 10 1), queuedMessage 1 (List.replicate 10 1)])
        [.pending "b" 0, .insert (.ok ⟨true, []⟩)] = some s ∧
      s.phase.isIdle = true ∧ s.messageQueue = [] ∧
      s.passed.map BigQueryBatch.messages = [[queuedMessage 0 (List.replicate 10 1)]]) ∧
    ∃ s, exec (Service.step plainConfig) (.start [queuedMessage 0 [1]])
        [.pending "b" 0, .insert (.ok ⟨true, []⟩), .check 1000 ["b"],
          .insert (.ok ⟨true, []⟩)] = some s ∧
      s.phase.isIdle = true ∧
      s.passed.map BigQueryBatch.messages = [[queuedMessage 0 [1]], [queuedMessage 0 [1]]] := by
  have hlost : (exec (Service.step plainConfig)
      (.start [queuedMessage 0 (replicate 10 1), queuedMessage 1 (replicate 10 1)])
      [.pending "b" 0, .insert (.ok ⟨true, []⟩)]).map (fun s => decide
        (s.phase.isIdle = true ∧ s.messageQueue = [] ∧
          s.passed.map BigQueryBatch.messages = [[queuedMessage 0 (replicate 10 1)]])) =
      some true := by
    decide +kernel
  have hrepeated : (exec (Service.step plainConfig) (.start [queuedMessage 0 [1]])
      [.pending "b" 0, .insert (.ok ⟨true, []⟩), .check 1000 ["b"],
        .insert (.ok ⟨true, []⟩)]).map (fun s => decide
        (s.phase.isIdle = true ∧ s.passed.map BigQueryBatch.messages =
          [[queuedMessage 0 [1]], [queuedMessage 0 [1]]])) = some true := by
    decide +kernel
  obtain ⟨s, hexec, hs⟩ := Option.map_eq_some_iff.mp hlost
  obtain ⟨s', hexec', hs'⟩ := Option.map_eq_some_iff.mp hrepeated
  exact ⟨⟨s, hexec, of_decide_eq_true hs⟩, s', hexec', of_decide_eq_true hs'⟩

end RustMq.BigQuery
