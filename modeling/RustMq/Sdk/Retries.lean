import RustMq.Sdk.OffsetTracker

/-!
# Retries of messages that were refused

A message the application refuses is looked up in the message cache (`process_partition_acks` of
`sdk/rust/src/consumer.rs`). If it is there, it is put into the queue of failed messages, with no
retry made yet and due in one second; if not, that is logged and nothing else is done. The cache is
bounded and drops what it likes, so what a lookup finds is a part of the label. The consumption loop
takes the due entries from the front of the queue (`process_failed_messages`). One with retries left
is sent again and goes to the back; one without goes to the dead letter queue, if there is one, and
leaves the queue whether or not that worked. The lock of the queue is held over the whole pass, so a
pass is one step. A successful acknowledgment does not look at the queue.

Times are in nanoseconds. Shifting by 64 or more wraps around in release builds.
-/

namespace RustMq.Sdk

open Lib List

structure RetryConfig where
  maxRetryAttempts : Nat
  deadLetterQueue : Option String

structure MessageKey where
  partition : Nat
  offset : Nat
  deriving DecidableEq

structure FailedMessage where
  message : MessageKey
  retryCount : Nat
  nextRetryTime : Nat
  deriving DecidableEq

inductive RetryEvent where
  | refused (message : MessageKey)
  /-- It was refused and is no longer in the cache. -/
  | uncached (message : MessageKey)
  | acked (message : MessageKey)
  /-- It was sent to the receiver again. -/
  | redelivered (message : MessageKey)
  /-- It was to be sent again and the receiver was closed. -/
  | unsent (message : MessageKey)
  | deadLettered (message : MessageKey)
  /-- It was to go to the dead letter queue and the send failed. -/
  | lost (message : MessageKey)
  /-- It was dropped, as there is no dead letter queue. -/
  | discarded (message : MessageKey)
  deriving DecidableEq

structure RetryState where
  tracker : OffsetTracker
  failedMessages : List FailedMessage
  events : List RetryEvent

/-- `cached` is whether the cache has a refused message; `sent i` and `stored i` are how the two sends
end for the entry `i` of a pass. -/
inductive RetryLabel where
  | refuse (message : MessageKey) (now : Nat) (cached : Bool)
  | ack (message : MessageKey)
  | process (now : Nat) (sent stored : Nat → Bool)

def second : Nat := 1000000000

def retryOne (cfg : RetryConfig) (now : Nat) (sent stored : Bool) (f : FailedMessage) :
    List FailedMessage × RetryEvent :=
  if f.retryCount < cfg.maxRetryAttempts then
    ([{ f with
        retryCount := f.retryCount + 1
        nextRetryTime := now + 2 ^ ((f.retryCount + 1) % 64) * second }],
      if sent then .redelivered f.message else .unsent f.message)
  else
    match cfg.deadLetterQueue with
    | some _ => ([], if stored then .deadLettered f.message else .lost f.message)
    | none => ([], .discarded f.message)

def retryAll (cfg : RetryConfig) (now : Nat) (sent stored : Nat → Bool) :
    Nat → List FailedMessage → List FailedMessage × List RetryEvent
  | _, [] => ([], [])
  | i, f :: fs =>
    let one := retryOne cfg now (sent i) (stored i) f
    let rest := retryAll cfg now sent stored (i + 1) fs
    (one.1 ++ rest.1, one.2 :: rest.2)

namespace RetryState

def new : RetryState := ⟨.new, [], []⟩

def ready (s : RetryState) (now : Nat) : List FailedMessage :=
  s.failedMessages.takeWhile (·.nextRetryTime ≤ now)

def processFailedMessages (cfg : RetryConfig) (now : Nat) (sent stored : Nat → Bool)
    (s : RetryState) : RetryState :=
  let processed := retryAll cfg now sent stored 0 (s.ready now)
  { s with
    failedMessages := s.failedMessages.dropWhile (·.nextRetryTime ≤ now) ++ processed.1
    events := s.events ++ processed.2 }

def step (cfg : RetryConfig) (s : RetryState) : RetryLabel → Option RetryState
  | .refuse message now true =>
    some { s with
      failedMessages := s.failedMessages ++ [⟨message, 0, now + second⟩]
      events := s.events ++ [.refused message] }
  | .refuse message _ false => some { s with events := s.events ++ [.uncached message] }
  | .ack message =>
    some { s with
      tracker := s.tracker.perform (.ack message.partition message.offset)
      events := s.events ++ [.acked message] }
  | .process now sent stored => some (s.processFailedMessages cfg now sent stored)

end RetryState

/-! ## What a pass does -/

variable {cfg : RetryConfig} {m : MessageKey}

section pass

variable {now : Nat} {f : FailedMessage}

section

variable {sent stored : Nat → Bool} {i : Nat} {fs : List FailedMessage}

variable {e : RetryEvent} {label : RetryLabel}

theorem exists_of_mem_retryAll (h : e ∈ (retryAll cfg now sent stored i fs).2) :
    ∃ entry ∈ fs.zipIdx i, e = (retryOne cfg now (sent entry.2) (stored entry.2) entry.1).2 := by
  induction fs generalizing i with
  | nil => cases h
  | cons f fs ih =>
    rw [zipIdx_cons]
    rcases mem_cons.mp h with rfl | h
    · exact ⟨(f, i), mem_cons_self, rfl⟩
    · obtain ⟨entry, hentry, he⟩ := ih h
      exact ⟨entry, mem_cons_of_mem _ hentry, he⟩

theorem message_of_mem_retryAll {g : FailedMessage} (h : g ∈ (retryAll cfg now sent stored i fs).1) :
    ∃ f ∈ fs, g.message = f.message := by
  induction fs generalizing i with
  | nil => cases h
  | cons f fs ih =>
    rcases mem_append.mp h with h | h
    · refine ⟨f, mem_cons_self, ?_⟩
      unfold retryOne at h
      split at h
      · rw [mem_singleton.mp h]
      · split at h <;> cases h
    · obtain ⟨f', hf', hg⟩ := ih h
      exact ⟨f', mem_cons_of_mem _ hf', hg⟩

end

theorem retryOne_event_cases (cfg : RetryConfig) (now : Nat) (sent stored : Bool)
    (f : FailedMessage) :
    (retryOne cfg now sent stored f).2 = .redelivered f.message ∨
    (retryOne cfg now sent stored f).2 = .unsent f.message ∨
    (retryOne cfg now sent stored f).2 = .deadLettered f.message ∨
    (retryOne cfg now sent stored f).2 = .lost f.message ∧
      cfg.maxRetryAttempts ≤ f.retryCount ∧ cfg.deadLetterQueue.isSome = true ∧ stored = false ∨
    (retryOne cfg now sent stored f).2 = .discarded f.message ∧ cfg.deadLetterQueue = none := by
  unfold retryOne
  split
  · cases sent with
    | true => exact .inl rfl
    | false => exact .inr (.inl rfl)
  · next hexhausted =>
    split
    · next hqueue =>
      cases stored with
      | true => exact .inr (.inr (.inl rfl))
      | false =>
        refine .inr (.inr (.inr (.inl ⟨rfl, Nat.le_of_not_lt hexhausted, ?_, rfl⟩)))
        rw [hqueue]
        rfl
    · next hqueue => exact .inr (.inr (.inr (.inr ⟨rfl, hqueue⟩)))

end pass

/-! ## What a pass keeps -/

section measures

variable {μ : List FailedMessage → Nat} {ν : List RetryEvent → Nat}

/-- A measure of queues and one of histories, both additive, whose sum one entry keeps. -/
structure Conserved (cfg : RetryConfig) (μ : List FailedMessage → Nat)
    (ν : List RetryEvent → Nat) : Prop where
  queue_append : ∀ fs gs, μ (fs ++ gs) = μ fs + μ gs
  events_append : ∀ es ds, ν (es ++ ds) = ν es + ν ds
  one : ∀ now sent stored f, μ (retryOne cfg now sent stored f).1 +
    ν [(retryOne cfg now sent stored f).2] = μ [f]

theorem Conserved.retryAll (h : Conserved cfg μ ν) (now : Nat) (sent stored : Nat → Bool) (i : Nat)
    (fs : List FailedMessage) :
    μ (retryAll cfg now sent stored i fs).1 + ν (retryAll cfg now sent stored i fs).2 = μ fs := by
  induction fs generalizing i with
  | nil =>
    have hqueue := h.queue_append [] []
    have hevents := h.events_append [] []
    simp only [append_nil] at hqueue hevents
    simp only [Sdk.retryAll]
    omega
  | cons f fs ih =>
    have hone := h.one now (sent i) (stored i) f
    have hrest := ih (i + 1)
    have hfs := h.queue_append [f] fs
    have hevents := h.events_append [(retryOne cfg now (sent i) (stored i) f).2]
      (Sdk.retryAll cfg now sent stored (i + 1) fs).2
    simp only [Sdk.retryAll, h.queue_append]
    rw [singleton_append] at hfs hevents
    omega

theorem Conserved.process (h : Conserved cfg μ ν) (now : Nat) (sent stored : Nat → Bool)
    (s : RetryState) :
    μ (s.processFailedMessages cfg now sent stored).failedMessages +
        ν (s.processFailedMessages cfg now sent stored).events =
      μ s.failedMessages + ν s.events := by
  have hpass := h.retryAll now sent stored 0 (s.ready now)
  have hsplit := h.queue_append (s.ready now) (s.failedMessages.dropWhile (·.nextRetryTime ≤ now))
  rw [RetryState.ready, takeWhile_append_dropWhile] at hsplit
  simp only [RetryState.processFailedMessages, h.queue_append, h.events_append]
  rw [RetryState.ready] at *
  omega

def entriesOf (m : MessageKey) (fs : List FailedMessage) : Nat :=
  fs.countP (·.message = m)

def takenOut (m : MessageKey) (es : List RetryEvent) : Nat :=
  es.count (.deadLettered m) + es.count (.lost m) + es.count (.discarded m)

def retriesLeft (cfg : RetryConfig) (m : MessageKey) (fs : List FailedMessage) : Nat :=
  (fs.map fun f => if f.message = m then cfg.maxRetryAttempts - f.retryCount else 0).sum

def retriesMade (m : MessageKey) (es : List RetryEvent) : Nat :=
  es.count (.redelivered m) + es.count (.unsent m)

theorem conserved_entries (cfg : RetryConfig) (m : MessageKey) :
    Conserved cfg (entriesOf m) (takenOut m) where
  queue_append _ _ := List.countP_append
  events_append es ds := by
    simp only [takenOut, count_append]
    omega
  one now sent stored f := by
    unfold retryOne entriesOf takenOut
    by_cases hm : f.message = m
    all_goals
      split
      · cases sent <;> simp [hm]
      · split
        · cases stored <;> simp [hm]
        · simp [hm]

theorem conserved_retries (cfg : RetryConfig) (m : MessageKey) :
    Conserved cfg (retriesLeft cfg m) (retriesMade m) where
  queue_append fs gs := by
    simp only [retriesLeft, map_append, sum_append]
  events_append es ds := by
    simp only [retriesMade, count_append]
    omega
  one now sent stored f := by
    unfold retryOne retriesLeft retriesMade
    by_cases hm : f.message = m
    all_goals
      split
      · cases sent <;> simp [hm] <;> omega
      · split
        · cases stored <;> simp [hm] <;> omega
        · simp [hm] <;> omega

end measures

/-! ## Every run -/

variable {s s' : RetryState}

section runs

theorem not_mem_retryAll (he : e = .refused m ∨ e = .acked m) {now : Nat} {sent stored : Nat → Bool}
    {i : Nat} {fs : List FailedMessage} : e ∉ (retryAll cfg now sent stored i fs).2 := by
  intro hin
  obtain ⟨entry, -, heq⟩ := exists_of_mem_retryAll hin
  have hcases := retryOne_event_cases cfg now (sent entry.2) (stored entry.2) entry.1
  rw [← heq] at hcases
  rcases he with rfl | rfl
  · simp at hcases
  · simp at hcases

/-- What the refusals of a message account for. -/
structure Accounts (cfg : RetryConfig) (m : MessageKey) (s : RetryState) : Prop where
  entries : entriesOf m s.failedMessages + takenOut m s.events = s.events.count (.refused m)
  retries : retriesLeft cfg m s.failedMessages + retriesMade m s.events =
    cfg.maxRetryAttempts * s.events.count (.refused m)

theorem Accounts.step (h : Accounts cfg m s) (hstep : s.step cfg label = some s') :
    Accounts cfg m s' := by
  obtain ⟨hentries, hretries⟩ := h
  cases label with
  | refuse message now cached =>
    cases cached with
    | true =>
      cases hstep
      constructor
      · dsimp only
        rw [(conserved_entries cfg m).queue_append, (conserved_entries cfg m).events_append,
          count_append]
        by_cases hm : message = m
        · simp [entriesOf, takenOut, hm] at hentries ⊢
          omega
        · simp [entriesOf, takenOut, hm] at hentries ⊢
          omega
      · dsimp only
        rw [(conserved_retries cfg m).queue_append, (conserved_retries cfg m).events_append,
          count_append, Nat.mul_add]
        by_cases hm : message = m
        · simp [retriesLeft, retriesMade, hm] at hretries ⊢
          omega
        · simp [retriesLeft, retriesMade, hm] at hretries ⊢
          omega
    | false =>
      cases hstep
      constructor
      · dsimp only
        rw [(conserved_entries cfg m).events_append, count_append]
        simp [takenOut] at hentries ⊢
        omega
      · dsimp only
        rw [(conserved_retries cfg m).events_append, count_append]
        simp [retriesMade] at hretries ⊢
        omega
  | ack message =>
    cases hstep
    constructor
    · dsimp only
      rw [(conserved_entries cfg m).events_append, count_append]
      simp [takenOut] at hentries ⊢
      omega
    · dsimp only
      rw [(conserved_retries cfg m).events_append, count_append]
      simp [retriesMade] at hretries ⊢
      omega
  | process now sent stored =>
    cases hstep
    have hcount : (s.processFailedMessages cfg now sent stored).events.count (.refused m) =
        s.events.count (.refused m) := by
      rw [RetryState.processFailedMessages, count_append,
        count_eq_zero.mpr (not_mem_retryAll (.inl rfl)), Nat.add_zero]
    constructor
    · rw [(conserved_entries cfg m).process, hcount, hentries]
    · rw [(conserved_retries cfg m).process, hcount, hretries]

variable {labels : List RetryLabel} (hexec : exec (RetryState.step cfg) .new labels = some s)
include hexec

theorem accounts_of_exec : Accounts cfg m s := by
  have hnew : Accounts cfg m .new := ⟨rfl, rfl⟩
  exact exec_invariant_of_step (fun _ _ _ h hs => h.step hs) hnew hexec

/-- **Each refusal allows its own retries.** -/
theorem redelivered_le_refused (m : MessageKey) :
    s.events.count (.redelivered m) ≤ cfg.maxRetryAttempts * s.events.count (.refused m) := by
  have hretries := (accounts_of_exec (m := m) hexec).retries
  unfold retriesMade at hretries
  omega

end runs

/-! ## After an acknowledgment -/

section acknowledged

/-- The message is acknowledged only when it is not in the queue, and not refused after that. -/
def AckedOutside (m : MessageKey) (s : RetryState) : RetryLabel → Prop
  | .refuse message _ cached => cached = true → message = m → .acked m ∉ s.events
  | .ack message => message = m → ∀ f ∈ s.failedMessages, f.message ≠ m
  | .process _ _ _ => True

instance (s : RetryState) (label) : Decidable (AckedOutside m s label) := by
  unfold AckedOutside
  split <;> infer_instance

/-- After an acknowledgment the message is neither sent again nor given up. -/
def AfterAck (m : MessageKey) (a b : RetryEvent) : Prop :=
  a = .acked m → b ≠ .redelivered m ∧ b ≠ .deadLettered m

structure Quiet (m : MessageKey) (s : RetryState) : Prop where
  gone : .acked m ∈ s.events → ∀ f ∈ s.failedMessages, f.message ≠ m
  quiet : s.events.Pairwise (AfterAck m)

theorem quiet_new : Quiet m .new where
  gone h := by cases h
  quiet := Pairwise.nil

theorem Quiet.append (h : Quiet m s) (he : e ≠ .redelivered m ∧ e ≠ .deadLettered m) :
    (s.events ++ [e]).Pairwise (AfterAck m) := by
  refine pairwise_append.mpr ⟨h.quiet, pairwise_singleton _ _, fun a _ b hb _ => ?_⟩
  rw [mem_singleton.mp hb]
  exact he

theorem Quiet.process (h : Quiet m s) (cfg : RetryConfig) (now : Nat) (sent stored : Nat → Bool) :
    Quiet m (s.processFailedMessages cfg now sent stored) := by
  have hready : ∀ f ∈ s.ready now, f ∈ s.failedMessages := fun f hf =>
    ( takeWhile_prefix _).subset hf
  constructor
  · intro hin f hf
    have hgone := h.gone ((mem_append.mp hin).resolve_right (not_mem_retryAll (.inr rfl)))
    rcases mem_append.mp hf with hf | hf
    · exact hgone f ((dropWhile_suffix _).subset hf)
    · obtain ⟨f', hf', hmessage⟩ := message_of_mem_retryAll hf
      rw [hmessage]
      exact hgone f' (hready f' hf')
  · refine pairwise_append.mpr ⟨h.quiet, ?_, ?_⟩
    · exact pairwise_of_forall_mem_list fun a ha b _ hacked =>
        absurd ha (not_mem_retryAll (.inr hacked))
    -- the message was acknowledged, so no entry of the pass is one of it
    · intro a ha b hb hack
      obtain ⟨entry, hentry, rfl⟩ := exists_of_mem_retryAll hb
      have hne : entry.1.message ≠ m :=
        h.gone (hack ▸ ha) entry.1 (hready _ (fst_mem_of_mem_zipIdx hentry))
      rcases retryOne_event_cases cfg now (sent entry.2) (stored entry.2) entry.1 with
        he | he | he | ⟨he, -⟩ | ⟨he, -⟩ <;> rw [he] <;> simp [hne]

theorem Quiet.step (h : Quiet m s) (hacked : AckedOutside m s label)
    (hstep : s.step cfg label = some s') : Quiet m s' := by
  cases label with
  | refuse message now cached =>
    cases cached with
    | true =>
      cases hstep
      refine ⟨fun hin f hf => ?_, h.append (by simp)⟩
      have hin : .acked m ∈ s.events := by simpa using hin
      rcases mem_append.mp hf with hf | hf
      · exact h.gone hin f hf
      · rw [mem_singleton.mp hf]
        exact fun hm => hacked rfl hm hin
    | false =>
      cases hstep
      exact ⟨fun hin f hf => h.gone (by simpa using hin) f hf, h.append (by simp)⟩
  | ack message =>
    cases hstep
    refine ⟨fun hin f hf => ?_, h.append (by simp)⟩
    rcases mem_append.mp hin with hin | hin
    · exact h.gone hin f hf
    · have hm : m = message := by simpa using hin
      exact hacked hm.symm f hf
  | process now sent stored =>
    cases hstep
    exact h.process cfg now sent stored

end acknowledged

/-! ## What leaves the queue -/

section dropped

def DeadLettersStored (cfg : RetryConfig) (m : MessageKey) (s : RetryState) : RetryLabel → Prop
  | .process now _ stored =>
    ∀ entry ∈ (s.ready now).zipIdx, entry.1.message = m →
      cfg.maxRetryAttempts ≤ entry.1.retryCount → cfg.deadLetterQueue.isSome = true →
      stored entry.2 = true
  | _ => True

instance (s : RetryState) (label) : Decidable (DeadLettersStored cfg m s label) := by
  unfold DeadLettersStored
  split <;> infer_instance

theorem mem_events_step (hstep : s.step cfg label = some s') (hin : e ∈ s'.events) :
    e ∈ s.events ∨ (∃ message, e = .refused message ∨ e = .uncached message ∨ e = .acked message) ∨
      ∃ now sent stored, label = .process now sent stored ∧ ∃ entry ∈ (s.ready now).zipIdx,
          e = (retryOne cfg now (sent entry.2) (stored entry.2) entry.1).2 := by
  cases label with
  | refuse message now cached =>
    cases cached with
    | true =>
      cases hstep
      rcases mem_append.mp hin with hin | hin
      · exact .inl hin
      · exact .inr (.inl ⟨message, .inl (mem_singleton.mp hin)⟩)
    | false =>
      cases hstep
      rcases mem_append.mp hin with hin | hin
      · exact .inl hin
      · exact .inr (.inl ⟨message, .inr (.inl (mem_singleton.mp hin))⟩)
  | ack message =>
    cases hstep
    rcases mem_append.mp hin with hin | hin
    · exact .inl hin
    · exact .inr (.inl ⟨message, .inr (.inr (mem_singleton.mp hin))⟩)
  | process now sent stored =>
    cases hstep
    rcases mem_append.mp hin with hin | hin
    · exact .inl hin
    · exact .inr (.inr ⟨now, sent, stored, rfl, exists_of_mem_retryAll hin⟩)

theorem lost_step (h : .lost m ∉ s.events) (hstored : DeadLettersStored cfg m s label)
    (hstep : s.step cfg label = some s') : .lost m ∉ s'.events := by
  intro hin
  rcases mem_events_step hstep hin with
    hin | ⟨message, he⟩ | ⟨now, sent, stored, rfl, entry, hentry, heq⟩
  · exact h hin
  · simp at he
  · rcases retryOne_event_cases cfg now (sent entry.2) (stored entry.2) entry.1 with
      he | he | he | ⟨he, hcount, hqueue, hfailed⟩ | ⟨he, -⟩ <;> rw [he] at heq <;> cases heq
    rw [hstored entry hentry rfl hcount hqueue] at hfailed
    cases hfailed

theorem discarded_step (h : .discarded m ∈ s.events → cfg.deadLetterQueue = none)
    (hstep : s.step cfg label = some s') :
    .discarded m ∈ s'.events → cfg.deadLetterQueue = none := by
  intro hin
  rcases mem_events_step hstep hin with
    hin | ⟨message, he⟩ | ⟨now, sent, stored, -, entry, -, heq⟩
  · exact h hin
  · simp at he
  · rcases retryOne_event_cases cfg now (sent entry.2) (stored entry.2) entry.1 with
      he | he | he | ⟨he, -⟩ | ⟨he, hnone⟩ <;> rw [he] at heq <;> cases heq
    exact hnone

end dropped

def twoRetries : RetryConfig := ⟨2, some "failed"⟩

def passAt (now : Nat) : RetryLabel :=
  .process now (fun _ => true) (fun _ => true)

def fifth : MessageKey := ⟨0, 5⟩

/-- Refused once, retried twice, given up, and acknowledged in the end; another message, which the
cache has dropped, is refused in between. -/
def refusedOnce : List RetryLabel :=
  [.refuse fifth 0 true, passAt second, .refuse ⟨0, 6⟩ second false, passAt (4 * second), passAt (9 * second),
    .ack fifth, passAt (20 * second)]

end RustMq.Sdk
