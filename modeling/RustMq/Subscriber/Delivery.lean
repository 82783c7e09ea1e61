import RustMq.Subscriber.BigQuery

/-!
# What a committed offset says

The subscriber commits the offset of a message as soon as the message is queued. What is committed
is therefore not what is inserted: after a crash the queue and the batch under way are gone
(`committed_and_lost`). The same goes for a message that is not JSON, for those that a full batch
leaves behind, and for those of an insert that fails and is not retried: the commit of a later
message covers them.

Where a commit waits until the queue and the batch under way have nothing of the partition up to its
offset, and none of the other losses occurs, every received message is settled or still under way
(`Accounted`), and the subscriber is at-least-once.
-/

namespace RustMq.BigQuery

open Lib List

namespace BigQueryBatch

variable {J : Type} {serde : Serde J} {batching : BatchingConfig}

def sizeOf (serde : Serde J) (messages : List (BigQueryMessage J)) : Nat :=
  (messages.map fun message => serde.toStringLen message.data).sum

theorem isFull_iff_of_lt {batch : BigQueryBatch J} {maxRows : Nat}
    (hrows : batch.messages.length < maxRows) (maxBytes : Nat) :
    batch.isFull maxRows maxBytes = true ↔ maxBytes ≤ batch.metadata.sizeBytes := by
  rw [isFull, Bool.or_eq_true, decide_eq_true_eq, decide_eq_true_eq]
  exact or_iff_right (not_le.mpr hrows)

/-- **What a batch takes**: all messages exactly when those before the last one do not fill it. -/
theorem messages_fill_iff {batch : BigQueryBatch J} {messages : List (BigQueryMessage J)}
    (hrows : batch.messages.length + messages.length ≤ batching.maxRowsPerBatch) :
    (batch.fill serde batching messages).messages = batch.messages ++ messages ↔
      messages.length ≤ 1 ∨
        batch.metadata.sizeBytes + sizeOf serde messages.dropLast < batching.maxBatchSizeBytes := by
  induction messages generalizing batch with
  | nil => exact iff_of_true (append_nil _).symm (.inl (Nat.zero_le _))
  | cons message messages ih =>
    have hadd : (batch.addMessage serde message).messages ++ messages =
        batch.messages ++ message :: messages := by
      rw [addMessage, append_assoc, singleton_append]
    have hlength : (batch.addMessage serde message).messages.length = batch.messages.length + 1 :=
      length_append
    rw [length_cons] at hrows
    have hrest : (batch.addMessage serde message).messages.length + messages.length ≤
        batching.maxRowsPerBatch := by omega
    rw [fill]
    cases messages with
    | nil =>
      refine iff_of_true ?_ (.inl (Nat.le_refl 1))
      dsimp only [fill]
      rw [ite_self]
      rfl
    | cons next rest =>
      have hsize : batch.metadata.sizeBytes + sizeOf serde (message :: next :: rest).dropLast =
          (batch.addMessage serde message).metadata.sizeBytes +
            sizeOf serde (next :: rest).dropLast := by
        simp only [dropLast_cons_cons, sizeOf, addMessage, map_cons, sum_cons, Nat.add_assoc]
      -- with another message to come the rows do not fill the batch
      have hspare :
          (batch.addMessage serde message).messages.length < batching.maxRowsPerBatch := by
        rw [length_cons] at hrest
        omega
      have hfull := isFull_iff_of_lt hspare batching.maxBatchSizeBytes
      rw [hsize]
      by_cases hbytes : batching.maxBatchSizeBytes ≤
          (batch.addMessage serde message).metadata.sizeBytes
      · rw [if_pos (hfull.mpr hbytes)]
        refine iff_of_false (fun heq => ?_) (fun h => ?_)
        · have := congrArg length heq
          simp only [hlength, length_append, length_cons] at this
          omega
        · simp only [length_cons] at h
          omega
      · rw [if_neg fun h => hbytes (hfull.mp h), ← hadd, ih hrest]
        refine ⟨fun h => .inr (h.elim (fun hone => ?_) id), fun h => .inr (h.resolve_left ?_)⟩
        · cases rest with
          | nil => exact not_le.mp hbytes
          | cons => simp at hone
        · simp

end BigQueryBatch

namespace Service

variable {J : Type} (cfg : SubscriberConfig J)

def collected (s : Service J) : List (BigQueryMessage J) :=
  s.messageQueue.take (min cfg.batching.maxRowsPerBatch s.messageQueue.length)

def Settled (s : Service J) (raw : RawMessage) : Prop :=
  ∃ message ∈ cfg.serde.message raw, message ∈ s.settled

/-- So were all messages of the partition up to the offset. -/
def SettledUpTo (s : Service J) (tp : TopicPartition) (offset : Nat) : Prop :=
  ∀ raw ∈ s.received, raw.topicPartition = tp → raw.offset ≤ offset → s.Settled cfg raw

def AtLeastOnce (s : Service J) : Prop := ∀ e ∈ s.committed, s.SettledUpTo cfg e.1 e.2

/-- What the processor has yet to insert: the queue and the batch it is sending. -/
def underWay (s : Service J) : List (BigQueryMessage J) :=
  s.messageQueue ++
    match s.phase with
    | .idle => []
    | .sending batch _ => batch.messages

/-- A message is JSON and comes behind what is committed; an offset is committed when nothing of the
partition up to it is under way; a batch has room for what is collected for it; and an insert that
fails has an error worth a retry. -/
def Careful (s : Service J) : Label → Prop
  | .receive raw => (cfg.serde.fromSlice raw.value).isSome = true ∧
    ∀ e ∈ s.committed, raw.topicPartition = e.1 → e.2 < raw.offset
  | .commit ok => ok = true → ∀ raw ∈ s.awaiting, ∀ message ∈ s.underWay,
    message.metadata.topic = raw.topic → message.metadata.partitionId = raw.partition →
      raw.offset < message.metadata.offset
  | .pending .. => (s.collected cfg).length ≤ 1 ∨
    BigQueryBatch.sizeOf cfg.serde (s.collected cfg).dropLast < cfg.batching.maxBatchSizeBytes
  | .insert outcome => ∀ result ∈ outcome.toOption, result.success = true ∨
    shouldRetry result.errors = true
  | .check .. | .shutdown .. | .crash => True

section decidable

variable [DecidableEq J] (s : Service J)

instance (raw : RawMessage) : Decidable (s.Settled cfg raw) :=
  inferInstanceAs (Decidable (∃ message ∈ cfg.serde.message raw, message ∈ s.settled))

instance (tp : TopicPartition) (offset : Nat) : Decidable (s.SettledUpTo cfg tp offset) :=
  inferInstanceAs (Decidable (∀ raw ∈ s.received, _ → _ → _))

instance : Decidable (s.AtLeastOnce cfg) :=
  inferInstanceAs (Decidable (∀ e ∈ s.committed, _))

instance (label) : Decidable (Careful cfg s label) := by
  unfold Careful
  split <;> infer_instance

end decidable

variable {cfg} {s s' : Service J} {raw : RawMessage}

theorem Settled.mono (h : s.Settled cfg raw) (hsettled : s.settled ⊆ s'.settled) :
    s'.Settled cfg raw := by
  obtain ⟨message, hmessage, hmem⟩ := h
  exact ⟨message, hmessage, hsettled hmem⟩

/-- Nothing is received or committed, and what is settled stays so. -/
structure Proceeds (s s' : Service J) : Prop where
  received : s'.received = s.received
  committed : s'.committed = s.committed
  settled : s.settled ⊆ s'.settled

theorem Proceeds.atLeastOnce (h : Proceeds s s') (hs : s.AtLeastOnce cfg) : s'.AtLeastOnce cfg := by
  intro e he raw hraw htp hle
  rw [h.committed] at he
  rw [h.received] at hraw
  exact (hs e he raw hraw htp hle).mono h.settled

variable (cfg) in
theorem proceeds_nextAged (s : Service J) (aged : List String) :
    Proceeds s (nextAged cfg s aged) := by
  induction aged with
  | nil => exact ⟨rfl, rfl, Subset.refl _⟩
  | cons id aged ih =>
    rw [nextAged]
    split
    · exact ih
    · split
      · exact ⟨rfl, rfl, Subset.refl _⟩
      · exact ih

variable (cfg) in
theorem proceeds_afterAttempt (s : Service J) (batch : BigQueryBatch J) (aged : List String)
    (verdict : Verdict) : Proceeds s (afterAttempt cfg s batch aged verdict) := by
  cases verdict with
  | inserted | deadLetter =>
    have h := proceeds_nextAged cfg { s with settled := s.settled ++ batch.messages } aged
    exact ⟨h.received, h.committed, Subset.trans (subset_append_left _ _) h.settled⟩
  | returned => exact proceeds_nextAged cfg s aged
  | retry => exact ⟨rfl, rfl, Subset.refl _⟩

theorem AtLeastOnce.receive (hs : s.AtLeastOnce cfg)
    (hbehind : ∀ e ∈ s.committed, raw.topicPartition = e.1 → e.2 < raw.offset)
    (hreceived : s'.received = s.received ++ [raw]) (hcommitted : s'.committed = s.committed)
    (hsettled : s'.settled = s.settled) : s'.AtLeastOnce cfg := by
  simp only [AtLeastOnce, SettledUpTo, Settled, hreceived, hcommitted, hsettled,
    forall_mem_append, forall_mem_singleton]
  exact fun e he => ⟨hs e he, fun htp hle => absurd (hbehind e he htp) (not_lt.mpr hle)⟩

theorem AtLeastOnce.commit (hs : s.AtLeastOnce cfg)
    (hupto : s.SettledUpTo cfg raw.topicPartition raw.offset) (hreceived : s'.received = s.received)
    (hcommitted : s'.committed = s.committed ++ [(raw.topicPartition, raw.offset)])
    (hsettled : s'.settled = s.settled) : s'.AtLeastOnce cfg := by
  simp only [AtLeastOnce, SettledUpTo, Settled, hreceived, hcommitted, hsettled,
    forall_mem_append, forall_mem_singleton]
  exact ⟨hs, hupto⟩

/-! ## What is received is settled or under way -/

variable (cfg) in
/-- Every message that was received has been settled, or the processor still has it. -/
def Accounted (s : Service J) : Prop :=
  ∀ raw ∈ s.received, ∃ message ∈ cfg.serde.message raw,
    message ∈ s.settled ∨ message ∈ s.underWay

theorem Accounted.mono (h : s.Accounted cfg) (hreceived : s'.received = s.received)
    (hkeeps : ∀ message, message ∈ s.settled ∨ message ∈ s.underWay →
      message ∈ s'.settled ∨ message ∈ s'.underWay) : s'.Accounted cfg := by
  intro raw hraw
  rw [hreceived] at hraw
  obtain ⟨message, hmessage, hmem⟩ := h raw hraw
  exact ⟨message, hmessage, hkeeps message hmem⟩

variable (cfg) in
theorem queue_nextAged (s : Service J) (aged : List String) :
    (nextAged cfg s aged).messageQueue = s.messageQueue := by
  induction aged with
  | nil => rfl
  | cons id aged ih =>
    rw [nextAged]
    split
    · exact ih
    · split
      · rfl
      · exact ih

/-- The batch that was being sent is settled before the next one is looked for. -/
theorem Accounted.nextAged (h : s.Accounted cfg) (aged : List String)
    (hreceived : s'.received = s.received) (hqueue : s'.messageQueue = s.messageQueue)
    (hsettled : ∀ message, message ∈ s.settled ∨ message ∈ s.underWay →
      message ∈ s'.settled ∨ message ∈ s.messageQueue) :
    (Service.nextAged cfg s' aged).Accounted cfg := by
  have hproceeds := proceeds_nextAged cfg s' aged
  refine h.mono (hproceeds.received.trans hreceived) fun message hmem => ?_
  rcases hsettled message hmem with hmem | hmem
  · exact .inl (hproceeds.settled hmem)
  · refine .inr (mem_append_left _ ?_)
    rw [queue_nextAged, hqueue]
    exact hmem

theorem up_of_step {label : Label} (h : s.step cfg label = some s') : s.up = true := by
  cases label with
  | receive raw => exact (Option.ite_none_right_eq_some.mp h).1.1
  | commit ok =>
    simp only [step] at h
    split at h
    · cases h
    · exact (Option.ite_none_right_eq_some.mp h).1
  | pending batchId now =>
    simp only [step] at h
    split at h
    · cases h
    · exact (Option.ite_none_right_eq_some.mp h).1
  | check now order =>
    simp only [step] at h
    split at h
    · cases h
    · exact (Option.ite_none_right_eq_some.mp h).1.1
  | insert outcome =>
    simp only [step] at h
    split at h
    · cases h
    · exact (Option.ite_none_right_eq_some.mp h).1
  | shutdown batchId now outcome => exact (Option.ite_none_right_eq_some.mp h).1
  | crash => exact (Option.ite_none_right_eq_some.mp h).1

/-- The one verdict after which a batch is neither settled nor tried again. -/
theorem verdict_ne_returned {config : ErrorHandlingConfig} {attempt : Nat}
    {outcome : Except BigQueryError InsertResult}
    (h : ∀ result ∈ outcome.toOption, result.success = true ∨ shouldRetry result.errors = true) :
    config.verdict attempt outcome ≠ .returned := by
  intro hreturned
  unfold ErrorHandlingConfig.verdict at hreturned
  split at hreturned
  · rename_i result
    rcases h result rfl with hsuccess | hretry
    · rw [if_pos hsuccess] at hreturned
      cases hreturned
    · rw [hretry] at hreturned
      split at hreturned
      · cases hreturned
      · simp only [Bool.not_true, Bool.false_eq_true, if_false] at hreturned
        split at hreturned <;> cases hreturned
  · split at hreturned <;> cases hreturned

theorem Accounted.step {label : Label} (h : s.Accounted cfg) (hcareful : Careful cfg s label)
    (hstep : Step cfg s label s') (hup : s'.up = true) : s'.Accounted cfg := by
  have hidle : s.phase = .idle → s.underWay = s.messageQueue := fun hphase => by
    rw [underWay, hphase, append_nil]
  cases hstep with
  | @skipped raw hmessage =>
    have hjson := hcareful.1
    simp only [Serde.message, Option.map_eq_none_iff] at hmessage
    rw [hmessage] at hjson
    cases hjson
  | @queued raw message hmessage =>
    intro raw' hraw'
    rcases mem_append.mp hraw' with hraw' | hraw'
    · obtain ⟨message', hmessage', hmem⟩ := h raw' hraw'
      refine ⟨message', hmessage', hmem.imp_right fun hmem => ?_⟩
      rcases mem_append.mp hmem with hmem | hmem
      · exact mem_append_left _ (mem_append_left _ hmem)
      · exact mem_append_right _ hmem
    · rw [mem_singleton.mp hraw']
      exact ⟨message, hmessage, .inr (mem_append_left _ (mem_append_right _ mem_cons_self))⟩
  | refused | committed | noPermit => exact h
  | nothing hphase hmax hnone =>
    refine h.mono rfl fun message hmem => hmem.imp_right fun hmem => ?_
    rw [hidle hphase, ← take_append_drop _ s.messageQueue, hnone, nil_append] at hmem
    exact mem_append_left _ hmem
  | @filled batchId now maxMessages batch hphase hmax hbatch =>
    have hcollected : s.messageQueue.take maxMessages = s.collected cfg := by rw [hmax]; rfl
    have hrows : (s.collected cfg).length ≤ cfg.batching.maxRowsPerBatch :=
      (length_take_le _ _).trans (min_le_left _ _)
    have hall : batch.messages = s.messageQueue.take maxMessages := by
      rw [hbatch, hcollected]
      refine (BigQueryBatch.messages_fill_iff ?_).mpr ?_
      · rw [BigQueryBatch.new, length_nil, Nat.zero_add]
        exact hrows
      · rw [BigQueryBatch.new, Nat.zero_add]
        exact hcareful
    refine h.mono rfl fun message hmem => hmem.imp_right fun hmem => ?_
    rw [hidle hphase, ← take_append_drop maxMessages s.messageQueue, ← hall] at hmem
    exact mem_append.mpr (mem_append.mp hmem).symm
  | check hphase =>
    refine h.nextAged _ rfl rfl fun message hmem => ?_
    rwa [hidle hphase] at hmem
  | @insert outcome batch aged hphase =>
    have hsettled : ∀ message, message ∈ s.settled ∨ message ∈ s.underWay →
        message ∈ s.settled ++ batch.messages ∨ message ∈ s.messageQueue := by
      intro message hmem
      rw [underWay, hphase, mem_append] at hmem
      rw [mem_append]
      tauto
    cases hverdict : cfg.errorHandling.verdict batch.metadata.retryAttempt outcome with
    | inserted | deadLetter => exact h.nextAged _ rfl rfl hsettled
    | returned => exact absurd hverdict (verdict_ne_returned hcareful)
    | retry =>
      refine h.mono rfl fun message hmem => hmem.imp_right fun hmem => ?_
      rw [underWay, hphase] at hmem
      exact hmem
  | shutdown | crash => cases hup

/-- A message that is under way has the place of the message it was made of. -/
theorem settledUpTo_of_accounted (h : s.Accounted cfg)
    (hclear : ∀ message ∈ s.underWay, message.metadata.topic = raw.topic →
      message.metadata.partitionId = raw.partition → raw.offset < message.metadata.offset) :
    s.SettledUpTo cfg raw.topicPartition raw.offset := by
  intro raw' hraw' htp hle
  obtain ⟨message, hmessage, hmem⟩ := h raw' hraw'
  refine ⟨message, hmessage, hmem.resolve_right fun hway => ?_⟩
  obtain ⟨data, -, rfl⟩ := Option.map_eq_some_iff.mp hmessage
  obtain ⟨htopic, hpartition⟩ := TopicPartition.mk.inj htp
  exact absurd (hclear _ hway htopic hpartition) (not_lt.mpr hle)

theorem AtLeastOnce.step {label : Label} (hs : s.AtLeastOnce cfg) (h : s.Accounted cfg)
    (hcareful : Careful cfg s label) (hstep : Step cfg s label s') : s'.AtLeastOnce cfg := by
  have hproceeds : Proceeds s s' → s'.AtLeastOnce cfg := fun hp => hp.atLeastOnce hs
  cases hstep with
  | skipped | queued => exact hs.receive hcareful.2 rfl rfl rfl
  | refused => exact hproceeds ⟨rfl, rfl, Subset.refl _⟩
  | committed hawaiting =>
    exact hs.commit (settledUpTo_of_accounted h (hcareful rfl _ hawaiting)) rfl rfl rfl
  | noPermit | nothing | filled | crash => exact hproceeds ⟨rfl, rfl, Subset.refl _⟩
  | check => exact hproceeds (proceeds_nextAged cfg s _)
  | @insert outcome batch aged hphase =>
    have hafter := proceeds_afterAttempt cfg { s with passed := s.passed ++ [batch] } batch aged
      (cfg.errorHandling.verdict batch.metadata.retryAttempt outcome)
    exact hproceeds { hafter with }
  | shutdown hsettled => exact hproceeds ⟨rfl, rfl, hsettled⟩

/-- **The subscriber is at-least-once** in every run in which it is careful. -/
theorem at_least_once_of_careful {queue : List (BigQueryMessage J)} {labels : List Label}
    (hcareful : Along (step cfg) (Careful cfg) (start queue) labels)
    (hexec : exec (step cfg) (start queue) labels = some s) : s.AtLeastOnce cfg := by
  have hinv : (s.up = true → s.Accounted cfg) ∧ s.AtLeastOnce cfg := by
    refine exec_invariant
      (I := fun s : Service J => (s.up = true → s.Accounted cfg) ∧ s.AtLeastOnce cfg)
      (fun s label s' h hlabel hstep => ?_)
      ⟨fun _ _ h => absurd h not_mem_nil, fun _ h => absurd h not_mem_nil⟩ hcareful hexec
    have haccounted := h.1 (up_of_step hstep)
    exact ⟨haccounted.step hlabel (step_cases hstep), h.2.step haccounted hlabel (step_cases hstep)⟩
  exact hinv.2

end Service

/-! ## Runs -/

/-- Every value that is not empty is JSON, of the length of its bytes; batches of at most two
messages. -/
def plainConfig : SubscriberConfig (List UInt8) where
  serde := ⟨fun value => if value = [] then none else some value, List.length, fun _ => ""⟩
  batching := ⟨2, 10, 1000, 1⟩
  errorHandling := ⟨0⟩

def rawMessage (offset : Nat) (value : List UInt8) : RawMessage :=
  ⟨"t", 0, offset, 0, none, value, .empty⟩

/-- The processor inserts the message before the answer to the commit. -/
theorem committed_behind_insert : ∃ s, exec (Service.step plainConfig) (.start [])
        [.receive (rawMessage 0 [1]), .pending "b" 0, .insert (.ok ⟨true, []⟩), .commit true] =
        some s ∧
      s.committed = [(⟨"t", 0⟩, 0)] ∧ s.AtLeastOnce plainConfig := by
  have hrun : (exec (Service.step plainConfig) (.start [])
      [.receive (rawMessage 0 [1]), .pending "b" 0, .insert (.ok ⟨true, []⟩), .commit true]).map
      Service.committed = some [(⟨"t", 0⟩, 0)] := by
    decide +kernel
  obtain ⟨s, hexec, hcommitted⟩ := Option.map_eq_some_iff.mp hrun
  exact ⟨s, hexec, hcommitted,
    Service.at_least_once_of_careful (by decide +kernel) hexec⟩

/-- **Committed and lost**: by a crash after the commit, or covered by the commit of the next
message. -/
theorem committed_and_lost : (∃ s, exec (Service.step plainConfig) (.start [])
        [.receive (rawMessage 0 [1]), .commit true, .crash] = some s ∧
      ¬ s.AtLeastOnce plainConfig) ∧
    ∃ s, exec (Service.step plainConfig) (.start [])
        [.receive (rawMessage 0 []), .receive (rawMessage 1 [1]), .pending "b" 0,
          .insert (.ok ⟨true, []⟩), .commit true] = some s ∧
      ¬ s.AtLeastOnce plainConfig := by
  have hcrash : (exec (Service.step plainConfig) (.start [])
      [.receive (rawMessage 0 [1]), .commit true, .crash]).map
      (fun s => decide (s.AtLeastOnce plainConfig)) = some false := by
    decide +kernel
  have hskipped : (exec (Service.step plainConfig) (.start [])
      [.receive (rawMessage 0 []), .receive (rawMessage 1 [1]), .pending "b" 0,
        .insert (.ok ⟨true, []⟩), .commit true]).map
      (fun s => decide (s.AtLeastOnce plainConfig)) = some false := by
    decide +kernel
  obtain ⟨s, hexec, hlost⟩ := Option.map_eq_some_iff.mp hcrash
  obtain ⟨s', hexec', hlost'⟩ := Option.map_eq_some_iff.mp hskipped
  exact ⟨⟨s, hexec, of_decide_eq_false hlost⟩, s', hexec', of_decide_eq_false hlost'⟩

end RustMq.BigQuery
