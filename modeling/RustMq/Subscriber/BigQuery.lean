import RustMq.Lib.Runs
import RustMq.Lib.SortedMap
import RustMq.Types

/-!
# The BigQuery subscriber

`BigQuerySubscriberService` and its `MessageProcessor` (`src/subscribers/bigquery/service.rs`) are
two tasks that share a queue. The one receives a message, parses it, queues it and commits its
offset; the other takes messages from the queue, fills a batch and inserts it, with retries. A batch
is entered in `active_batches` when it is filled, and only the check for aged batches takes it out
again.
-/

namespace RustMq.BigQuery

open Lib Option

/-! ## Messages -/

/-- A message of the stream; `timestamp` is in microseconds. -/
structure RawMessage where
  topic : String
  partition : Nat
  offset : Nat
  timestamp : Int
  key : Option (List UInt8)
  value : List UInt8
  headers : SMap String String
  deriving DecidableEq

def RawMessage.topicPartition (raw : RawMessage) : TopicPartition := ⟨raw.topic, raw.partition⟩

structure MessageMetadata where
  topic : String
  partitionId : Nat
  offset : Nat
  timestamp : Int
  key : Option String
  headers : SMap String String
  producerId : Option String
  sequenceNumber : Option Nat
  deriving DecidableEq

structure BigQueryMessage (J : Type) where
  data : J
  metadata : MessageMetadata
  transformedData : Option J
  insertId : Option String
  deriving DecidableEq

/-- The JSON values, and what the subscriber asks of them: `from_slice`, the length of `to_string`,
and `from_utf8_lossy` for the keys. -/
structure Serde (J : Type) where
  fromSlice : List UInt8 → Option J
  toStringLen : J → Nat
  fromUtf8Lossy : List UInt8 → String

variable {J : Type}

namespace BigQueryMessage

def new (data : J) (metadata : MessageMetadata) : BigQueryMessage J := ⟨data, metadata, none, none⟩

def generateInsertId (message : BigQueryMessage J) : BigQueryMessage J :=
  { message with
    insertId := some (message.metadata.topic ++ "_" ++ toString message.metadata.partitionId ++
      "_" ++ toString message.metadata.offset ++ "_" ++ toString message.metadata.timestamp) }

end BigQueryMessage

/-- The first part of `process_raw_message`: the message that is queued, if the value is JSON. -/
def Serde.message {J : Type} (serde : Serde J) (raw : RawMessage) : Option (BigQueryMessage J) :=
  let metadata : MessageMetadata :=
    { topic := raw.topic
      partitionId := raw.partition
      offset := raw.offset
      timestamp := raw.timestamp
      key := raw.key.map serde.fromUtf8Lossy
      headers := raw.headers
      producerId := none
      sequenceNumber := none }
  (serde.fromSlice raw.value).map fun data => (BigQueryMessage.new data metadata).generateInsertId

/-! ## Batches -/

/-- `createdAt` is in milliseconds. -/
structure BatchMetadata where
  batchId : String
  createdAt : Int
  sizeBytes : Nat
  messageCount : Nat
  retryAttempt : Nat

structure BigQueryBatch (J : Type) where
  messages : List (BigQueryMessage J)
  metadata : BatchMetadata

structure BatchingConfig where
  maxRowsPerBatch : Nat
  maxBatchSizeBytes : Nat
  maxBatchLatencyMs : Nat
  maxConcurrentBatches : Nat

namespace BigQueryBatch

variable (serde : Serde J) (batching : BatchingConfig)

def new (batchId : String) (now : Int) : BigQueryBatch J := ⟨[], ⟨batchId, now, 0, 0, 0⟩⟩

def addMessage (batch : BigQueryBatch J) (message : BigQueryMessage J) : BigQueryBatch J where
  messages := batch.messages ++ [message]
  metadata :=
    { batch.metadata with
      sizeBytes := batch.metadata.sizeBytes + serde.toStringLen message.data
      messageCount := batch.metadata.messageCount + 1 }

def isFull (batch : BigQueryBatch J) (maxRows maxBytes : Nat) : Bool :=
  maxRows ≤ batch.messages.length || maxBytes ≤ batch.metadata.sizeBytes

/-- The age is cast to a `u64`, so a batch from the future is aged. -/
def isAged (batch : BigQueryBatch J) (now : Int) (maxLatencyMs : Nat) : Bool :=
  maxLatencyMs ≤ ((now - batch.metadata.createdAt) % 2 ^ 64).toNat

/-- The loop of `process_pending_messages`: it ends when the batch is full. -/
def fill (batch : BigQueryBatch J) : List (BigQueryMessage J) → BigQueryBatch J
  | [] => batch
  | message :: messages =>
    let batch := batch.addMessage serde message
    if batch.isFull batching.maxRowsPerBatch batching.maxBatchSizeBytes then batch
    else fill batch messages

end BigQueryBatch

/-! ## Inserts -/

inductive BigQueryError where
  | client
  | auth
  | serialization
  | config
  | invalidSchema
  | transformation
  | quotaExceeded
  | tableNotFound
  | streamingInsertFailed
  | storageWriteError
  | rustMq
  deriving DecidableEq

structure InsertError where
  retryable : Bool
  deriving DecidableEq

structure InsertResult where
  success : Bool
  errors : List InsertError
  deriving DecidableEq

structure ErrorHandlingConfig where
  maxRetries : Nat

def shouldRetry (errors : List InsertError) : Bool := errors.any InsertError.retryable

def isRetryableError : BigQueryError → Bool
  | .client | .quotaExceeded | .streamingInsertFailed => true
  | _ => false

/-- What `process_batch_with_retries` does after an attempt. -/
inductive Verdict where
  | inserted
  /-- The result is returned as it is: failed, with no error worth a retry. -/
  | returned
  | retry
  /-- `handle_dead_letter`, and the end. All its actions write to the log only. -/
  | deadLetter
  deriving DecidableEq

def ErrorHandlingConfig.verdict (config : ErrorHandlingConfig) (attempt : Nat) :
    Except BigQueryError InsertResult → Verdict
  | .ok result =>
    if result.success then .inserted
    else if !shouldRetry result.errors then .returned
    else if attempt < config.maxRetries then .retry
    else .deadLetter
  | .error e =>
    if attempt < config.maxRetries && isRetryableError e then .retry else .deadLetter

/-! ## The service -/

structure SubscriberConfig (J : Type) where
  serde : Serde J
  batching : BatchingConfig
  errorHandling : ErrorHandlingConfig

inductive Phase (J : Type) where
  | idle
  /-- In an attempt to insert the batch; the aged batches behind it are still to come. -/
  | sending (batch : BigQueryBatch J) (aged : List String)

def Phase.isIdle {J : Type} : Phase J → Bool
  | .idle => true
  | .sending _ _ => false

theorem Phase.eq_idle_of_isIdle {phase : Phase J} (h : phase.isIdle = true) : phase = .idle := by
  cases phase with
  | idle => rfl
  | sending => cases h

/-- Of the last five fields `awaiting` is the message whose offset is committed next; the others are
a record that no code reads. -/
structure Service (J : Type) where
  up : Bool
  messageQueue : List (BigQueryMessage J)
  activeBatches : SMap String (BigQueryBatch J)
  phase : Phase J
  awaiting : Option RawMessage
  received : List RawMessage
  queued : List (BigQueryMessage J)
  committed : List (TopicPartition × Nat)
  passed : List (BigQueryBatch J)
  settled : List (BigQueryMessage J)

inductive Label where
  | receive (raw : RawMessage)
  | commit (ok : Bool)
  /-- `process_pending_messages`, with the id of the batch. -/
  | pending (batchId : String) (now : Int)
  /-- `check_aged_batches`; the map is walked in the given order. -/
  | check (now : Int) (order : List String)
  | insert (outcome : Except BigQueryError InsertResult)
  /-- The end of `start`: the tasks are aborted and the queue is flushed. -/
  | shutdown (batchId : String) (now : Int) (outcome : Except BigQueryError InsertResult)
  | crash

namespace Service

variable (cfg : SubscriberConfig J)

def start (queue : List (BigQueryMessage J)) : Service J :=
  ⟨true, queue, .empty, .idle, none, [], queue, [], [], []⟩

/-- The processor is the only one that takes permits, and it has none between two batches. -/
def permit : Bool := 0 < cfg.batching.maxConcurrentBatches

/-- The loop of `check_aged_batches` up to the next insert. A batch for which there is no permit is
put back. -/
def nextAged (s : Service J) : List String → Service J
  | [] => { s with phase := .idle }
  | id :: aged =>
    match s.activeBatches.get? id with
    | none => nextAged s aged
    | some batch =>
      if permit cfg then
        { s with activeBatches := s.activeBatches.erase id, phase := .sending batch aged }
      else nextAged s aged

def afterAttempt (s : Service J) (batch : BigQueryBatch J) (aged : List String) :
    Verdict → Service J
  | .inserted | .deadLetter => nextAged cfg { s with settled := s.settled ++ batch.messages } aged
  | .returned => nextAged cfg s aged
  | .retry =>
    let metadata := { batch.metadata with retryAttempt := batch.metadata.retryAttempt + 1 }
    { s with phase := .sending { batch with metadata := metadata } aged }

def step (s : Service J) : Label → Option (Service J)
  | .receive raw =>
    if s.up ∧ s.awaiting = none then
      match cfg.serde.message raw with
      | none => some { s with received := s.received ++ [raw] }
      | some message =>
        some { s with
          received := s.received ++ [raw]
          messageQueue := s.messageQueue ++ [message]
          queued := s.queued ++ [message]
          awaiting := some raw }
    else none
  | .commit ok =>
    match s.awaiting with
    | none => none
    | some raw =>
      if s.up then
        some { s with
          awaiting := none
          committed :=
            if ok then s.committed ++ [(raw.topicPartition, raw.offset)] else s.committed }
      else none
  | .pending batchId now =>
    match s.phase with
    | .sending _ _ => none
    | .idle =>
      if s.up then
        if permit cfg then
          let maxMessages := min cfg.batching.maxRowsPerBatch s.messageQueue.length
          let collected := s.messageQueue.take maxMessages
          let s := { s with messageQueue := s.messageQueue.drop maxMessages }
          if collected = [] then some s
          else
            let batch := (BigQueryBatch.new batchId now).fill cfg.serde cfg.batching collected
            some { s with
              activeBatches := s.activeBatches.insert batchId batch
              phase := .sending batch [] }
        else some s
      else none
  | .check now order =>
    match s.phase with
    | .sending _ _ => none
    | .idle =>
      if s.up ∧ order.Perm s.activeBatches.keys then
        some (nextAged cfg s (order.filter fun id =>
          (s.activeBatches.get? id).any (·.isAged now cfg.batching.maxBatchLatencyMs)))
      else none
  | .insert outcome =>
    match s.phase with
    | .idle => none
    | .sending batch aged =>
      if s.up then
        some (afterAttempt cfg { s with passed := s.passed ++ [batch] } batch aged
          (cfg.errorHandling.verdict batch.metadata.retryAttempt outcome))
      else none
  | .shutdown batchId now outcome =>
    if s.up then
      let s' := { s with up := false, messageQueue := [], phase := .idle, awaiting := none }
      if s.messageQueue = [] then some s'
      else
        let batch := s.messageQueue.foldl (BigQueryBatch.addMessage cfg.serde) (.new batchId now)
        some { s' with
          passed := s.passed ++ [batch]
          settled :=
            match outcome with
            | .ok result => if result.success then s.settled ++ batch.messages else s.settled
            | .error _ => s.settled }
    else none
  | .crash => if s.up then some { s with up := false } else none

inductive Step (s : Service J) : Label → Service J → Prop
  | skipped {raw : RawMessage} (hmessage : cfg.serde.message raw = none) :
    Step s (.receive raw) { s with received := s.received ++ [raw] }
  | queued {raw : RawMessage} {message : BigQueryMessage J}
    (hmessage : cfg.serde.message raw = some message) :
    Step s (.receive raw) { s with
      received := s.received ++ [raw]
      messageQueue := s.messageQueue ++ [message]
      queued := s.queued ++ [message]
      awaiting := some raw }
  | refused {raw : RawMessage} (hawaiting : s.awaiting = some raw) :
    Step s (.commit false) { s with awaiting := none }
  | committed {raw : RawMessage} (hawaiting : s.awaiting = some raw) :
    Step s (.commit true) { s with
      awaiting := none
      committed := s.committed ++ [(raw.topicPartition, raw.offset)] }
  | noPermit {batchId : String} {now : Int} (hphase : s.phase = .idle) :
    Step s (.pending batchId now) s
  | nothing {batchId : String} {now : Int} {maxMessages : Nat} (hphase : s.phase = .idle)
    (hmax : maxMessages = min cfg.batching.maxRowsPerBatch s.messageQueue.length)
    (hnone : s.messageQueue.take maxMessages = []) :
    Step s (.pending batchId now) { s with messageQueue := s.messageQueue.drop maxMessages }
  /-- What does not go into the batch has left the queue all the same. -/
  | filled {batchId : String} {now : Int} {maxMessages : Nat} {batch : BigQueryBatch J}
    (hphase : s.phase = .idle)
    (hmax : maxMessages = min cfg.batching.maxRowsPerBatch s.messageQueue.length)
    (hbatch : batch = (BigQueryBatch.new batchId now).fill cfg.serde cfg.batching
      (s.messageQueue.take maxMessages)) :
    Step s (.pending batchId now) { s with
      messageQueue := s.messageQueue.drop maxMessages
      activeBatches := s.activeBatches.insert batchId batch
      phase := .sending batch [] }
  | check {now : Int} {order : List String} (hphase : s.phase = .idle) :
    Step s (.check now order) (nextAged cfg s (order.filter fun id =>
      (s.activeBatches.get? id).any (·.isAged now cfg.batching.maxBatchLatencyMs)))
  | insert {outcome : Except BigQueryError InsertResult} {batch : BigQueryBatch J}
    {aged : List String} (hphase : s.phase = .sending batch aged) :
    Step s (.insert outcome) (afterAttempt cfg { s with passed := s.passed ++ [batch] } batch aged
      (cfg.errorHandling.verdict batch.metadata.retryAttempt outcome))
  /-- The last batch has been passed on, or there was none. -/
  | shutdown {batchId : String} {now : Int} {outcome : Except BigQueryError InsertResult}
    {passed : List (BigQueryBatch J)} {settled : List (BigQueryMessage J)}
    (hsettled : s.settled ⊆ settled) :
    Step s (.shutdown batchId now outcome) { s with
      up := false
      messageQueue := []
      phase := .idle
      awaiting := none
      passed := passed
      settled := settled }
  | crash : Step s .crash { s with up := false }

variable {cfg} in
theorem step_cases {s s' : Service J} {label : Label} (h : s.step cfg label = some s') :
    Step cfg s label s' := by
  cases label with
  | receive raw =>
    obtain ⟨-, heq⟩ := ite_none_right_eq_some.mp h
    split at heq
    · cases heq
      exact .skipped ‹_›
    · cases heq
      exact .queued ‹_›
  | commit ok =>
    simp only [step] at h
    split at h
    · cases h
    · rename_i raw hawaiting
      obtain ⟨-, heq⟩ := ite_none_right_eq_some.mp h
      cases heq
      cases ok with
      | false => exact .refused hawaiting
      | true => exact .committed hawaiting
  | pending batchId now =>
    simp only [step] at h
    split at h
    · cases h
    · rename_i hphase
      obtain ⟨-, heq⟩ := ite_none_right_eq_some.mp h
      split at heq
      · split at heq
        · cases heq
          exact .nothing hphase rfl ‹_›
        · cases heq
          exact .filled hphase rfl rfl
      · cases heq
        exact .noPermit hphase
  | check now order =>
    simp only [step] at h
    split at h
    · cases h
    · obtain ⟨-, heq⟩ := ite_none_right_eq_some.mp h
      cases heq
      exact .check ‹_›
  | insert outcome =>
    simp only [step] at h
    split at h
    · cases h
    · obtain ⟨-, heq⟩ := ite_none_right_eq_some.mp h
      cases heq
      exact .insert ‹_›
  | shutdown batchId now outcome =>
    obtain ⟨-, heq⟩ := ite_none_right_eq_some.mp h
    split at heq
    · cases heq
      exact .shutdown (List.Subset.refl _)
    · cases heq
      refine .shutdown ?_
      split
      · split
        · exact List.subset_append_left _ _
        · exact List.Subset.refl _
      · exact List.Subset.refl _
  | crash =>
    obtain ⟨-, heq⟩ := ite_none_right_eq_some.mp h
    cases heq
    exact .crash

end Service

end RustMq.BigQuery
