import RustMq.Lib.Runs

/-!
# The batching loop of the SDK producer

`send`, `send_async` and `flush` of a producer (`sdk/rust/src/producer.rs`) put a command into one
channel, and a task takes them out in order (`run_batching_loop`). It sends its messages to the
broker as one request when the batch is full, when a flush arrives and when its timer ticks. The
broker appends the records of a request one by one, stops at the first that fails, and answers with
the offset of the first. The result of every message of the batch is made from that one answer.
-/

namespace RustMq.Sdk

open Lib List

inductive BatchCommand where
  | message (number : Nat)
  /-- The number is that of the messages put in before. -/
  | flush (before : Nat)
  deriving DecidableEq

inductive Transport where
  | works
  | losesRequest (error : String)
  | losesResponse (error : String)
  deriving DecidableEq

def Transport.reachesBroker : Transport → Bool
  | .losesRequest _ => false
  | _ => true

/-- What becomes of a batch: `stores i` is what `producer.send` of the broker returns for its record
`i`. -/
structure BatchReply where
  stores : Nat → Except String Nat
  transport : Transport

structure BatchConfig where
  batchSize : Nat

/-- The producer and the broker's partition. `results` are the completed result senders, `flushed`
the completed flushes, all of them with `Ok`, and `stored` is where the broker has stored what. -/
structure ProducerState where
  queued : Nat
  channel : List BatchCommand
  pendingMessages : List Nat
  pendingFlushes : List Nat
  closed : Bool
  results : List (Nat × Except String Nat)
  flushed : List Nat
  stored : List (Nat × Nat)

def handleProduce (stores : Nat → Except String Nat) :
    Nat → List Nat → List (Nat × Nat) × Option String
  | _, [] => ([], none)
  | i, m :: ms =>
    match stores i with
    | .error e => ([], some e)
    | .ok offset =>
      let rest := handleProduce stores (i + 1) ms
      ((m, offset) :: rest.1, rest.2)

def firstOffset (stored : List (Nat × Nat)) : Nat :=
  (stored.head?.map Prod.snd).getD 0

def sendProduceRequest (reply : BatchReply) (messages : List Nat) :
    List (Nat × Nat) × Except String Nat :=
  let handled := handleProduce reply.stores 0 messages
  match reply.transport with
  | .losesRequest e => ([], .error e)
  | .losesResponse e => (handled.1, .error e)
  | .works =>
    match handled.2 with
    | some e => (handled.1, .error e)
    | none => (handled.1, .ok (firstOffset handled.1))

/-- The results of the messages of a batch, made from the one answer. -/
def batchResults (messages : List Nat) : Except String Nat → List (Nat × Except String Nat)
  | .ok base => messages.zipIdx.map fun m => (m.1, .ok (base + m.2))
  | .error e => messages.map fun m => (m, .error e)

namespace ProducerState

def new : ProducerState := ⟨0, [], [], [], false, [], [], []⟩

def completeFlushRequests (s : ProducerState) : ProducerState :=
  { s with pendingFlushes := [], flushed := s.flushed ++ s.pendingFlushes }

def sendBatchInternal (reply : BatchReply) (s : ProducerState) : ProducerState :=
  if s.pendingMessages.isEmpty then s.completeFlushRequests
  else
    let produced := sendProduceRequest reply s.pendingMessages
    completeFlushRequests { s with
      pendingMessages := []
      results := s.results ++ batchResults s.pendingMessages produced.2
      stored := s.stored ++ produced.1 }

end ProducerState

/-- A call puts its command into the channel. The loop takes a command, or its timer ticks, or it
ends with the channel. -/
inductive ProducerLabel where
  | send
  | flush
  | receive (reply : BatchReply)
  | tick (reply : BatchReply)
  | finish (reply : BatchReply)

namespace ProducerState

def receive (cfg : BatchConfig) (s : ProducerState) (reply : BatchReply) : Option ProducerState :=
  match s.channel with
  | [] => none
  | .message m :: rest =>
    let s := { s with channel := rest, pendingMessages := s.pendingMessages ++ [m] }
    if cfg.batchSize ≤ s.pendingMessages.length then some (s.sendBatchInternal reply) else some s
  | .flush before :: rest =>
    let s := { s with channel := rest, pendingFlushes := s.pendingFlushes ++ [before] }
    if s.pendingMessages.isEmpty then some s.completeFlushRequests
    else some (s.sendBatchInternal reply)

def step (cfg : BatchConfig) (s : ProducerState) (label : ProducerLabel) : Option ProducerState :=
  if s.closed then none
  else
    match label with
    | .send => some { s with queued := s.queued + 1, channel := s.channel ++ [.message s.queued] }
    | .flush => some { s with channel := s.channel ++ [.flush s.queued] }
    | .receive reply => s.receive cfg reply
    | .tick reply =>
      if s.pendingMessages.isEmpty then some s else some (s.sendBatchInternal reply)
    | .finish reply =>
      if s.channel.isEmpty then some { s.sendBatchInternal reply with closed := true } else none

end ProducerState

/-! ## A batch -/

theorem map_fst_batchResults (messages : List Nat) (answer : Except String Nat) :
    (batchResults messages answer).map Prod.fst = messages := by
  cases answer with
  | ok base =>
    unfold batchResults
    rw [map_map]
    exact zipIdx_map_fst 0 messages
  | error e =>
    unfold batchResults
    rw [map_map]
    exact map_id messages

def StoredWhole (reply : BatchReply) (messages : List Nat) : Prop :=
  reply.transport.reachesBroker = true ∧ (handleProduce reply.stores 0 messages).2 = none

/-- If the broker stores every record of the batch, it stores one behind the other. -/
def StoredInRow (reply : BatchReply) (messages : List Nat) : Prop :=
  (handleProduce reply.stores 0 messages).2 = none →
    (handleProduce reply.stores 0 messages).1 =
      messages.zipIdx (firstOffset (handleProduce reply.stores 0 messages).1)

variable {messages : List Nat} {m n queued : Nat} {commands : List BatchCommand}
  {reply : BatchReply}

theorem map_fst_handleProduce {stores : Nat → Except String Nat} {i : Nat}
    (h : (handleProduce stores i messages).2 = none) :
    (handleProduce stores i messages).1.map Prod.fst = messages := by
  induction messages generalizing i with
  | nil => rfl
  | cons m ms ih =>
    unfold handleProduce at h ⊢
    cases hstore : stores i with
    | error e =>
      rw [hstore] at h
      cases h
    | ok offset =>
      rw [hstore] at h
      exact congrArg (m :: ·) (ih h)

theorem StoredWhole.exists_stored (h : StoredWhole reply messages) (hm : m ∈ messages) :
    ∃ offset, (m, offset) ∈ (sendProduceRequest reply messages).1 := by
  obtain ⟨hreaches, hwhole⟩ := h
  have hproduced : (sendProduceRequest reply messages).1 =
      (handleProduce reply.stores 0 messages).1 := by
    unfold sendProduceRequest
    cases htransport : reply.transport with
    | losesRequest e =>
      rw [htransport] at hreaches
      cases hreaches
    | losesResponse e => rfl
    | works => simp only [hwhole]
  rw [← map_fst_handleProduce hwhole] at hm
  obtain ⟨x, hx, rfl⟩ := mem_map.mp hm
  exact ⟨x.2, hproduced ▸ hx⟩

theorem sendProduceRequest_ok {base : Nat} (h : (sendProduceRequest reply messages).2 = .ok base) :
    (handleProduce reply.stores 0 messages).2 = none ∧
      (sendProduceRequest reply messages).1 = (handleProduce reply.stores 0 messages).1 ∧
      base = firstOffset (handleProduce reply.stores 0 messages).1 := by
  unfold sendProduceRequest at *
  cases htransport : reply.transport with
  | losesRequest | losesResponse =>
    rw [htransport] at h
    cases h
  | works =>
    rw [htransport] at h
    cases hwhole : (handleProduce reply.stores 0 messages).2 with
    | some e =>
      simp only [hwhole] at h
      cases h
    | none =>
      simp only [hwhole] at h ⊢
      cases h
      exact ⟨trivial, trivial, rfl⟩

theorem StoredInRow.stored_of_result (h : StoredInRow reply messages) {offset : Nat}
    (hresult : (m, .ok offset) ∈ batchResults messages (sendProduceRequest reply messages).2) :
    (m, offset) ∈ (sendProduceRequest reply messages).1 := by
  cases hanswer : (sendProduceRequest reply messages).2 with
  | error e =>
    rw [hanswer] at hresult
    obtain ⟨x, -, heq⟩ := mem_map.mp hresult
    cases heq
  | ok base =>
    obtain ⟨hwhole, hproduced, rfl⟩ := sendProduceRequest_ok hanswer
    rw [hanswer] at hresult
    obtain ⟨x, hx, heq⟩ := mem_map.mp hresult
    cases heq
    have hmem : (x.1, firstOffset (handleProduce reply.stores 0 messages).1 + x.2) ∈
        messages.zipIdx (firstOffset (handleProduce reply.stores 0 messages).1) := by
      rw [zipIdx_eq_map_add]
      exact mem_map.mpr ⟨x, hx, rfl⟩
    rw [hproduced]
    exact (congrArg ((x.1, _) ∈ ·) (h hwhole)).mpr hmem

/-! ## The order of the channel -/

/-- The commands behind message `n`, up to message `queued`. -/
def Follows : Nat → List BatchCommand → Nat → Prop
  | n, [], queued => n = queued
  | n, .message m :: commands, queued => m = n ∧ Follows (n + 1) commands queued
  | n, .flush before :: commands, queued => before = n ∧ Follows n commands queued

theorem Follows.append {middle : Nat} {more : List BatchCommand} (h : Follows n commands middle)
    (hmore : Follows middle more queued) : Follows n (commands ++ more) queued := by
  induction commands generalizing n with
  | nil =>
    cases h
    exact hmore
  | cons c commands ih =>
    cases c with
    | message | flush => exact ⟨h.1, ih h.2⟩

theorem Follows.send (h : Follows n commands queued) :
    Follows n (commands ++ [.message queued]) (queued + 1) :=
  h.append ⟨rfl, rfl⟩

theorem Follows.flush (h : Follows n commands queued) :
    Follows n (commands ++ [.flush queued]) queued :=
  h.append ⟨rfl, rfl⟩

def messagesOf (commands : List BatchCommand) : List Nat :=
  commands.filterMap fun
    | .message m => some m
    | .flush _ => none

theorem Follows.range_append (h : Follows n commands queued) :
    List.range n ++ messagesOf commands = List.range queued := by
  induction commands generalizing n with
  | nil =>
    cases h
    exact append_nil _
  | cons c commands ih =>
    cases c with
    | message m =>
      obtain ⟨rfl, h⟩ := h
      rw [← ih h, range_succ, append_assoc]
      rfl
    | flush before => exact ih h.2

/-! ## What every run keeps -/

namespace ProducerState

variable {cfg : BatchConfig} {s s' : ProducerState}

def received (s : ProducerState) : Nat :=
  s.results.length + s.pendingMessages.length

/-- Messages are completed in the order of the channel, each once, and a flush is completed only
behind the messages before it. -/
structure InOrder (s : ProducerState) : Prop where
  messages : s.results.map Prod.fst ++ s.pendingMessages = List.range s.received
  follows : Follows s.received s.channel s.queued
  flushes : ∀ before ∈ s.pendingFlushes, before ≤ s.received
  flushed : ∀ before ∈ s.flushed, before ≤ s.results.length
  closed : s.closed = true → s.pendingMessages = [] ∧ s.channel = []

theorem inOrder_new : new.InOrder where
  messages := rfl
  follows := rfl
  flushes _ h := by cases h
  flushed _ h := by cases h
  closed h := by cases h

theorem InOrder.completeFlushRequests (h : s.InOrder) (hempty : s.pendingMessages = []) :
    s.completeFlushRequests.InOrder where
  messages := h.messages
  follows := h.follows
  flushes _ hin := by cases hin
  flushed before hin := by
    rcases mem_append.mp hin with hin | hin
    · exact h.flushed before hin
    · have hle := h.flushes before hin
      rwa [received, hempty] at hle
  closed := h.closed

theorem length_batchResults (messages : List Nat) (answer : Except String Nat) :
    (batchResults messages answer).length = messages.length := by
  rw [← length_map (f := Prod.fst), map_fst_batchResults]

theorem InOrder.sendBatchInternal (h : s.InOrder) (reply : BatchReply) :
    (s.sendBatchInternal reply).InOrder := by
  unfold ProducerState.sendBatchInternal
  split
  · next hempty => exact h.completeFlushRequests (isEmpty_iff.mp hempty)
  · refine InOrder.completeFlushRequests ⟨?_, ?_, ?_, ?_, ?_⟩ rfl
    · have hmessages := h.messages
      simp only [received, map_append, map_fst_batchResults, length_append,
        length_batchResults, length_nil, append_nil, Nat.add_zero] at hmessages ⊢
      exact hmessages
    · have hfollows := h.follows
      simp only [received, length_append, length_batchResults, length_nil,
        Nat.add_zero] at hfollows ⊢
      exact hfollows
    · intro before hin
      have hle := h.flushes before hin
      simp only [received, length_append, length_batchResults, length_nil, Nat.add_zero] at hle ⊢
      exact hle
    · intro before hin
      have hle := h.flushed before hin
      simp only [length_append]
      omega
    · intro hclosed
      exact ⟨rfl, (h.closed hclosed).2⟩

variable {rest : List BatchCommand} {label : ProducerLabel}

theorem InOrder.takeMessage (h : s.InOrder) (hchannel : s.channel = .message m :: rest) :
    InOrder { s with channel := rest, pendingMessages := s.pendingMessages ++ [m] } := by
  have hfollows := h.follows
  rw [hchannel] at hfollows
  obtain ⟨hm, hrest⟩ := hfollows
  have hreceived :
      received { s with channel := rest, pendingMessages := s.pendingMessages ++ [m] } =
        s.received + 1 := by
    simp only [received, length_append, length_singleton, Nat.add_assoc]
  refine ⟨?_, ?_, ?_, h.flushed, ?_⟩
  · rw [hreceived, range_succ, ← h.messages, append_assoc, hm]
  · rw [hreceived]
    exact hrest
  · intro before hin
    rw [hreceived]
    exact Nat.le_succ_of_le (h.flushes before hin)
  · intro hclosed
    rw [(h.closed hclosed).2] at hchannel
    cases hchannel

theorem InOrder.takeFlush (h : s.InOrder) {before : Nat}
    (hchannel : s.channel = .flush before :: rest) :
    InOrder { s with channel := rest, pendingFlushes := s.pendingFlushes ++ [before] } := by
  have hfollows := h.follows
  rw [hchannel] at hfollows
  obtain ⟨rfl, hrest⟩ := hfollows
  refine ⟨h.messages, hrest, ?_, h.flushed, ?_⟩
  · intro b hin
    rcases mem_append.mp hin with hin | hin
    · exact h.flushes b hin
    · exact Nat.le_of_eq (mem_singleton.mp hin)
  · intro hclosed
    rw [(h.closed hclosed).2] at hchannel
    cases hchannel

theorem InOrder.receive (h : s.InOrder) (hstep : s.receive cfg reply = some s') : s'.InOrder := by
  unfold ProducerState.receive at hstep
  split at hstep
  · cases hstep
  · next m rest hchannel =>
    dsimp only at hstep
    split at hstep
    · cases hstep
      exact (h.takeMessage hchannel).sendBatchInternal reply
    · cases hstep
      exact h.takeMessage hchannel
  · next before rest hchannel =>
    dsimp only at hstep
    split at hstep
    · next hempty =>
      cases hstep
      exact (h.takeFlush hchannel).completeFlushRequests (isEmpty_iff.mp hempty)
    · cases hstep
      exact (h.takeFlush hchannel).sendBatchInternal reply

theorem pendingMessages_sendBatchInternal (reply : BatchReply) :
    (s.sendBatchInternal reply).pendingMessages = [] := by
  unfold ProducerState.sendBatchInternal
  split
  · next hempty => exact isEmpty_iff.mp hempty
  · rfl

theorem sendBatchInternal_frame (s : ProducerState) (reply : BatchReply) :
    (s.sendBatchInternal reply).channel = s.channel ∧
      (s.sendBatchInternal reply).queued = s.queued ∧
      (s.sendBatchInternal reply).closed = s.closed := by
  unfold ProducerState.sendBatchInternal
  split
  · exact ⟨rfl, rfl, rfl⟩
  · exact ⟨rfl, rfl, rfl⟩

theorem InOrder.step (h : s.InOrder) (hstep : s.step cfg label = some s') : s'.InOrder := by
  unfold ProducerState.step at hstep
  split at hstep
  · cases hstep
  · next hopen =>
    cases label with
    | send =>
      cases hstep
      exact ⟨h.messages, h.follows.send, h.flushes, h.flushed, fun hclosed => absurd hclosed hopen⟩
    | flush =>
      cases hstep
      exact ⟨h.messages, h.follows.flush, h.flushes, h.flushed, fun hclosed => absurd hclosed hopen⟩
    | receive reply => exact h.receive hstep
    | tick reply =>
      dsimp only at hstep
      split at hstep
      · cases hstep
        exact h
      · cases hstep
        exact h.sendBatchInternal reply
    | finish reply =>
      dsimp only at hstep
      split at hstep
      · next hempty =>
        cases hstep
        have hsent := h.sendBatchInternal reply
        refine { hsent with closed := fun _ => ⟨?_, ?_⟩ }
        · exact pendingMessages_sendBatchInternal reply
        · exact (s.sendBatchInternal_frame reply).1.trans (isEmpty_iff.mp hempty)
      · cases hstep

theorem InOrder.completed (h : s.InOrder) :
    s.results.map Prod.fst = List.range s.results.length := by
  have htake := congrArg (take s.results.length) h.messages
  rw [take_left' (length_map _), take_range, received] at htake
  rwa [Nat.min_eq_left (Nat.le_add_right _ _)] at htake

theorem InOrder.completed_or_waits (h : s.InOrder) :
    s.results.map Prod.fst ++ s.pendingMessages ++ messagesOf s.channel = List.range s.queued := by
  rw [h.messages]
  exact h.follows.range_append

theorem InOrder.all_completed (h : s.InOrder) (hpending : s.pendingMessages = [])
    (hchannel : s.channel = []) : s.results.map Prod.fst = List.range s.queued := by
  have hall := h.completed_or_waits
  rw [hpending, hchannel, append_nil] at hall
  exact (append_nil _).symm.trans hall

/-! ## The loop completes what it is given -/

theorem receive_frame (cfg : BatchConfig) {command : BatchCommand}
    (hchannel : s.channel = command :: rest) (reply : BatchReply) :
    ∃ s', s.receive cfg reply = some s' ∧ s'.channel = rest ∧ s'.queued = s.queued ∧
      s'.closed = s.closed := by
  unfold ProducerState.receive
  rw [hchannel]
  cases command with
  | message m =>
    dsimp only
    split
    · exact ⟨_, rfl, sendBatchInternal_frame _ reply⟩
    · exact ⟨_, rfl, rfl, rfl, rfl⟩
  | flush before =>
    dsimp only
    split
    · exact ⟨_, rfl, rfl, rfl, rfl⟩
    · exact ⟨_, rfl, sendBatchInternal_frame _ reply⟩

theorem InOrder.drained (h : s.InOrder) (hopen : s.closed = false) (replies : List BatchReply)
    (hreplies : replies.length = s.channel.length) (last : BatchReply) :
    ∃ s', exec (ProducerState.step cfg) s (replies.map .receive ++ [.tick last]) = some s' ∧
      s'.results.map Prod.fst = List.range s.queued := by
  induction replies generalizing s with
  | nil =>
    have hchannel : s.channel = [] := length_eq_zero_iff.mp hreplies.symm
    obtain ⟨hframe, hqueued, -⟩ := s.sendBatchInternal_frame last
    have hsent := (h.sendBatchInternal last).all_completed (pendingMessages_sendBatchInternal last)
      (hframe.trans hchannel)
    by_cases hempty : s.pendingMessages.isEmpty = true
    · refine ⟨s, ?_, h.all_completed (isEmpty_iff.mp hempty) hchannel⟩
      simp [exec, ProducerState.step, hopen, hempty]
    · refine ⟨s.sendBatchInternal last, ?_, hsent.trans (by rw [hqueued])⟩
      simp [exec, ProducerState.step, hopen, hempty]
  | cons reply replies ih =>
    cases hchannel : s.channel with
    | nil =>
      rw [hchannel] at hreplies
      cases hreplies
    | cons command rest =>
      obtain ⟨s₁, hreceive, hrest, hqueued, hclosed⟩ := receive_frame cfg hchannel reply
      rw [hchannel] at hreplies
      obtain ⟨s', hexec, hall⟩ := ih (h.receive hreceive) (hclosed.trans hopen)
        ((Nat.succ.inj hreplies).trans (by rw [hrest]))
      have hstep : s.step cfg (.receive reply) = some s₁ := by
        rw [ProducerState.step, hopen]
        exact hreceive
      refine ⟨s', ?_, hall.trans (by rw [hqueued])⟩
      rw [map_cons, cons_append, exec, hstep]
      exact hexec

/-! ## What the batches decide -/

section batches

variable {Q : BatchReply → List Nat → Prop}
  {J : List (Nat × Except String Nat) → List (Nat × Nat) → Prop}

/-- `Q` holds of the batch that a step sends, if it sends one. -/
def OnBatch (cfg : BatchConfig) (Q : BatchReply → List Nat → Prop) (s : ProducerState) :
    ProducerLabel → Prop
  | .receive reply =>
    match s.channel with
    | .message m :: _ =>
      cfg.batchSize ≤ s.pendingMessages.length + 1 → Q reply (s.pendingMessages ++ [m])
    | .flush _ :: _ => s.pendingMessages ≠ [] → Q reply s.pendingMessages
    | [] => True
  | .tick reply => s.pendingMessages ≠ [] → Q reply s.pendingMessages
  | .finish reply => s.pendingMessages ≠ [] → Q reply s.pendingMessages
  | _ => True

/-- `J` speaks of the results and of what is stored, and a batch of which `Q` holds keeps it. -/
def KeptByBatches (Q : BatchReply → List Nat → Prop)
    (J : List (Nat × Except String Nat) → List (Nat × Nat) → Prop) : Prop :=
  ∀ results stored reply messages, J results stored → Q reply messages →
    J (results ++ batchResults messages (sendProduceRequest reply messages).2)
      (stored ++ (sendProduceRequest reply messages).1)

section

variable (hkept : KeptByBatches Q J) (h : J s.results s.stored)
include hkept h

theorem KeptByBatches.sendBatchInternal (hQ : s.pendingMessages ≠ [] → Q reply s.pendingMessages) :
    J (s.sendBatchInternal reply).results (s.sendBatchInternal reply).stored := by
  unfold ProducerState.sendBatchInternal
  split
  · exact h
  · next hne =>
    have hne : s.pendingMessages ≠ [] := fun hnil => hne (isEmpty_iff.mpr hnil)
    exact hkept _ _ _ _ h (hQ hne)

theorem KeptByBatches.receive (hQ : OnBatch cfg Q s (.receive reply))
    (hstep : s.receive cfg reply = some s') : J s'.results s'.stored := by
  unfold ProducerState.receive at hstep
  unfold OnBatch at hQ
  split at hstep
  · cases hstep
  · next m rest hchannel =>
    rw [hchannel] at hQ
    dsimp only at hstep hQ
    split at hstep
    · next hfull =>
      cases hstep
      rw [length_append, length_singleton] at hfull
      exact hkept.sendBatchInternal
        (s := { s with channel := rest, pendingMessages := s.pendingMessages ++ [m] }) h
        fun _ => hQ hfull
    · cases hstep
      exact h
  · next before rest hchannel =>
    rw [hchannel] at hQ
    dsimp only at hstep hQ
    split at hstep
    · cases hstep
      exact h
    · cases hstep
      exact hkept.sendBatchInternal
        (s := { s with channel := rest, pendingFlushes := s.pendingFlushes ++ [before] }) h hQ

theorem KeptByBatches.step (hQ : OnBatch cfg Q s label) (hstep : s.step cfg label = some s') :
    J s'.results s'.stored := by
  unfold ProducerState.step at hstep
  split at hstep
  · cases hstep
  · cases label with
    | send | flush =>
      cases hstep
      exact h
    | receive reply => exact hkept.receive h hQ hstep
    | tick reply =>
      dsimp only at hstep
      split at hstep
      · cases hstep
        exact h
      · cases hstep
        exact hkept.sendBatchInternal h hQ
    | finish reply =>
      dsimp only at hstep
      split at hstep
      · cases hstep
        exact hkept.sendBatchInternal h hQ
      · cases hstep

end

theorem KeptByBatches.run (hkept : KeptByBatches Q J) (hnew : J [] []) {labels : List ProducerLabel}
    (hQ : Along (ProducerState.step cfg) (OnBatch cfg Q) new labels)
    (hexec : exec (ProducerState.step cfg) new labels = some s) : J s.results s.stored :=
  exec_invariant (I := fun s => J s.results s.stored) (fun _ _ _ h hP hs => hkept.step h hP hs) hnew
    hQ hexec

end batches

def AllStored (results : List (Nat × Except String Nat)) (stored : List (Nat × Nat)) : Prop :=
  ∀ m ∈ results.map Prod.fst, ∃ offset, (m, offset) ∈ stored

def ToldStored (results : List (Nat × Except String Nat)) (stored : List (Nat × Nat)) : Prop :=
  ∀ m offset, (m, .ok offset) ∈ results → (m, offset) ∈ stored

theorem keptByBatches_allStored : KeptByBatches StoredWhole AllStored := by
  intro results stored reply messages h hwhole m hm
  rw [map_append, map_fst_batchResults] at hm
  rcases mem_append.mp hm with hm | hm
  · obtain ⟨offset, hin⟩ := h m hm
    exact ⟨offset, mem_append_left _ hin⟩
  · obtain ⟨offset, hin⟩ := hwhole.exists_stored hm
    exact ⟨offset, mem_append_right _ hin⟩

theorem keptByBatches_toldStored : KeptByBatches StoredInRow ToldStored := by
  intro results stored reply messages h hrow m offset hm
  rcases mem_append.mp hm with hm | hm
  · exact mem_append_left _ (h m offset hm)
  · exact mem_append_right _ (hrow.stored_of_result hm)

/-- **What a flush and a result say.** Every queued message is completed or waits, once and in
order. If batches are stored whole, what was queued before a flush is stored, and if they are stored
in a row, each result is where its message is. -/
theorem flush_honest (cfg : BatchConfig) (labels : List ProducerLabel) (s : ProducerState)
    (hexec : exec (step cfg) new labels = some s) :
    (Along (step cfg) (OnBatch cfg StoredWhole) new labels →
        ∀ before ∈ s.flushed, ∀ m < before, ∃ offset, (m, offset) ∈ s.stored) ∧
      (Along (step cfg) (OnBatch cfg StoredInRow) new labels →
        ∀ m offset, (m, .ok offset) ∈ s.results → (m, offset) ∈ s.stored) ∧
      s.results.map Prod.fst ++ s.pendingMessages ++ messagesOf s.channel = List.range s.queued ∧
      (s.closed = true → s.results.map Prod.fst = List.range s.queued) ∧
      (s.closed = false → ∀ (replies : List BatchReply) (last : BatchReply),
        replies.length = s.channel.length →
        ∃ s', exec (step cfg) s (replies.map .receive ++ [.tick last]) = some s' ∧
          s'.results.map Prod.fst = List.range s.queued) := by
  have horder : s.InOrder := exec_invariant_of_step (fun _ _ _ h hs => h.step hs) inOrder_new hexec
  refine ⟨?_, ?_, horder.completed_or_waits, ?_, ?_⟩
  · intro hwhole before hbefore m hm
    have hnew : AllStored [] [] := fun m hm => by cases hm
    -- the messages before a completed flush are completed
    have hcompleted : m ∈ s.results.map Prod.fst := by
      rw [horder.completed, mem_range]
      exact Nat.lt_of_lt_of_le hm (horder.flushed before hbefore)
    exact keptByBatches_allStored.run hnew hwhole hexec m hcompleted
  · intro hrow
    have hnew : ToldStored [] [] := fun m offset hm => by cases hm
    exact keptByBatches_toldStored.run hnew hrow hexec
  · intro hclosed
    obtain ⟨hpending, hchannel⟩ := horder.closed hclosed
    exact horder.all_completed hpending hchannel
  · intro hopen replies last hreplies
    exact horder.drained hopen replies hreplies last

def inRow (base : Nat) : BatchReply := ⟨fun i => .ok (base + i), .works⟩

theorem handleProduce_inRow (base i : Nat) (messages : List Nat) :
    handleProduce (inRow base).stores i messages = (messages.zipIdx (base + i), none) := by
  induction messages generalizing i with
  | nil => rfl
  | cons m ms ih =>
    unfold handleProduce
    rw [ih (i + 1)]
    rfl

def threeThenFlush : List ProducerLabel :=
  [.send, .send, .send, .flush, .receive (inRow 0), .receive (inRow 0), .receive (inRow 7),
    .receive (inRow 7)]

theorem storedWhole_threeThenFlush (h : label ∈ threeThenFlush) (s : ProducerState) :
    OnBatch ⟨2⟩ StoredWhole s label := by
  have hwhole : ∀ base messages, StoredWhole (inRow base) messages := by
    intro base messages
    exact ⟨rfl, by rw [handleProduce_inRow]⟩
  have hreceive : ∀ base, OnBatch ⟨2⟩ StoredWhole s (.receive (inRow base)) := by
    intro base
    unfold OnBatch
    dsimp only
    split
    · exact fun _ => hwhole _ _
    · exact fun _ => hwhole _ _
    · trivial
  simp only [threeThenFlush, mem_cons, not_mem_nil, or_false] at h
  rcases h with rfl | rfl | rfl | rfl | rfl | rfl | rfl | rfl
  · trivial
  · trivial
  · trivial
  · trivial
  · exact hreceive 0
  · exact hreceive 0
  · exact hreceive 7
  · exact hreceive 7

theorem flush_honest_threeThenFlush :
    ∃ s, exec (step ⟨2⟩) new threeThenFlush = some s ∧ s.flushed = [3] ∧
      s.stored = [(0, 0), (1, 1), (2, 7)] ∧ ∀ m < 3, ∃ offset, (m, offset) ∈ s.stored := by
  refine ⟨_, rfl, rfl, rfl, ?_⟩
  have hhonest := (flush_honest ⟨2⟩ threeThenFlush _ rfl).1
    (along_of_forall_mem (fun _ h s => storedWhole_threeThenFlush h s) new)
  exact hhonest 3 (mem_singleton.mpr rfl)

/-- The broker refuses the one message before a flush, and the flush returns `Ok`; and of two
messages with others between them, the second is reported where it is not. -/
theorem flush_hides_failure : ((exec (step ⟨10⟩) new [.send, .flush, .receive (inRow 0),
        .receive ⟨fun _ => .error "Storage error", .works⟩]).map
          fun s => (s.flushed, s.results, s.stored)) =
      some ([1], [(0, .error "Storage error")], []) ∧
    ((exec (step ⟨2⟩) new [.send, .send, .receive (inRow 0),
        .receive ⟨fun i => .ok (5 * i), .works⟩]).map fun s => (s.results, s.stored)) =
      some ([(0, .ok 0), (1, .ok 1)], [(0, 0), (1, 5)]) :=
  ⟨rfl, rfl⟩

end ProducerState

end RustMq.Sdk
