import RustMq.Controller.LogStorage
import RustMq.Controller.Snapshot

/-!
# Raft messages between two controllers

`RustMqNetwork` (`src/controller/openraft_network.rs`) is what openraft sends its messages with,
and `RustMqRaftService` (`src/controller/raft_service.rs`) hands the ones that arrive to the raft
node there. A message passes four conversions: the client flattens the request into a protobuf
message, the service builds a request from it again, flattens the node's answer, and the client
builds an answer from that.
-/

namespace RustMq.Controller

open Lib

/-! ## The messages of openraft -/

structure AppendEntriesRequest where
  vote : Vote
  prevLogId : Option LogId
  entries : List Entry
  leaderCommit : Option LogId
  deriving DecidableEq

inductive AppendEntriesResponse where
  | success
  | partialSuccess (matching : Option LogId)
  | conflict
  | higherVote (vote : Vote)
  deriving DecidableEq

structure VoteRequest where
  vote : Vote
  lastLogId : Option LogId
  deriving DecidableEq

structure VoteResponse where
  vote : Vote
  voteGranted : Bool
  lastLogId : Option LogId
  deriving DecidableEq

structure InstallSnapshotRequest where
  vote : Vote
  info : SnapshotMeta
  offset : Nat
  data : List UInt8
  done : Bool

structure InstallSnapshotResponse where
  vote : Vote
  deriving DecidableEq

def Vote.new (term nodeId : Nat) : Vote :=
  ⟨⟨term, nodeId⟩, false⟩

/-! ## The messages on the wire -/

structure SimpleAppendEntriesRequest where
  term : Nat
  leaderId : Nat
  prevLogId : List UInt8
  entries : List UInt8
  leaderCommit : Nat
  leaderCommitTerm : Nat
  leaderCommitNodeId : Nat
  deriving DecidableEq

structure SimpleAppendEntriesResponse where
  term : Nat
  success : Bool
  conflictLogId : List UInt8
  deriving DecidableEq

structure SimpleVoteRequest where
  term : Nat
  candidateId : Nat
  lastLogId : List UInt8
  deriving DecidableEq

structure SimpleVoteResponse where
  term : Nat
  voteGranted : Bool
  deriving DecidableEq

structure SimpleInstallSnapshotRequest where
  term : Nat
  leaderId : Nat
  info : List UInt8
  offset : Nat
  data : List UInt8
  done : Bool
  deriving DecidableEq

structure SimpleInstallSnapshotResponse where
  term : Nat
  deriving DecidableEq

/-! ## Bytes -/

structure Formats where
  entries : Codec (List Entry)
  info : Codec SnapshotMeta

/-- How a call fails: a field that is not the bytes of a value, or the error of the raft node. -/
inductive RpcError where
  | deserialize (field : String)
  | raft (call error : String)
  deriving DecidableEq

def deserialize {α : Type} (c : Codec α) (field : String) (bytes : List UInt8) :
    Except RpcError α :=
  match c.decode bytes with
  | none => .error (.deserialize field)
  | some a => .ok a

def optionalLogIdBytes (id : Option LogId) : List UInt8 :=
  (id.map logIdCodec.enc).getD []

def readOptionalLogId (field : String) (bytes : List UInt8) : Except RpcError (Option LogId) :=
  if bytes.isEmpty then .ok none else (deserialize logIdCodec field bytes).map some

/-! ## The client -/

structure RustMqNetwork where
  currentNodeId : Nat

def convertAppendEntriesRequest (f : Formats) (req : AppendEntriesRequest) :
    SimpleAppendEntriesRequest where
  term := req.vote.leaderId.term
  leaderId := req.vote.leaderId.nodeId
  prevLogId := optionalLogIdBytes req.prevLogId
  entries := f.entries.enc req.entries
  leaderCommit := (req.leaderCommit.map (·.index)).getD 0
  leaderCommitTerm := (req.leaderCommit.map (·.leaderId.term)).getD 0
  leaderCommitNodeId := (req.leaderCommit.map (·.leaderId.nodeId)).getD 0

def convertAppendEntriesResponse (reply : SimpleAppendEntriesResponse) :
    Except RpcError AppendEntriesResponse :=
  if reply.success then .ok .success
  else if reply.conflictLogId.isEmpty then .ok (.partialSuccess none)
  else (deserialize (.option logIdCodec) "conflict_log_id" reply.conflictLogId).map
    .partialSuccess

def convertVoteRequest (req : VoteRequest) : SimpleVoteRequest :=
  ⟨req.vote.leaderId.term, req.vote.leaderId.nodeId, optionalLogIdBytes req.lastLogId⟩

/-- The vote is the one that was sent, and the log id is not in the message. -/
def convertVoteResponse (reply : SimpleVoteResponse) (originalVote : Vote) : VoteResponse :=
  ⟨originalVote, reply.voteGranted, none⟩

/-- The leader is the node that sends, whatever the vote says. -/
def convertInstallSnapshotRequest (f : Formats) (net : RustMqNetwork)
    (req : InstallSnapshotRequest) : SimpleInstallSnapshotRequest :=
  ⟨req.vote.leaderId.term, net.currentNodeId, f.info.enc req.info, req.offset, req.data, req.done⟩

def convertInstallSnapshotResponse (_ : SimpleInstallSnapshotResponse) (originalVote : Vote) :
    InstallSnapshotResponse :=
  ⟨originalVote⟩

/-! ## The service

Each method builds the request, awaits the raft node, and builds the reply. -/

def serve {Req Resp Reply : Type} (call : String) (request : Except RpcError Req)
    (node : Req → Except String Resp) (reply : Resp → Reply) : Except RpcError Reply := do
  let req ← request
  match node req with
  | .error e => .error (.raft call e)
  | .ok resp => .ok (reply resp)

def appendEntriesRequest (f : Formats) (req : SimpleAppendEntriesRequest) :
    Except RpcError AppendEntriesRequest := do
  let prevLogId ← readOptionalLogId "prev_log_id" req.prevLogId
  let entries ← deserialize f.entries "entries" req.entries
  return {
    vote := ⟨⟨req.term, req.leaderId⟩, true⟩
    prevLogId := prevLogId
    entries := entries
    leaderCommit :=
      if 0 < req.leaderCommit then
        some ⟨⟨req.leaderCommitTerm, req.leaderCommitNodeId⟩, req.leaderCommit⟩
      else none }

def appendEntriesReply (req : SimpleAppendEntriesRequest) :
    AppendEntriesResponse → SimpleAppendEntriesResponse
  | .success => ⟨req.term, true, []⟩
  | .partialSuccess matching => ⟨req.term, false, (Codec.option logIdCodec).enc matching⟩
  | .higherVote vote => ⟨vote.leaderId.term, false, []⟩
  | .conflict => ⟨req.term, false, []⟩

def voteRequest (req : SimpleVoteRequest) : Except RpcError VoteRequest := do
  let lastLogId ← readOptionalLogId "last_log_id" req.lastLogId
  return ⟨.new req.term req.candidateId, lastLogId⟩

def voteReply (resp : VoteResponse) : SimpleVoteResponse :=
  ⟨resp.vote.leaderId.term, resp.voteGranted⟩

def installSnapshotRequest (f : Formats) (req : SimpleInstallSnapshotRequest) :
    Except RpcError InstallSnapshotRequest := do
  let info ← deserialize f.info "snapshot meta" req.info
  return ⟨.new req.term req.leaderId, info, req.offset, req.data, req.done⟩

def installSnapshotReply (resp : InstallSnapshotResponse) : SimpleInstallSnapshotResponse :=
  ⟨resp.vote.leaderId.term⟩

/-! ## The calls -/

/-- The request the service hands to its raft node when the client is given `req`. -/
def handedAppendEntries (f : Formats) (req : AppendEntriesRequest) :
    Except RpcError AppendEntriesRequest :=
  appendEntriesRequest f (convertAppendEntriesRequest f req)

def handedVote (req : VoteRequest) : Except RpcError VoteRequest :=
  voteRequest (convertVoteRequest req)

def handedInstallSnapshot (f : Formats) (net : RustMqNetwork) (req : InstallSnapshotRequest) :
    Except RpcError InstallSnapshotRequest :=
  installSnapshotRequest f (convertInstallSnapshotRequest f net req)

def sendAppendEntries (f : Formats)
    (node : AppendEntriesRequest → Except String AppendEntriesResponse)
    (req : AppendEntriesRequest) : Except RpcError AppendEntriesResponse := do
  let reply ← serve "append_entries" (handedAppendEntries f req) node
    (appendEntriesReply (convertAppendEntriesRequest f req))
  convertAppendEntriesResponse reply

def sendVote (node : VoteRequest → Except String VoteResponse) (req : VoteRequest) :
    Except RpcError VoteResponse := do
  let reply ← serve "vote" (handedVote req) node voteReply
  return convertVoteResponse reply req.vote

def sendInstallSnapshot (f : Formats) (net : RustMqNetwork)
    (node : InstallSnapshotRequest → Except String InstallSnapshotResponse)
    (req : InstallSnapshotRequest) : Except RpcError InstallSnapshotResponse := do
  let reply ← serve "install_snapshot" (handedInstallSnapshot f net req) node installSnapshotReply
  return convertInstallSnapshotResponse reply req.vote

def Answers {Req Resp : Type} (handed : Except RpcError Req) (node : Req → Except String Resp)
    (resp : Resp) : Prop :=
  ∃ req, handed = .ok req ∧ node req = .ok resp

theorem serve_of_answers {Req Resp Reply : Type} {call : String} {handed : Except RpcError Req}
    {node : Req → Except String Resp} {resp : Resp} (h : Answers handed node resp)
    (reply : Resp → Reply) : serve call handed node reply = .ok (reply resp) := by
  obtain ⟨req, hhanded, hnode⟩ := h
  simp only [serve, hhanded, hnode, bind, Except.bind]

/-! ## What arrives -/

theorem deserialize_enc {α : Type} (c : Codec α) (field : String) {a : α} (h : c.Fits a) :
    deserialize c field (c.enc a) = .ok a := by
  have hdecode := c.decode_enc h []
  rw [List.append_nil] at hdecode
  rw [deserialize, hdecode]

theorem readOptionalLogId_bytes (field : String) {id : Option LogId}
    (h : ∀ i, id = some i → logIdCodec.Fits i) :
    readOptionalLogId field (optionalLogIdBytes id) = .ok id := by
  cases id with
  | none => rfl
  | some i =>
    have hne : (logIdCodec.enc i).isEmpty = false := rfl
    simp only [readOptionalLogId, optionalLogIdBytes, Option.map_some, Option.getD_some, hne,
      deserialize_enc logIdCodec field (h i rfl)]
    rfl

structure AppendEntriesRequest.Fits (f : Formats) (req : AppendEntriesRequest) : Prop where
  prevLogId : ∀ id, req.prevLogId = some id → logIdCodec.Fits id
  entries : f.entries.Fits req.entries

/-- The commit id as it arrives: index 0 stands for no id. -/
def arrivedCommit (commit : Option LogId) : Option LogId :=
  commit.filter (0 < ·.index)

theorem arrivedCommit_eq_iff {commit : Option LogId} :
    arrivedCommit commit = commit ↔ ∀ id, commit = some id → 0 < id.index := by
  cases commit with
  | none => simp [arrivedCommit]
  | some id => simp [arrivedCommit, Option.filter_some]

theorem handedAppendEntries_eq {f : Formats} {req : AppendEntriesRequest} (h : req.Fits f) :
    handedAppendEntries f req = .ok ⟨⟨req.vote.leaderId, true⟩, req.prevLogId, req.entries,
        arrivedCommit req.leaderCommit⟩ := by
  obtain ⟨vote, prevLogId, entries, commit⟩ := req
  simp only [handedAppendEntries, appendEntriesRequest, convertAppendEntriesRequest,
    readOptionalLogId_bytes _ h.prevLogId, deserialize_enc f.entries _ h.entries, bind,
    Except.bind, pure, Except.pure]
  cases commit with
  | none => rfl
  | some id =>
    obtain ⟨leader, index⟩ := id
    cases index with
    | zero | succ => rfl

theorem handedVote_eq {req : VoteRequest} (h : ∀ id, req.lastLogId = some id → logIdCodec.Fits id) :
    handedVote req = .ok ⟨⟨req.vote.leaderId, false⟩, req.lastLogId⟩ := by
  simp only [handedVote, voteRequest, convertVoteRequest, readOptionalLogId_bytes _ h, bind,
    Except.bind, pure, Except.pure]
  rfl

theorem handedInstallSnapshot_eq {f : Formats} {net : RustMqNetwork} {req : InstallSnapshotRequest}
    (h : f.info.Fits req.info) :
    handedInstallSnapshot f net req =
      .ok { req with vote := .new req.vote.leaderId.term net.currentNodeId } := by
  simp only [handedInstallSnapshot, installSnapshotRequest, convertInstallSnapshotRequest,
    deserialize_enc f.info _ h, bind, Except.bind, pure, Except.pure]

def arrivedAnswer : AppendEntriesResponse → AppendEntriesResponse
  | .success => .success
  | .partialSuccess matching => .partialSuccess matching
  | .conflict => .partialSuccess none
  | .higherVote _ => .partialSuccess none

theorem convertAppendEntriesResponse_reply (req : SimpleAppendEntriesRequest)
    {resp : AppendEntriesResponse}
    (h : ∀ id, resp = .partialSuccess (some id) → logIdCodec.Fits id) :
    convertAppendEntriesResponse (appendEntriesReply req resp) = .ok (arrivedAnswer resp) := by
  cases resp with
  | success | conflict | higherVote => rfl
  | partialSuccess matching =>
    have hfits : (Codec.option logIdCodec).Fits matching := by
      intro id hid
      exact h id (by rw [hid])
    have hne : ((Codec.option logIdCodec).enc matching).isEmpty = false := by
      cases matching <;> rfl
    simp only [convertAppendEntriesResponse, appendEntriesReply, hne, deserialize_enc _ _ hfits]
    rfl

/-- **Which raft messages survive the wire.** -/
theorem raft_messages_survive_iff (f : Formats) (net : RustMqNetwork) :
    (∀ req : AppendEntriesRequest, req.Fits f → (handedAppendEntries f req = .ok req ↔
        req.vote.committed = true ∧ ∀ id, req.leaderCommit = some id → 0 < id.index) ∧
      ∀ node resp, Answers (handedAppendEntries f req) node resp →
        (∀ id, resp = .partialSuccess (some id) → logIdCodec.Fits id) →
        (sendAppendEntries f node req = .ok resp ↔
          resp = .success ∨ ∃ matching, resp = .partialSuccess matching)) ∧
    (∀ req : VoteRequest, (∀ id, req.lastLogId = some id → logIdCodec.Fits id) →
      (handedVote req = .ok req ↔ req.vote.committed = false) ∧
      ∀ node resp, Answers (handedVote req) node resp →
        (sendVote node req = .ok resp ↔ resp.vote = req.vote ∧ resp.lastLogId = none)) ∧
    (∀ req : InstallSnapshotRequest, f.info.Fits req.info →
      (handedInstallSnapshot f net req = .ok req ↔
        req.vote.committed = false ∧ req.vote.leaderId.nodeId = net.currentNodeId) ∧
      ∀ node resp, Answers (handedInstallSnapshot f net req) node resp →
        (sendInstallSnapshot f net node req = .ok resp ↔ resp.vote = req.vote)) := by
  refine ⟨fun req hfits => ⟨?_, ?_⟩, fun req hfits => ⟨?_, ?_⟩, fun req hfits => ⟨?_, ?_⟩⟩
  · rw [handedAppendEntries_eq hfits]
    obtain ⟨⟨leader, committed⟩, prevLogId, entries, commit⟩ := req
    simp [arrivedCommit_eq_iff, eq_comm (a := true)]
  · intro node resp hanswers hresp
    rw [sendAppendEntries, serve_of_answers hanswers]
    change convertAppendEntriesResponse _ = _ ↔ _
    rw [convertAppendEntriesResponse_reply _ hresp]
    cases resp <;> simp [arrivedAnswer]
  · rw [handedVote_eq hfits]
    obtain ⟨⟨leader, committed⟩, lastLogId⟩ := req
    simp [eq_comm]
  · intro node resp hanswers
    rw [sendVote, serve_of_answers hanswers]
    obtain ⟨vote, granted, lastLogId⟩ := resp
    simp [convertVoteResponse, voteReply, pure, Except.pure, bind, Except.bind, eq_comm]
  · rw [handedInstallSnapshot_eq hfits]
    obtain ⟨⟨⟨term, nodeId⟩, committed⟩, info, offset, data, done⟩ := req
    simp [Vote.new, eq_comm, and_comm]
  · intro node resp hanswers
    rw [sendInstallSnapshot, serve_of_answers hanswers]
    obtain ⟨vote⟩ := resp
    simp [convertInstallSnapshotResponse, pure, Except.pure, bind, Except.bind, eq_comm]

def emptyFormats : Formats where
  entries :=
    { enc := fun _ => []
      dec := fun bs => some ([], bs)
      Fits := (· = [])
      dec_enc := by
        rintro _ rest rfl
        rfl }
  info :=
    { enc := fun _ => []
      dec := fun bs => some (⟨none, (none, ⟨[], []⟩), "snapshot_0"⟩, bs)
      Fits := (· = ⟨none, (none, ⟨[], []⟩), "snapshot_0"⟩)
      dec_enc := by
        rintro _ rest rfl
        rfl }

def heartbeatOf (commit : Option LogId) : AppendEntriesRequest :=
  ⟨⟨⟨3, 1⟩, true⟩, some ⟨⟨3, 1⟩, 5⟩, [], commit⟩

theorem raft_messages_survive_iff_heartbeat :
    handedAppendEntries emptyFormats (heartbeatOf (some ⟨⟨3, 1⟩, 4⟩)) =
        .ok (heartbeatOf (some ⟨⟨3, 1⟩, 4⟩)) ∧
      sendAppendEntries emptyFormats (fun _ => .ok (.partialSuccess (some ⟨⟨3, 1⟩, 2⟩)))
        (heartbeatOf (some ⟨⟨3, 1⟩, 4⟩)) = .ok (.partialSuccess (some ⟨⟨3, 1⟩, 2⟩)) := by
  have hfits : (heartbeatOf (some ⟨⟨3, 1⟩, 4⟩)).Fits emptyFormats := by
    refine ⟨fun id hid => ?_, rfl⟩
    cases hid
    exact logIdCodec_fits (by decide)
  obtain ⟨hrequest, hanswer⟩ :=
    (raft_messages_survive_iff emptyFormats ⟨1⟩).1 (heartbeatOf (some ⟨⟨3, 1⟩, 4⟩)) hfits
  refine ⟨hrequest.mpr ⟨rfl, ?_⟩, (hanswer _ _ ⟨_, rfl, rfl⟩ ?_).mpr (.inr ⟨_, rfl⟩)⟩
  · intro id hid
    cases hid
    decide
  · intro id hid
    cases hid
    exact logIdCodec_fits (by decide)

/-- A node that has seen term 9 answers the leader of term 3 with that vote, and the leader is told
of a partial success. A candidate that is refused for the vote of term 9 is shown its own. -/
theorem higher_vote_lost :
    sendAppendEntries emptyFormats (fun _ => .ok (.higherVote ⟨⟨9, 2⟩, true⟩))
        (heartbeatOf none) = .ok (.partialSuccess none) ∧
      sendAppendEntries emptyFormats (fun _ => .ok .conflict) (heartbeatOf none) =
        .ok (.partialSuccess none) ∧
      handedAppendEntries emptyFormats (heartbeatOf (some ⟨⟨3, 1⟩, 0⟩)) = .ok (heartbeatOf none) ∧
      sendVote (fun _ => .ok ⟨⟨⟨9, 2⟩, true⟩, false, some ⟨⟨9, 2⟩, 7⟩⟩) ⟨.new 3 1, none⟩ =
        .ok ⟨.new 3 1, false, none⟩ ∧
      handedInstallSnapshot emptyFormats ⟨1⟩
          ⟨⟨⟨3, 1⟩, true⟩, ⟨none, (none, ⟨[], []⟩), "snapshot_0"⟩, 0, [1], true⟩ =
        .ok ⟨.new 3 1, ⟨none, (none, ⟨[], []⟩), "snapshot_0"⟩, 0, [1], true⟩ :=
  ⟨rfl, rfl, rfl, rfl, rfl⟩

end RustMq.Controller
