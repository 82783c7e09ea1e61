import Mathlib.Algebra.Order.Group.Nat
import RustMq.Lib.Runs

/-!
# Elections of the controller service

`start_election`, `handle_vote_request` and `handle_append_entries` of `ControllerService`
(`src/controller/service.rs`), one call at a time on one node. `handle_append_entries` raises the
term and leaves the vote of the earlier term in place, so in the new term the node votes for the
same candidate again or for nobody.

The term is a `u64` that `start_election` raises by a wrapping addition: an election at the greatest
term starts over at term 0, where the node may have voted before (`term_wraps`).
-/

namespace RustMq.Controller.Election

open Lib

structure VoteRequest where
  term : Nat
  candidateId : String
  lastLogIndex : Nat
  lastLogTerm : Nat
  deriving DecidableEq

structure VoteResponse where
  term : Nat
  voteGranted : Bool
  deriving DecidableEq

structure AppendEntriesRequest where
  term : Nat
  leaderId : String
  prevLogIndex : Nat
  /-- The terms of the entries. -/
  entries : List Nat
  deriving DecidableEq

structure AppendEntriesResponse where
  term : Nat
  success : Bool
  matchIndex : Option Nat
  deriving DecidableEq

structure RaftState where
  currentTerm : Nat
  votedFor : Option String
  isLeader : Bool
  currentLeader : Option String
  /-- The terms of the log entries. -/
  logEntries : List Nat
  peers : List String
  deriving DecidableEq

namespace RaftState

def new (peers : List String) : RaftState := ⟨0, none, false, none, [], peers⟩

def getLastLogIndex (s : RaftState) : Nat := s.logEntries.length

def getLastLogTerm (s : RaftState) : Nat := s.logEntries.getLast?.getD 0

/-- The request's last log is not behind the node's own. -/
def LogOk (s : RaftState) (request : VoteRequest) : Prop :=
  s.getLastLogTerm < request.lastLogTerm ∨
    request.lastLogTerm = s.getLastLogTerm ∧ s.getLastLogIndex ≤ request.lastLogIndex

instance (s : RaftState) (request : VoteRequest) : Decidable (s.LogOk request) :=
  inferInstanceAs (Decidable (_ ∨ _ ∧ _))

def startElection (nodeId : String) (s : RaftState) : Bool × RaftState :=
  let s := { s with
    currentTerm := (s.currentTerm + 1) % 2 ^ 64, votedFor := some nodeId, isLeader := false }
  let majority := (s.peers.length + 1) / 2 + 1
  if majority ≤ 1 then (true, { s with isLeader := true, currentLeader := some nodeId })
  else (false, s)

/-- A newer term is taken over, and the vote with it given up. -/
def raiseTerm (s : RaftState) (term : Nat) : RaftState :=
  if s.currentTerm < term then
    { s with currentTerm := term, votedFor := none, isLeader := false }
  else s

def handleVoteRequest (s : RaftState) (request : VoteRequest) : VoteResponse × RaftState :=
  if request.term < s.currentTerm then (⟨s.currentTerm, false⟩, s)
  else
    let s := s.raiseTerm request.term
    if (s.votedFor = none ∨ s.votedFor = some request.candidateId) ∧ s.LogOk request then
      (⟨request.term, true⟩, { s with votedFor := some request.candidateId })
    else (⟨s.currentTerm, false⟩, s)

def handleAppendEntries (s : RaftState) (request : AppendEntriesRequest) :
    AppendEntriesResponse × RaftState :=
  if request.term < s.currentTerm then (⟨s.currentTerm, false, none⟩, s)
  else
    (⟨request.term, true, some ((request.prevLogIndex + request.entries.length) % 2 ^ 64)⟩,
      { s with
        currentTerm := request.term, isLeader := false, currentLeader := some request.leaderId })

end RaftState

/-! ## Sequences of calls -/

/-- The node and the requests it has granted its vote to, its own in an election included. -/
structure Node where
  nodeId : String
  raft : RaftState
  granted : List VoteRequest

inductive Call where
  | startElection
  | voteRequest (request : VoteRequest)
  | appendEntries (request : AppendEntriesRequest)
  deriving DecidableEq

namespace Node

/-- The request of an election, which goes to the peers. -/
def ownRequest (node : Node) (raft : RaftState) : VoteRequest :=
  ⟨raft.currentTerm, node.nodeId, raft.getLastLogIndex, raft.getLastLogTerm⟩

def step (node : Node) : Call → Option Node
  | .startElection =>
    let raft := (node.raft.startElection node.nodeId).2
    some { node with raft := raft, granted := node.ownRequest raft :: node.granted }
  | .voteRequest request =>
    let (response, raft) := node.raft.handleVoteRequest request
    some { node with
      raft := raft
      granted := if response.voteGranted then request :: node.granted else node.granted }
  | .appendEntries request => some { node with raft := (node.raft.handleAppendEntries request).2 }

/-- An election does not start at the greatest term of a `u64`. -/
def TermLeft (node : Node) : Call → Prop
  | .startElection => node.raft.currentTerm + 1 < 2 ^ 64
  | .voteRequest _ | .appendEntries _ => True

instance (node : Node) (call) : Decidable (node.TermLeft call) := by
  unfold Node.TermLeft
  split <;> infer_instance

/-- What the calls do: the state stays or its vote is kept under a term that is not lower, or a vote
is granted, in a new term or to the candidate that has it. -/
inductive Move (node : Node) : Node → Prop
  | keep {raft : RaftState} (hlog : raft.logEntries = node.raft.logEntries)
      (hterm : node.raft.currentTerm ≤ raft.currentTerm)
      (hvote : raft.currentTerm = node.raft.currentTerm → raft.votedFor = node.raft.votedFor) :
      Move node { node with raft := raft }
  | grant {raft : RaftState} {request : VoteRequest}
      (hlog : raft.logEntries = node.raft.logEntries)
      (hterm : raft.currentTerm = request.term) (hvote : raft.votedFor = some request.candidateId)
      (hfree : node.raft.currentTerm < request.term ∨ node.raft.currentTerm = request.term ∧
        (node.raft.votedFor = none ∨ node.raft.votedFor = some request.candidateId))
      (hok : raft.LogOk request) :
      Move node { node with raft := raft, granted := request :: node.granted }

theorem step_cases {node node' : Node} {call : Call} (hleft : node.TermLeft call)
    (h : node.step call = some node') : Move node node' := by
  cases call with
  | startElection =>
    cases h
    have hterm : ((node.raft.startElection node.nodeId).2).currentTerm =
        node.raft.currentTerm + 1 := by
      rw [RaftState.startElection, apply_ite Prod.snd, apply_ite RaftState.currentTerm, ite_self]
      exact Nat.mod_eq_of_lt hleft
    have hvote : ((node.raft.startElection node.nodeId).2).votedFor = some node.nodeId := by
      rw [RaftState.startElection, apply_ite Prod.snd, apply_ite RaftState.votedFor, ite_self]
    have hlog : ((node.raft.startElection node.nodeId).2).logEntries = node.raft.logEntries := by
      rw [RaftState.startElection, apply_ite Prod.snd, apply_ite RaftState.logEntries, ite_self]
    exact .grant hlog rfl hvote (.inl (by rw [ownRequest, hterm]; exact Nat.lt_succ_self _))
      (.inr ⟨rfl, le_rfl⟩)
  | voteRequest request =>
    rw [step, RaftState.handleVoteRequest] at h
    by_cases hold : request.term < node.raft.currentTerm
    · rw [if_pos hold] at h
      cases h
      exact .keep rfl le_rfl fun _ => rfl
    · rw [if_neg hold] at h
      have hle := not_lt.mp hold
      have hraise : (node.raft.raiseTerm request.term).logEntries = node.raft.logEntries ∧
          (node.raft.raiseTerm request.term).currentTerm = request.term ∧
          (request.term = node.raft.currentTerm →
            (node.raft.raiseTerm request.term).votedFor = node.raft.votedFor) := by
        unfold RaftState.raiseTerm
        split
        · rename_i hlt
          exact ⟨rfl, rfl, fun heq => absurd heq (ne_of_gt hlt)⟩
        · rename_i hlt
          exact ⟨rfl, le_antisymm hle (not_lt.mp hlt), fun _ => rfl⟩
      obtain ⟨hlog, hterm, hkept⟩ := hraise
      simp only at h
      split at h
      · rename_i hcan
        cases h
        refine .grant hlog hterm rfl ?_ hcan.2
        rcases hle.lt_or_eq with hlt | heq
        · exact .inl hlt
        · exact .inr ⟨heq, hkept heq.symm ▸ hcan.1⟩
      · cases h
        exact .keep hlog (hle.trans hterm.ge) fun heq => hkept (hterm.symm.trans heq)
  | appendEntries request =>
    rw [step, RaftState.handleAppendEntries] at h
    split at h
    · cases h
      exact .keep rfl le_rfl fun _ => rfl
    · rename_i hold
      cases h
      exact .keep rfl (not_lt.mp hold) fun _ => rfl

/-! ## The votes -/

/-- The votes granted after `start`: each is backed by the vote of its term while that is the
current one. -/
structure VoteInv (start node : Node) : Prop where
  log : node.raft.logEntries = start.raft.logEntries
  term : start.raft.currentTerm ≤ node.raft.currentTerm
  backed : ∀ g ∈ node.granted, g.term ≤ node.raft.currentTerm ∧
    (g.term = node.raft.currentTerm → node.raft.votedFor = some g.candidateId)
  unique : ∀ g ∈ node.granted, ∀ g' ∈ node.granted, g.term = g'.term →
    g.candidateId = g'.candidateId
  logOk : ∀ g ∈ node.granted, start.raft.LogOk g

theorem logOk_congr {s s' : RaftState} (h : s'.logEntries = s.logEntries) (request : VoteRequest) :
    s'.LogOk request ↔ s.LogOk request := by
  unfold RaftState.LogOk RaftState.getLastLogTerm RaftState.getLastLogIndex
  rw [h]

theorem VoteInv.move {start node node' : Node} (h : VoteInv start node) (hmove : Move node node') :
    VoteInv start node' := by
  cases hmove with
  | keep hlog hterm hvote =>
    refine ⟨hlog.trans h.log, h.term.trans hterm, fun g hg => ?_, h.unique, h.logOk⟩
    obtain ⟨hle, hfor⟩ := h.backed g hg
    refine ⟨hle.trans hterm, fun heq => ?_⟩
    have hsame := le_antisymm (heq ▸ hle) hterm
    exact (hvote hsame).trans (hfor (heq.trans hsame))
  | @grant raft request hlog hterm hvote hfree hok =>
    have hle : node.raft.currentTerm ≤ request.term := hfree.elim le_of_lt fun hf => hf.1.le
    -- a vote of the same term has gone to the same candidate
    have hsame : ∀ g ∈ node.granted, g.term = request.term →
        g.candidateId = request.candidateId := by
      intro g hg heq
      obtain ⟨hgle, hfor⟩ := h.backed g hg
      rcases hfree with hlt | ⟨hcur, hnone | hfor'⟩
      · omega
      · exact nomatch hnone.symm.trans (hfor (heq.trans hcur.symm))
      · exact Option.some.inj ((hfor (heq.trans hcur.symm)).symm.trans hfor')
    refine ⟨hlog.trans h.log, hterm ▸ h.term.trans hle, fun g hg => ?_, fun g hg g' hg' heq => ?_,
      fun g hg => ?_⟩
    · rcases List.mem_cons.mp hg with rfl | hg
      · exact ⟨hterm.ge, fun _ => hvote⟩
      · refine ⟨hterm ▸ (h.backed g hg).1.trans hle, fun heq => ?_⟩
        rw [hvote, hsame g hg (heq.trans hterm)]
    · rcases List.mem_cons.mp hg with rfl | hin
      · rcases List.mem_cons.mp hg' with rfl | hin'
        · rfl
        · exact (hsame g' hin' heq.symm).symm
      · rcases List.mem_cons.mp hg' with rfl | hin'
        · exact hsame g hin heq
        · exact h.unique g hin g' hin' heq
    · rcases List.mem_cons.mp hg with rfl | hg
      · exact (logOk_congr (hlog.trans h.log) g).mp hok
      · exact h.logOk g hg

/-- **One vote per term**, from any state of the node: the term never goes down, two votes of one
term go to one candidate, and no vote goes to a candidate whose log is behind, as long as no
election starts at the greatest term. -/
theorem one_vote_per_term (nodeId : String) (raft : RaftState) (calls : List Call) (node : Node)
    (hleft : Along step TermLeft ⟨nodeId, raft, []⟩ calls)
    (hexec : exec step ⟨nodeId, raft, []⟩ calls = some node) :
    raft.currentTerm ≤ node.raft.currentTerm ∧
      (∀ g ∈ node.granted, ∀ g' ∈ node.granted, g.term = g'.term → g.candidateId = g'.candidateId) ∧
      ∀ g ∈ node.granted, node.raft.LogOk g := by
  have hinit : VoteInv ⟨nodeId, raft, []⟩ ⟨nodeId, raft, []⟩ :=
    ⟨rfl, le_rfl, fun _ hg => (nomatch hg), fun _ hg => (nomatch hg), fun _ hg => (nomatch hg)⟩
  have hinv := exec_invariant (I := VoteInv ⟨nodeId, raft, []⟩)
    (fun s call s' h hP hs => h.move (step_cases hP hs)) hinit hleft hexec
  exact ⟨hinv.term, hinv.unique, fun g hg => (logOk_congr hinv.log g).mpr (hinv.logOk g hg)⟩

/-- The node votes, a leader of the next term announces itself, and the node stands for election. -/
def quietTerms : List Call :=
  [.voteRequest ⟨1, "b", 0, 0⟩, .appendEntries ⟨2, "c", 0, []⟩, .startElection]

theorem one_vote_per_term_quietTerms :
    ∃ node, exec step ⟨"a", .new ["b", "c"], []⟩ quietTerms = some node ∧
      node.granted.map (fun g => (g.term, g.candidateId)) = [(3, "a"), (1, "b")] ∧
      ∀ g ∈ node.granted, ∀ g' ∈ node.granted, g.term = g'.term → g.candidateId = g'.candidateId :=
  ⟨_, rfl, rfl, (one_vote_per_term "a" (.new ["b", "c"]) quietTerms _ (by decide) rfl).2.1⟩

/-- A vote in term 0, a vote in the greatest term, and an election: the term is 0 again, and the
node has voted for two candidates in it. -/
theorem term_wraps : ∃ before after, exec step ⟨"a", .new [], []⟩
        [.voteRequest ⟨0, "b", 0, 0⟩, .voteRequest ⟨2 ^ 64 - 1, "c", 0, 0⟩] = some before ∧
      exec step before [.startElection] = some after ∧
      after.raft.currentTerm < before.raft.currentTerm ∧
      after.granted.map (fun g => (g.term, g.candidateId)) =
        [(0, "a"), (2 ^ 64 - 1, "c"), (0, "b")] :=
  ⟨_, _, rfl, rfl, by decide, rfl⟩

end Node
end RustMq.Controller.Election
