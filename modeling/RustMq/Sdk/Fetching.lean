import RustMq.Sdk.OffsetTracker

/-!
# What the SDK consumer delivers

The consumption loop (`run_consumption_loop`, `fetch_messages_for_partition` of
`sdk/rust/src/consumer.rs`) fetches a partition again and again. A fetch asks for the offset behind
the committed one, waits for the broker, adds what comes to the pending offsets and sends it to the
receiver. Acknowledgments are taken by another task, so they fall between any two of these steps,
also between the question and its answer.

The partition is a log of records numbered from 0. The broker answers with records of the log from
the offset it was asked for, in order, as many as it likes; an answer of none is also what a fetch
leaves that failed. There is neither a seek nor a negative acknowledgment here.
-/

namespace RustMq.Sdk

open Lib List

variable {M : Type} {log : List M} {m : M × Nat} {offset count : Nat}

/-- The consumer of one partition. `fetching` is the offset the loop has asked for, if it waits for
an answer, and `sent` is what the receiver was sent, with its offsets. -/
structure Consumer (M : Type) where
  tracker : OffsetTracker
  fetching : Option Nat
  sent : List (M × Nat)

inductive ConsumerLabel where
  | request
  | answer (count : Nat)
  | ack (offset : Nat)
  deriving DecidableEq

def brokerAnswer (log : List M) (offset count : Nat) : List (M × Nat) :=
  (log.zipIdx.drop offset).take count

namespace Consumer

def new : Consumer M := ⟨.new, none, []⟩

def step (log : List M) (partition : Nat) (c : Consumer M) : ConsumerLabel → Option (Consumer M)
  | .request =>
    match c.fetching with
    | some _ => none
    | none => some { c with fetching := some (c.tracker.getCommittedOffset partition + 1) }
  | .answer count =>
    match c.fetching with
    | none => none
    | some offset =>
      let messages := brokerAnswer log offset count
      some {
        tracker := c.tracker.perform (.fetched partition (messages.map Prod.snd))
        fetching := none
        sent := c.sent ++ messages }
  | .ack offset =>
    if offset ∈ c.sent.map Prod.snd then
      some { c with tracker := c.tracker.perform (.ack partition offset) }
    else none

/-- A fetch that brings something was asked for when the commit had reached all that was sent. -/
def InStep (log : List M) (c : Consumer M) : ConsumerLabel → Prop
  | .answer count =>
    ∀ offset, c.fetching = some offset → brokerAnswer log offset count ≠ [] →
      offset = c.sent.length + 1
  | _ => True

/-! ## The first record -/

/-- The loop asks for nothing below offset 1, so it sends nothing below it. -/
structure AboveZero (c : Consumer M) : Prop where
  fetching : ∀ offset, c.fetching = some offset → 0 < offset
  sent : ∀ m ∈ c.sent, 0 < m.2

end Consumer

theorem snd_of_getElem?_zipIdx {i : Nat} (h : log.zipIdx[i]? = some m) : m.2 = i := by
  rw [getElem?_zipIdx, Option.map_eq_some_iff] at h
  obtain ⟨a, -, rfl⟩ := h
  exact Nat.zero_add i

theorem le_of_mem_brokerAnswer (h : m ∈ brokerAnswer log offset count) : offset ≤ m.2 := by
  obtain ⟨i, hi⟩ := getElem?_of_mem (mem_of_mem_take h)
  rw [getElem?_drop] at hi
  rw [snd_of_getElem?_zipIdx hi]
  exact Nat.le_add_right offset i

theorem head?_brokerAnswer (h : brokerAnswer log offset count ≠ []) :
    (brokerAnswer log offset count)[0]? = log.zipIdx[offset]? := by
  unfold brokerAnswer at *
  cases count with
  | zero => exact absurd rfl h
  | succ count => rw [getElem?_take_of_lt (Nat.succ_pos count), getElem?_drop, Nat.add_zero]

namespace Consumer

/-! ### What each step does -/

section steps

variable {log : List M} {partition : Nat} {c c' : Consumer M}

theorem step_request (h : c.step log partition .request = some c') :
    c' = { c with fetching := some (c.tracker.getCommittedOffset partition + 1) } := by
  simp only [Consumer.step] at h
  split at h
  · cases h
  · cases h
    rfl

theorem step_answer (h : c.step log partition (.answer count) = some c') :
    ∃ offset, c.fetching = some offset ∧ c'.fetching = none ∧
      c'.sent = c.sent ++ brokerAnswer log offset count := by
  simp only [Consumer.step] at h
  split at h
  · cases h
  · next offset hfetching =>
    cases h
    exact ⟨offset, hfetching, rfl, rfl⟩

theorem step_ack (h : c.step log partition (.ack offset) = some c') :
    c' = { c with tracker := c.tracker.perform (.ack partition offset) } := by
  simp only [Consumer.step] at h
  split at h
  · cases h
    rfl
  · cases h

end steps

theorem aboveZero_new : (new : Consumer M).AboveZero where
  fetching _ h := by cases h
  sent _ h := by cases h

variable {partition : Nat} {c : Consumer M}

theorem AboveZero.step {c' : Consumer M} {label : ConsumerLabel} (h : c.AboveZero)
    (hstep : c.step log partition label = some c') : c'.AboveZero := by
  cases label with
  | request =>
    rw [step_request hstep]
    refine ⟨fun offset hoffset => ?_, h.sent⟩
    cases hoffset
    exact Nat.succ_pos _
  | answer count =>
    obtain ⟨offset, hfetching, hnone, hsent⟩ := step_answer hstep
    constructor
    · intro next hnext
      rw [hnone] at hnext
      cases hnext
    · intro m hm
      rw [hsent] at hm
      rcases mem_append.mp hm with hm | hm
      · exact h.sent m hm
      · exact (h.fetching offset hfetching).trans_le (le_of_mem_brokerAnswer hm)
  | ack offset =>
    rw [step_ack hstep]
    exact ⟨h.fetching, h.sent⟩

theorem AboveZero.prefix_iff (h : c.AboveZero) : c.sent <+: log.zipIdx ↔ c.sent = [] := by
  constructor
  · intro hfront
    cases hsent : c.sent with
    | nil => rfl
    | cons m rest =>
      rw [hsent] at hfront
      have hfirst : log.zipIdx[0]? = some m :=
        (prefix_iff_getElem?.mp hfront 0 (Nat.succ_pos _)).trans rfl
      have hpos := h.sent m (hsent ▸ mem_cons_self)
      rw [snd_of_getElem?_zipIdx hfirst] at hpos
      exact absurd hpos (Nat.lt_irrefl 0)
  · intro hnil
    rw [hnil]
    exact nil_prefix

/-! ## The rest of the log -/

def FollowsLog (log : List M) (c : Consumer M) : Prop :=
  c.sent <+: log.zipIdx.drop 1

theorem append_answer_prefix_iff {sent : List (M × Nat)} :
    sent ++ brokerAnswer log offset count <+: log.zipIdx.drop 1 ↔ sent <+: log.zipIdx.drop 1 ∧
        (brokerAnswer log offset count ≠ [] → offset = sent.length + 1) := by
  constructor
  · intro h
    refine ⟨(prefix_append _ _).trans h, fun hne => ?_⟩
    -- the record behind those sent is the first of the answer
    have hlen : sent.length < (sent ++ brokerAnswer log offset count).length := by
      rw [length_append]
      exact Nat.lt_add_of_pos_right (length_pos_iff.mpr hne)
    have hnext := prefix_iff_getElem?.mp h sent.length hlen
    rw [getElem?_drop] at hnext
    have hfirst := (head?_brokerAnswer hne).symm
    rw [getElem?_eq_getElem (length_pos_iff.mpr hne)] at hfirst
    rw [getElem_append_right (Nat.le_refl _)] at hnext
    simp only [Nat.sub_self] at hnext
    have hoffset := snd_of_getElem?_zipIdx hfirst
    rw [← hoffset, snd_of_getElem?_zipIdx hnext, Nat.add_comm]
  · rintro ⟨hfront, hoffset⟩
    by_cases hne : brokerAnswer log offset count = []
    · rwa [hne, append_nil]
    · have hsent := prefix_iff_eq_take.mp hfront
      have hanswer : brokerAnswer log offset count =
          ((log.zipIdx.drop 1).drop sent.length).take count := by
        rw [hoffset hne, drop_drop, Nat.add_comm 1, brokerAnswer]
      rw [hanswer]
      nth_rewrite 1 [hsent]
      rw [← take_add]
      exact take_prefix _ _

theorem followsLog_step_iff (c : Consumer M) (label : ConsumerLabel) (c' : Consumer M)
    (hstep : c.step log partition label = some c') :
    c'.FollowsLog log ↔ c.FollowsLog log ∧ c.InStep log label := by
  cases label with
  | request =>
    rw [step_request hstep]
    exact (and_iff_left trivial).symm
  | answer count =>
    obtain ⟨offset, hfetching, -, hsent⟩ := step_answer hstep
    have hin : c.InStep log (.answer count) ↔
        (brokerAnswer log offset count ≠ [] → offset = c.sent.length + 1) := by
      simp only [InStep, hfetching, Option.some.injEq, forall_eq']
    rw [FollowsLog, hsent, hin]
    exact append_answer_prefix_iff
  | ack offset =>
    rw [step_ack hstep]
    exact (and_iff_left trivial).symm

/-- **What the receiver is sent** is never the log from offset 0 on, and the log from offset 1 on
exactly when each fetch waits for the commits. -/
theorem sent_in_order_iff (log : List M) (partition : Nat) (labels : List ConsumerLabel)
    (c : Consumer M) (hexec : exec (step log partition) new labels = some c) :
    (c.sent <+: log.zipIdx ↔ c.sent = []) ∧
      (c.sent <+: log.zipIdx.drop 1 ↔ Along (step log partition) (InStep log) new labels) := by
  have habove : c.AboveZero :=
    exec_invariant_of_step (fun _ _ _ h hs => h.step hs) aboveZero_new hexec
  have hfollows : (new : Consumer M).FollowsLog log := nil_prefix
  have hiff : c.FollowsLog log ↔ _ := exec_iff_along followsLog_step_iff hexec
  exact ⟨habove.prefix_iff, hiff.trans (and_iff_right hfollows)⟩

def acknowledgedAtOnce : List ConsumerLabel :=
  [.request, .answer 1, .ack 1, .request, .answer 2, .ack 3, .ack 2, .request, .answer 1]

theorem sent_in_order_iff_acknowledgedAtOnce :
    ∃ c, exec (step ["a", "b", "c", "d"] 0) new acknowledgedAtOnce = some c ∧
      c.sent = [("b", 1), ("c", 2), ("d", 3)] ∧ ¬ c.sent <+: ["a", "b", "c", "d"].zipIdx ∧
      Along (step ["a", "b", "c", "d"] 0) (InStep ["a", "b", "c", "d"]) new acknowledgedAtOnce := by
  obtain ⟨c, hexec, hsent⟩ := Option.map_eq_some_iff.mp (show
    (exec (step ["a", "b", "c", "d"] 0) new acknowledgedAtOnce).map Consumer.sent =
      some [("b", 1), ("c", 2), ("d", 3)] by decide +kernel)
  have h := sent_in_order_iff ["a", "b", "c", "d"] 0 acknowledgedAtOnce c hexec
  rw [hsent] at h
  refine ⟨c, hexec, hsent, ?_, h.2.mp (by decide +kernel)⟩
  rw [hsent, h.1]
  exact cons_ne_nil _ _

/-- The first fetch of a new consumer asks for offset 1, and so does the next one as long as record
1 is not acknowledged. -/
theorem first_record_skipped :
    ((exec (step ["a", "b"] 0) new [.request, .answer 2]).map Consumer.sent = some [("b", 1)]) ∧
      (exec (step ["a", "b"] 0) new [.request, .answer 2, .request, .answer 2]).map
        Consumer.sent = some [("b", 1), ("b", 1)] := by
  decide +kernel

end Consumer

end RustMq.Sdk
