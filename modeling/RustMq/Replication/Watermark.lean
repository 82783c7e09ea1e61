import RustMq.Replication.Manager

/-!
# The watermark only rises

The high watermark is stored after a comparison that is not atomic with the store, and, without
followers, without any comparison. So it can fall when two calls overlap there, and it can pass the
log end offset when a follower reports an offset the leader never had. `WatermarkAlone` and
`KnownOffsets` exclude exactly these.
-/

namespace RustMq.Replication

open Lib Store

/-! ## Conditions on a run -/

def Phase.active : Phase → Bool
  | .done _ => false
  | .append | .storeLogEnd | .shortcut | .acks _ _ | .recalculate | .load _ | .store _ => true

variable {cfg : ManagerConfig} {c : ReplicateCall} {event : CallEvent} {phase : Phase}
  {st : FollowerState} {broker : BrokerId}

theorem CallMove.active {m m' : Manager} (h : CallMove cfg m c event m' phase) :
    c.phase.active = true := by
  cases h with
  | _ hphase => rw [hphase]; rfl

def Phase.isStore : Phase → Bool
  | .store _ => true
  | .append | .storeLogEnd | .shortcut | .acks _ _ | .recalculate | .load _ | .done _ => false

def IncreasingOffsets (m : Manager) : ManagerLabel → Prop
  | .replicateRecord _ record => m.issued ≤ record.offset
  | _ => True

/-- No call loads the watermark while another is about to store it, and without followers there
is one call at a time. -/
def WatermarkAlone (cfg : ManagerConfig) (m : Manager) : ManagerLabel → Prop
  | .replicateRecord _ _ =>
    cfg.followers = [] → ∀ id c, m.calls id = some c → c.phase.active = false
  | .call id .advance =>
    ∀ c new, m.calls id = some c → c.phase = .load new →
      ∀ id' c', id' ≠ id → m.calls id' = some c' → c'.phase.isStore = false
  | _ => True

/-- A follower reports no offset beyond the highest log end offset so far. -/
def KnownOffsets (m : Manager) : ManagerLabel → Prop
  | .call _ (.answer _ (some (some state))) => state.lastKnownOffset ≤ m.peak
  | .updateFollowerState state => state.lastKnownOffset ≤ m.peak
  | _ => True

/-! ## The invariant -/

def CallOk (cfg : ManagerConfig) (highWatermark peak : Nat) (c : ReplicateCall) : Prop :=
  match c.phase with
  | .append | .storeLogEnd => cfg.followers = [] → highWatermark ≤ c.record.offset
  | .shortcut => cfg.followers = [] ∧ highWatermark ≤ c.record.offset ∧ c.record.offset < peak
  | .acks _ _ | .recalculate => cfg.followers ≠ []
  | .load new => cfg.followers ≠ [] ∧ new ≤ peak
  | .store new => cfg.followers ≠ [] ∧ new ≤ peak ∧ highWatermark < new
  | .done _ => True

def Exclusive (cfg : ManagerConfig) (p p' : Phase) : Prop :=
  (p.isStore = true → p'.isStore = false) ∧
    (cfg.followers = [] → p.active = true → p'.active = false)

structure WatermarkInv (cfg : ManagerConfig) (m : Manager) : Prop where
  states_le : ∀ state ∈ followerValues m.followerStates, state.lastKnownOffset ≤ m.peak
  logEnd_le : m.logEndOffset ≤ m.peak
  highWatermark_le : m.highWatermark ≤ m.peak
  highWatermark_issued : cfg.followers = [] → m.highWatermark ≤ m.issued
  offset_lt : ∀ id c, m.calls id = some c → c.record.offset < m.issued
  calls : ∀ id c, m.calls id = some c → CallOk cfg m.highWatermark m.peak c
  exclusive : ∀ id id' c c', id ≠ id' → m.calls id = some c → m.calls id' = some c' →
    Exclusive cfg c.phase c'.phase

theorem CallOk.mono {hw peak peak' : Nat} (h : CallOk cfg hw peak c) (hle : peak ≤ peak') :
    CallOk cfg hw peak' c := by
  unfold CallOk at h ⊢
  cases hphase : c.phase with
  | append | storeLogEnd | acks | recalculate => rw [hphase] at h; exact h
  | shortcut => rw [hphase] at h; exact ⟨h.1, h.2.1, lt_of_lt_of_le h.2.2 hle⟩
  | load new => rw [hphase] at h; exact ⟨h.1, h.2.trans hle⟩
  | store new => rw [hphase] at h; exact ⟨h.1, h.2.1.trans hle, h.2.2⟩
  | done result => trivial

variable {states : FollowerStates}

theorem mem_followerValues :
    st ∈ followerValues states ↔ ∃ broker, states.lookup broker = some st := by
  unfold followerValues
  rw [List.mem_map]
  constructor
  · rintro ⟨⟨broker, st⟩, hmem, rfl⟩
    exact ⟨broker, AList.mem_lookup_iff.mpr hmem⟩
  · rintro ⟨broker, hlook⟩
    exact ⟨⟨broker, st⟩, AList.mem_lookup_iff.mp hlook, rfl⟩

theorem mem_followerValues_insert {state : FollowerState}
    (h : st ∈ followerValues (states.insert broker state)) :
    st = state ∨ st ∈ followerValues states := by
  obtain ⟨b, hb⟩ := mem_followerValues.mp h
  by_cases hsame : b = broker
  · rw [hsame, AList.lookup_insert, Option.some.injEq] at hb
    exact .inl hb.symm
  · rw [AList.lookup_insert_ne hsame] at hb
    exact .inr (mem_followerValues.mpr ⟨b, hb⟩)

theorem mem_followerValues_erase (h : st ∈ followerValues (states.erase broker)) :
    st ∈ followerValues states := by
  obtain ⟨b, hb⟩ := mem_followerValues.mp h
  by_cases hsame : b = broker
  · rw [hsame, AList.lookup_erase] at hb
    cases hb
  · rw [AList.lookup_erase_ne hsame] at hb
    exact mem_followerValues.mpr ⟨b, hb⟩

theorem countP_le_eq (offsets : List Nat) (h : Nat) :
    offsets.countP (h ≤ ·) + offsets.countP (· < h) = offsets.length := by
  rw [List.length_eq_countP_add_countP (h ≤ ·), Nat.add_left_cancel_iff]
  exact List.countP_congr fun x _ => by simp

theorem le_countP_findKthSmallest {offsets : List Nat} {n : Nat} (hn : 0 < n)
    (hlen : n ≤ offsets.length) :
    n ≤ offsets.countP (findKthSmallest offsets (offsets.length - n + 1) ≤ ·) := by
  have hbelow : offsets.countP (· < findKthSmallest offsets (offsets.length - n + 1)) <
      offsets.length - n + 1 := countP_lt_findKthSmallest (by omega) (by omega)
  have := countP_le_eq offsets (findKthSmallest offsets (offsets.length - n + 1))
  omega

theorem newHighWatermark_le {logEndOffset bound new : Nat} {fresh : BrokerId → Bool}
    (hlogEnd : logEndOffset ≤ bound)
    (hstates : ∀ state ∈ followerValues states, state.lastKnownOffset ≤ bound)
    (h : newHighWatermark cfg logEndOffset fresh states = some new) : new ≤ bound := by
  unfold newHighWatermark at h
  simp only at h
  split at h
  · cases h
    refine findKthSmallest_le fun x hx => ?_
    rcases List.mem_cons.mp hx with rfl | hx
    · exact hlogEnd
    · obtain ⟨state, hstate, rfl⟩ := List.mem_map.mp hx
      exact hstates state (List.mem_filter.mp hstate).1
  · cases h

namespace WatermarkInv

variable {cfg : ManagerConfig} {m m' : Manager} {id : Nat} {c : ReplicateCall}

theorem new : WatermarkInv cfg .new where
  states_le _ h := nomatch h
  logEnd_le := le_rfl
  highWatermark_le := le_rfl
  highWatermark_issued _ := le_rfl
  offset_lt _ _ h := nomatch h
  calls _ _ h := nomatch h
  exclusive _ _ _ _ _ h := nomatch h

variable (h : WatermarkInv cfg m)
include h

theorem setCall (hcalls : m'.calls = m.calls)
    (hstates : ∀ state ∈ followerValues m'.followerStates, state.lastKnownOffset ≤ m'.peak)
    (hlogEnd : m'.logEndOffset ≤ m'.peak) (hhw : m'.highWatermark ≤ m'.peak)
    (hissued : cfg.followers = [] → m'.highWatermark ≤ m'.issued) (hmono : m.issued ≤ m'.issued)
    (hoffset : c.record.offset < m'.issued) (hself : CallOk cfg m'.highWatermark m'.peak c)
    (hother : ∀ id' c', id' ≠ id → m.calls id' = some c' →
      CallOk cfg m'.highWatermark m'.peak c' ∧ Exclusive cfg c.phase c'.phase) :
    WatermarkInv cfg (m'.setCall id c) := by
  have hsymm : ∀ p p' : Phase, Exclusive cfg p p' → Exclusive cfg p' p := by
    intro p p' ⟨hs, ha⟩
    refine ⟨fun hp' => ?_, fun hf hp' => ?_⟩
    · by_contra hp
      rw [hs (by simpa using hp)] at hp'
      cases hp'
    · by_contra hp
      rw [ha hf (by simpa using hp)] at hp'
      cases hp'
  refine ⟨hstates, hlogEnd, hhw, hissued, ?_, ?_, ?_⟩
  · intro id' c' hc'
    rcases Manager.of_calls_setCall hcalls hc' with ⟨-, rfl⟩ | ⟨-, hc'⟩
    · exact hoffset
    · exact lt_of_lt_of_le (h.offset_lt id' c' hc') hmono
  · intro id' c' hc'
    rcases Manager.of_calls_setCall hcalls hc' with ⟨-, rfl⟩ | ⟨hne, hc'⟩
    · exact hself
    · exact (hother id' c' hne hc').1
  · intro i j ci cj hne hi hj
    rcases Manager.of_calls_setCall hcalls hi with ⟨rfl, rfl⟩ | ⟨hni, hi'⟩
    · rcases Manager.of_calls_setCall hcalls hj with ⟨rfl, -⟩ | ⟨hnj, hj⟩
      · exact absurd rfl hne
      · exact (hother j cj hnj hj).2
    · rcases Manager.of_calls_setCall hcalls hj with ⟨-, rfl⟩ | ⟨-, hj⟩
      · exact hsymm _ _ (hother i ci hni hi').2
      · exact h.exclusive i j ci cj hne hi' hj

theorem move (hcall : m.calls id = some c) (hactive : c.phase.active = true)
    (hcalls : m'.calls = m.calls) (hhw : m'.highWatermark = m.highWatermark)
    (hissued : m'.issued = m.issued) (hpeak : m.peak ≤ m'.peak)
    (hlogEnd : m'.logEndOffset ≤ m'.peak)
    (hstates : ∀ state ∈ followerValues m'.followerStates, state.lastKnownOffset ≤ m'.peak)
    (hself : CallOk cfg m.highWatermark m'.peak { c with phase := phase })
    (hstore : phase.isStore = true → ∀ id' c', id' ≠ id → m.calls id' = some c' →
      c'.phase.isStore = false) : WatermarkInv cfg (m'.setCall id { c with phase := phase }) := by
  refine h.setCall hcalls hstates hlogEnd ?_ ?_ hissued.ge ?_ ?_ ?_
  · rw [hhw]
    exact h.highWatermark_le.trans hpeak
  · rw [hhw, hissued]
    exact h.highWatermark_issued
  · rw [hissued]
    exact h.offset_lt id c hcall
  · rw [hhw]
    exact hself
  · intro id' c' hne hc'
    rw [hhw]
    refine ⟨(h.calls id' c' hc').mono hpeak, fun hs => hstore hs id' c' hne hc', fun hf _ => ?_⟩
    exact (h.exclusive id id' c c' (Ne.symm hne) hcall hc').2 hf hactive

theorem storeWatermark (hcall : m.calls id = some c) {value : Nat} (hvalue : value ≤ m.peak)
    (hissued : cfg.followers = [] → value ≤ m.issued)
    (hother : ∀ id' c', id' ≠ id → m.calls id' = some c' → CallOk cfg value m.peak c')
    (result : Except RustMqError DurabilityLevel) :
    WatermarkInv cfg (Manager.setCall { m with highWatermark := value } id
      { c with phase := .done result }) := by
  refine h.setCall rfl h.states_le h.logEnd_le hvalue hissued le_rfl (h.offset_lt id c hcall)
    trivial ?_
  intro id' c' hne hc'
  have hexcl : Exclusive cfg (.done result) c'.phase :=
    ⟨fun hs => (nomatch hs), fun _ ha => (nomatch ha)⟩
  exact ⟨hother id' c' hne hc', hexcl⟩

theorem call (hcall : m.calls id = some c) (hmove : CallMove cfg m c event m' phase)
    (halone : WatermarkAlone cfg m (.call id event)) (hknown : KnownOffsets m (.call id event)) :
    WatermarkInv cfg (m'.setCall id { c with phase := phase }) ∧
      m.highWatermark ≤ m'.highWatermark := by
  have hok := h.calls id c hcall
  unfold CallOk at hok
  -- what an answer leads to needs followers and nothing else
  have hafter : ∀ pending successful acked, cfg.followers ≠ [] → CallOk cfg m.highWatermark m.peak
        { c with phase := afterAnswer cfg pending successful acked } ∧
      (afterAnswer cfg pending successful acked).isStore = false := by
    intro pending successful acked hf
    unfold afterAnswer
    split
    · exact ⟨hf, rfl⟩
    · split
      · exact ⟨hf, rfl⟩
      · split
        · exact ⟨hf, rfl⟩
        · exact ⟨trivial, rfl⟩
  -- a move of the call alone
  have hactive := hmove.active
  have hstay : ∀ {phase : Phase}, CallOk cfg m.highWatermark m.peak { c with phase := phase } →
      (phase.isStore = true → ∀ id' c', id' ≠ id → m.calls id' = some c' →
        c'.phase.isStore = false) →
      WatermarkInv cfg (m.setCall id { c with phase := phase }) ∧
        m.highWatermark ≤ m.highWatermark := fun hself hstore =>
    ⟨h.move hcall hactive rfl rfl rfl le_rfl h.logEnd_le h.states_le hself hstore, le_rfl⟩
  cases hmove with
  | appended hphase =>
    rw [hphase] at hok
    exact hstay hok fun hs => nomatch hs
  | storeLogEnd hphase =>
    rw [hphase] at hok
    refine ⟨h.move hcall hactive rfl rfl rfl (le_max_left _ _) (le_max_right _ _) ?_ ?_ ?_, le_rfl⟩
    · intro state hstate
      exact le_max_of_le_left (h.states_le state hstate)
    · by_cases hf : cfg.followers = []
      · rw [if_pos hf]
        exact ⟨hf, hok hf, lt_of_lt_of_le (Nat.lt_succ_self _) (le_max_right _ _)⟩
      · rw [if_neg hf]
        exact hf
    · intro hs
      split at hs
      · cases hs
      · cases hs
  | shortcut hphase =>
    rw [hphase] at hok
    obtain ⟨hf, hle, hlt⟩ := hok
    refine ⟨h.storeWatermark hcall hlt.le (fun _ => (h.offset_lt id c hcall).le) ?_ _, hle⟩
    intro id' c' hne hc'
    -- without followers every other call has returned
    have hdone := (h.exclusive id id' c c' (Ne.symm hne) hcall hc').2 hf hactive
    unfold CallOk
    cases hp : c'.phase with
    | done result => trivial
    | _ => rw [hp] at hdone; cases hdone
  | acked hphase hbroker =>
    rw [hphase] at hok
    refine ⟨h.move hcall hactive rfl rfl rfl le_rfl h.logEnd_le ?_
      (hafter _ _ _ hok).1 ?_, le_rfl⟩
    · intro state hstate
      rcases mem_followerValues_insert hstate with rfl | hstate
      · exact hknown
      · exact h.states_le state hstate
    · rw [(hafter _ _ _ hok).2]
      exact fun hs => nomatch hs
  | ackedBare hphase hbroker | refused hphase hbroker =>
    rw [hphase] at hok
    refine hstay (hafter _ _ _ hok).1 ?_
    rw [(hafter _ _ _ hok).2]
    exact fun hs => nomatch hs
  | computed hphase hnew =>
    rw [hphase] at hok
    refine hstay ⟨hok, ?_⟩ fun hs => nomatch hs
    exact newHighWatermark_le h.logEnd_le h.states_le hnew
  | loaded hphase hlt =>
    rw [hphase] at hok
    exact hstay ⟨hok.1, hok.2, hlt⟩ fun _ => halone c _ hcall hphase
  | appendFailed | tooFew | notHigher => exact hstay trivial fun hs => nomatch hs
  | stored hphase =>
    rw [hphase] at hok
    obtain ⟨hf, hle, hlt⟩ := hok
    refine ⟨h.storeWatermark hcall hle (fun hnil => absurd hnil hf) ?_ _, hlt.le⟩
    intro id' c' hne hc'
    have hnot := (h.exclusive id id' c c' (Ne.symm hne) hcall hc').1 (by rw [hphase]; rfl)
    have hok' := h.calls id' c' hc'
    unfold CallOk at hok' ⊢
    cases hp : c'.phase with
    | store new => rw [hp] at hnot; cases hnot
    | append | storeLogEnd => exact fun hnil => absurd hnil hf
    | shortcut => rw [hp] at hok'; exact absurd hok'.1 hf
    | acks | recalculate => exact hf
    | load new => rw [hp] at hok'; exact hok'
    | done result => trivial

theorem of_states (hstates : ∀ state ∈ followerValues states, state.lastKnownOffset ≤ m.peak) :
    WatermarkInv cfg { m with followerStates := states } ∧ m.highWatermark ≤ m.highWatermark :=
  ⟨{ h with states_le := hstates }, le_rfl⟩

theorem step {label : ManagerLabel} (hincreasing : IncreasingOffsets m label)
    (halone : WatermarkAlone cfg m label) (hknown : KnownOffsets m label)
    (hstep : m.step cfg label = some m') :
    WatermarkInv cfg m' ∧ m.highWatermark ≤ m'.highWatermark := by
  cases Manager.step_cases hstep with
  | replicateRecord hfree =>
    rename_i id record
    have hoffset : m.issued ≤ record.offset := hincreasing
    have hset := @setCall cfg m { m with issued := max m.issued (record.offset + 1) } id
      ⟨record, .append⟩ h rfl h.states_le h.logEnd_le h.highWatermark_le
    refine ⟨hset ?_ (le_max_left _ _) ?_ ?_ ?_, le_rfl⟩
    · exact fun hf => le_max_of_le_left (h.highWatermark_issued hf)
    · exact lt_of_lt_of_le (Nat.lt_succ_self _) (le_max_right _ _)
    · exact fun hf => (h.highWatermark_issued hf).trans hoffset
    · intro id' c' hne hc'
      exact ⟨h.calls id' c' hc', fun hs => (nomatch hs), fun hf _ => halone hf id' c' hc'⟩
  | call hcall hmove => exact h.call hcall hmove halone hknown
  | updateFollowerState =>
    refine h.of_states fun state hstate => ?_
    rcases mem_followerValues_insert hstate with rfl | hstate
    · exact hknown
    · exact h.states_le state hstate
  | addFollower =>
    refine h.of_states fun state hstate => ?_
    rcases mem_followerValues_insert hstate with rfl | hstate
    · exact Nat.zero_le _
    · exact h.states_le state hstate
  | removeFollower =>
    exact h.of_states fun state hstate => h.states_le state (mem_followerValues_erase hstate)

end WatermarkInv

/-! ## Over a run -/

def WatermarkSafe (cfg : ManagerConfig) (m : Manager) (label : ManagerLabel) : Prop :=
  IncreasingOffsets m label ∧ WatermarkAlone cfg m label ∧ KnownOffsets m label

def pairConfig : ManagerConfig := ⟨some "broker-1", ["broker-1", "broker-2"], 2, 100⟩

def plainRecord (offset : Nat) : WalRecord := ⟨⟨"orders", 0⟩, offset, ⟨none, [1], [], 0⟩, 0⟩

def oneRecord : List ManagerLabel :=
  [.replicateRecord 0 (plainRecord 0), .call 0 .appended, .call 0 .advance,
    .call 0 (.answer "broker-2" (some (some ⟨"broker-2", 1, 0⟩))), .call 0 (.compute fun _ => true),
    .call 0 .advance, .call 0 .advance]

theorem oneRecord_safe :
    Along (Manager.step pairConfig) (WatermarkSafe pairConfig) .new oneRecord := by
  have halone : ∀ (m : Manager) (event : CallEvent), (∀ id, id ≠ 0 → m.calls id = none) →
      WatermarkAlone pairConfig m (.call 0 event) := by
    intro m event hnone
    cases event with
    | advance =>
      intro c new _ _ id' c' hne hc'
      rw [hnone id' hne] at hc'
      cases hc'
    | _ => trivial
  refine along_cons ⟨Nat.zero_le 0, fun hf => absurd hf (by decide), trivial⟩ rfl <|
    along_cons ⟨trivial, halone _ _ ?_, trivial⟩ rfl <|
    along_cons ⟨trivial, halone _ _ ?_, trivial⟩ rfl <|
    along_cons ⟨trivial, halone _ _ ?_, le_rfl⟩ rfl <|
    along_cons ⟨trivial, halone _ _ ?_, trivial⟩ rfl <|
    along_cons ⟨trivial, halone _ _ ?_, trivial⟩ rfl <|
    along_cons ⟨trivial, halone _ _ ?_, trivial⟩ rfl trivial
  all_goals
    intro id hid
    simp [Manager.setCall, Manager.updateFollowerState, Manager.new, hid]

instance (m : Manager) (label) : Decidable (IncreasingOffsets m label) := by
  unfold IncreasingOffsets
  split <;> infer_instance

/-- Two overlapping calls without followers: the earlier offset is stored last. -/
def overlapping : List ManagerLabel :=
  [.replicateRecord 0 (plainRecord 0), .replicateRecord 1 (plainRecord 1), .call 0 .appended,
    .call 0 .advance, .call 1 .appended, .call 1 .advance, .call 1 .advance]

end RustMq.Replication
