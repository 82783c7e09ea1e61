import RustMq.Security.Authorization

/-!
# Invalidation of the authorization caches

`invalidate_principal` and `invalidate_resource_cache` drop the entries of the broker-wide cache
that belong to a principal, or to a topic. Followed here is one check that starts afterwards, on a
connection whose cache is empty: who decides it, and how. The negative filter cannot forget a single
key, and `invalidate_all_caches` alone makes a new one.
-/

namespace RustMq.Security

open Lib Function Option

variable {phase : Phase}

namespace Phase

def asked : Phase → List (Waiters × Bool)
  | .fetching _ asked => asked
  | _ => []

def ended : Phase → Bool
  | .returned _ _ => true
  | .failed => true
  | _ => false

def asking : Phase → Bool
  | .connection | .negative | .shard | .enqueue | .trigger | .acquired | .release | .waiting => true
  | .fetching _ _ => true
  | _ => false

def Settled (d : Bool) : Phase → Prop
  | .received allowed source => allowed = d ∧ source = .manager
  | .updateL2 allowed source => allowed = d ∧ source = .manager
  | .updateNegative allowed source => allowed = d ∧ source = .manager
  | .returned allowed source => allowed = d ∧ source = .manager
  | .failed => True
  | _ => False

theorem not_settled_of_asking {d : Bool} (h : phase.asking = true) : ¬ phase.Settled d := by
  intro hsettled
  cases phase with
  | received | updateL2 | updateNegative | returned | failed => cases h
  | _ => exact hsettled

end Phase

namespace AuthState

variable {cfg : AuthConfig} {s s' : AuthState}

/-! ## What a step of a check changes -/

/-- A step of the check `i`: caches change at its own key, other checks can get an answer of its
batch, and its batch gets answers of the ACL manager. -/
structure Progress (s s' : AuthState) (i : Nat) (c : Check) : Prop where
  running : c.phase.ended = false
  decide : s'.decide = s.decide
  l1 : ∀ connection key, key ≠ c.key → s'.l1Caches connection key = s.l1Caches connection key
  l2 : ∀ key, key ≠ c.key → s'.l2Cache key = s.l2Cache key
  others : ∀ j c', j ≠ i → s'.checks j = some c' → ∃ c₀, s.checks j = some c₀ ∧ (c' = c₀ ∨
    ∃ r ∈ c.phase.asked, j ∈ r.1.2 ∧ c' = { c₀ with answer := some (r.2, .manager) })
  self : ∀ c', s'.checks i = some c' → c'.key = c.key ∧ c'.connection = c.connection ∧
    ∀ r ∈ c'.phase.asked, r ∈ c.phase.asked ∨ r.2 = s.decide r.1.1
  kept : ∀ j, s'.checks j = none → s.checks j = none

theorem checks_setPhase_eq_none {id j : Nat} (h : (s.setPhase id phase).checks j = none) :
    s.checks j = none := by
  simp only [setPhase] at h
  split at h
  · exact map_eq_none_iff.mp h
  · exact h

variable {i connection : Nat} {c : Check} {connection' : Nat} {key key' : AclKey}

theorem Progress.of_setPhase {s₁ : AuthState} (hc : s.checks i = some c)
    (hrunning : c.phase.ended = false) (hchecks : s₁.checks = s.checks)
    (hdecide : s₁.decide = s.decide) (hl1 : ∀ connection key, key ≠ c.key →
      s₁.l1Caches connection key = s.l1Caches connection key)
    (hl2 : ∀ key, key ≠ c.key → s₁.l2Cache key = s.l2Cache key)
    (hasked : ∀ r ∈ phase.asked, r ∈ c.phase.asked ∨ r.2 = s.decide r.1.1) :
    Progress s (s₁.setPhase i phase) i c := by
  refine ⟨hrunning, hdecide, hl1, hl2, ?_, ?_, ?_⟩
  · intro j c' hj hc'
    obtain ⟨c₀, hc₀, rfl⟩ := checks_setPhase_eq_some hc'
    rw [hchecks] at hc₀
    exact ⟨c₀, hc₀, .inl (by rw [if_neg hj])⟩
  · intro c' hc'
    obtain ⟨c₀, hc₀, rfl⟩ := checks_setPhase_eq_some hc'
    rw [hchecks, hc] at hc₀
    cases hc₀
    simp only [if_true]
    exact ⟨trivial, trivial, hasked⟩
  · intro j hj
    rw [← hchecks]
    exact checks_setPhase_eq_none hj

theorem Progress.of_send {asked : List (Waiters × Bool)} (hc : s.checks i = some c)
    (hphase : c.phase = .fetching [] asked) :
    Progress s ((s.send .manager asked).setPhase i .release) i c := by
  refine ⟨by rw [hphase]; rfl, rfl, fun _ _ _ => rfl, fun _ _ => rfl, ?_, ?_, ?_⟩
  · intro j c' hj hc'
    obtain ⟨c₁, hc₁, rfl⟩ := checks_setPhase_eq_some hc'
    obtain ⟨c₀, hc₀, hsent⟩ := checks_send_eq_some hc₁
    refine ⟨c₀, hc₀, ?_⟩
    rw [hphase]
    simp only [if_neg hj]
    exact hsent
  · intro c' hc'
    obtain ⟨c₁, hc₁, rfl⟩ := checks_setPhase_eq_some hc'
    obtain ⟨c₀, hc₀, hsent⟩ := checks_send_eq_some hc₁
    rw [hc] at hc₀
    cases hc₀
    obtain rfl | ⟨r, -, -, rfl⟩ := hsent
    · simp [Phase.asked]
    · simp [Phase.asked]
  · intro j hj
    exact map_eq_none_iff.mp (checks_setPhase_eq_none hj)

theorem l1Caches_putL1_of_ne (hkey : key' ≠ key) (allowed : Bool) :
    (s.putL1 connection key allowed).l1Caches connection' key' = s.l1Caches connection' key' := by
  simp only [putL1, update_apply]
  split
  · rename_i hconnection
    rw [hconnection, update_of_ne hkey]
  · rfl

theorem l2Cache_putL2_of_ne (hkey : key' ≠ key) (allowed : Bool) :
    (s.putL2 cfg key allowed).l2Cache key' = s.l2Cache key' := by
  simp only [putL2, update_of_ne hkey]

theorem putNegative_caches (cfg : AuthConfig) (s : AuthState) (key : AclKey) (allowed : Bool) :
    (s.putNegative cfg key allowed).decide = s.decide ∧
      (s.putNegative cfg key allowed).l1Caches = s.l1Caches ∧
      (s.putNegative cfg key allowed).l2Cache = s.l2Cache := by
  rw [putNegative]
  split
  · exact ⟨rfl, rfl, rfl⟩
  · exact ⟨rfl, rfl, rfl⟩

theorem advance_running (hstep : s.advance cfg i c = some s') : c.phase.ended = false := by
  obtain ⟨connection', key', phase, answer⟩ := c
  cases phase with
  | returned | failed =>
    cases hstep
  | _ => rfl

theorem advance_progress (hc : s.checks i = some c) (hstep : s.advance cfg i c = some s') :
    Progress s s' i c := by
  have hrunning := advance_running hstep
  have hnone : ∀ r ∈ ([] : List (Waiters × Bool)), r ∈ c.phase.asked ∨ r.2 = s.decide r.1.1 := by
    simp
  -- most steps leave the caches alone
  have hmove : ∀ (s₁ : AuthState) (phase : Phase), s₁.checks = s.checks → s₁.decide = s.decide →
      s₁.l1Caches = s.l1Caches → s₁.l2Cache = s.l2Cache → phase.asked = [] →
      Progress s (s₁.setPhase i phase) i c := by
    intro s₁ phase hchecks hdecide hl1 hl2 hasked
    refine .of_setPhase hc hrunning hchecks hdecide ?_ ?_ ?_
    · intro connection key _
      rw [hl1]
    · intro key _
      rw [hl2]
    · rw [hasked]
      exact hnone
  obtain ⟨connection', key', phase, answer⟩ := c
  cases phase with
  | connection | negative | trigger =>
    simp only [AuthState.advance] at hstep
    split at hstep <;> cases hstep
    · exact hmove _ _ rfl rfl rfl rfl rfl
    · exact hmove _ _ rfl rfl rfl rfl rfl
  | shard =>
    simp only [AuthState.advance] at hstep
    split at hstep <;> cases hstep
    · refine hmove _ _ rfl rfl rfl rfl ?_
      split
      · rfl
      · rfl
    · exact hmove _ _ rfl rfl rfl rfl rfl
  | hit allowed =>
    cases hstep
    exact .of_setPhase hc hrunning rfl rfl
      (fun _ _ hkey => l1Caches_putL1_of_ne hkey allowed) (fun _ _ => rfl) hnone
  | expired =>
    cases hstep
    exact .of_setPhase hc hrunning rfl rfl (fun _ _ _ => rfl)
      (fun _ hkey => update_of_ne hkey none s.l2Cache) hnone
  | enqueue =>
    cases hstep
    refine hmove _ _ rfl rfl rfl rfl ?_
    split
    · rfl
    · rfl
  | acquired | release =>
    cases hstep
    exact hmove _ _ rfl rfl rfl rfl rfl
  | fetching todo asked =>
    cases todo with
    | nil =>
      cases hstep
      exact .of_send hc rfl
    | cons w todo =>
      cases hstep
      refine .of_setPhase hc hrunning rfl rfl (fun _ _ _ => rfl) (fun _ _ => rfl) ?_
      intro r hr
      rcases List.mem_cons.mp hr with rfl | hr
      · exact .inr rfl
      · exact .inl hr
  | waiting =>
    simp only [AuthState.advance] at hstep
    split at hstep <;> cases hstep
    exact hmove _ _ rfl rfl rfl rfl rfl
  | received allowed source =>
    cases hstep
    exact .of_setPhase hc hrunning rfl rfl
      (fun _ _ hkey => l1Caches_putL1_of_ne hkey allowed) (fun _ _ => rfl) hnone
  | updateL2 allowed source =>
    cases hstep
    exact .of_setPhase hc hrunning rfl rfl (fun _ _ _ => rfl)
      (fun _ hkey => l2Cache_putL2_of_ne hkey allowed) hnone
  | updateNegative allowed source =>
    cases hstep
    obtain ⟨hdecide, hl1, hl2⟩ := putNegative_caches cfg s key' allowed
    exact hmove _ _ (checks_putNegative cfg s key' allowed) hdecide hl1 hl2 rfl
  | returned | failed =>
    cases hstep

/-! ## One check after an invalidation -/

section watched

variable {id : Nat} {d : Bool}

def Unwritten (s : AuthState) (connection : Nat) (key : AclKey) : Prop :=
  s.l1Caches connection key = none ∧ s.l2Cache key = none

/-- The check that is followed: it still asks, with nothing in the caches, or has the decision of
the ACL manager. -/
structure Own (key : AclKey) (connection : Nat) (d : Bool) (s : AuthState) (c : Check) : Prop where
  key_eq : c.key = key
  connection_eq : c.connection = connection
  answer : ∀ answer ∈ c.answer, answer = (d, Source.manager)
  phase : c.phase.Settled d ∨ (c.phase.asking = true ∧ s.Unwritten connection key)

/-- The check `id` is the only one for `key`. -/
structure Watched (key : AclKey) (connection id : Nat) (d : Bool) (s : AuthState) : Prop where
  wired : Faithful (fun _ _ => True) s
  decide : s.decide key = d
  others : ∀ i c, i ≠ id → s.checks i = some c → c.key = key → c.phase.ended = true
  fetched : ∀ i c, s.checks i = some c → ∀ r ∈ c.phase.asked, id ∈ r.1.2 → r.2 = d
  absent : s.checks id = none → s.Unwritten connection key
  own : ∀ c, s.checks id = some c → Own key connection d s c

/-- No other check of the key starts, the negative filter does not report it, the background
processor does not take the check, and the rules stay. -/
def Alone (cfg : AuthConfig) (key : AclKey) (connection id : Nat) (s : AuthState) : Label → Prop
  | .begin i connection' key' =>
    if i = id then connection' = connection ∧ key' = key else key' ≠ key
  | .advance i => i = id → ∀ c ∈ s.checks i, c.phase = .negative →
      (cfg.negativeCacheEnabled && s.negativeHas cfg c.key) = false
  | .process => s.processor = .acquired → ∀ w ∈ s.pending, id ∉ w.2
  | .rules _ => False
  | _ => True

instance (cfg : AuthConfig) (key : AclKey) (connection id : Nat) (s : AuthState) (label) :
    Decidable (Alone cfg key connection id s label) := by
  induction label using Label.casesOn <;> dsimp only [Alone] <;> infer_instance

theorem sanctioned_trivial (label : Label) : Sanctioned (fun _ _ => True) cfg s label := by
  cases label with
  | advance id =>
    intro c hc hphase hfound
    trivial
  | process =>
    intro hacquired w hw
    trivial
  | rules decide =>
    intro key
    trivial
  | _ => trivial

theorem PhaseFaithful.routed {truth : AclKey → Bool → Prop} (h : PhaseFaithful truth s key phase)
    {r : Waiters × Bool} (hr : r ∈ phase.asked) : Routed s r.1 := by
  cases phase with
  | fetching todo asked => exact (h.2 r hr).1
  | _ => cases hr

variable {c' : Check}

section

variable (h : Own key connection d s c)
include h

theorem Own.of_unwritten (hcaches : s.Unwritten connection key → s'.Unwritten connection key) :
    Own key connection d s' c := by
  refine { h with phase := ?_ }
  rcases h.phase with hsettled | ⟨hasking, hunwritten⟩
  · exact .inl hsettled
  · exact .inr ⟨hasking, hcaches hunwritten⟩

theorem Own.unwritten (hasking : c.phase.asking = true) : s.Unwritten connection key := by
  rcases h.phase with hsettled | ⟨-, hunwritten⟩
  · exact (Phase.not_settled_of_asking hasking hsettled).elim
  · exact hunwritten

theorem Own.settled (hasking : c.phase.asking = false) : c.phase.Settled d := by
  rcases h.phase with hsettled | ⟨hasking', -⟩
  · exact hsettled
  · rw [hasking] at hasking'
    cases hasking'

theorem Own.answered : Own key connection d s { c with answer := some (d, .manager) } := by
  refine ⟨h.key_eq, h.connection_eq, ?_, h.phase⟩
  intro answer hanswer
  exact (some.inj hanswer).symm

theorem Own.move {phase : Phase}
    (hphase : phase.Settled d ∨ (phase.asking = true ∧ s.Unwritten connection key)) :
    Own key connection d s { c with phase := phase } :=
  { h with phase := hphase }

end

theorem Watched.frame (h : Watched key connection id d s)
    (hwired : Faithful (fun _ _ => True) s') (hdecide : s'.decide = s.decide)
    (habsent : s'.checks id = none → s'.Unwritten connection key)
    (hothers : ∀ i c', i ≠ id → s'.checks i = some c' → c'.key = key → c'.phase.ended = true)
    (hasked : ∀ i c', s'.checks i = some c' → ∀ r ∈ c'.phase.asked,
      (∃ c, s.checks i = some c ∧ r ∈ c.phase.asked) ∨ r.2 = s.decide r.1.1)
    (hown : ∀ c', s'.checks id = some c' → Own key connection d s' c') :
    Watched key connection id d s' := by
  refine ⟨hwired, ?_, hothers, ?_, habsent, hown⟩
  · rw [hdecide]
    exact h.decide
  · intro i c' hc' r hr hid
    rcases hasked i c' hc' r hr with ⟨c, hc, hr⟩ | hmanager
    · exact h.fetched i c hc r hr hid
    · -- whoever waits for a key has asked for it, so the key is the one of the check
      have hkeyOf := (hwired.phase i c' hc').routed hr id hid
      obtain ⟨c₁, hc₁, hkey⟩ := map_eq_some_iff.mp hkeyOf
      rw [hmanager, ← hkey, (hown c₁ hc₁).key_eq]
      exact h.decide

theorem Progress.asked (h : Progress s s' i c) (hc : s.checks i = some c) (j : Nat) (c' : Check)
    (hc' : s'.checks j = some c') :
    ∀ r ∈ c'.phase.asked, (∃ c, s.checks j = some c ∧ r ∈ c.phase.asked) ∨
      r.2 = s.decide r.1.1 := by
  intro r hr
  by_cases hj : j = i
  · subst hj
    exact ((h.self c' hc').2.2 r hr).imp (fun hr => ⟨c, hc, hr⟩) fun hr => hr
  · obtain ⟨c₀, hc₀, rfl | ⟨r', -, -, rfl⟩⟩ := h.others j c' hj hc'
    · exact .inl ⟨c', hc₀, hr⟩
    · exact .inl ⟨c₀, hc₀, hr⟩

section

variable (h : Watched key connection id d s)
include h

theorem Watched.progress_ended (hprogress : Progress s s' i c) {j : Nat} (hji : j ≠ i) (hj : j ≠ id)
    (hc' : s'.checks j = some c') (hkey : c'.key = key) : c'.phase.ended = true := by
  obtain ⟨c₀, hc₀, rfl | ⟨r, -, -, rfl⟩⟩ := hprogress.others j c' hji hc'
  · exact h.others j c' hj hc₀ hkey
  · exact h.others j c₀ hj hc₀ hkey

theorem Watched.advance_of_ne (hwired : Faithful (fun _ _ => True) s') (hi : i ≠ id)
    (hc : s.checks i = some c) (hprogress : Progress s s' i c) :
    Watched key connection id d s' := by
  have hkey : key ≠ c.key := by
    intro hkey
    have hended := h.others i c hi hc hkey.symm
    rw [hprogress.running] at hended
    cases hended
  have hcaches : s.Unwritten connection key → s'.Unwritten connection key := by
    intro hunwritten
    rw [Unwritten, hprogress.l1 connection key hkey, hprogress.l2 key hkey]
    exact hunwritten
  refine h.frame hwired hprogress.decide ?_ ?_ (hprogress.asked hc) ?_
  · intro hnone
    exact hcaches (h.absent (hprogress.kept id hnone))
  · intro j c' hj hc' hkey'
    by_cases hji : j = i
    · subst hji
      exact absurd (hkey'.symm.trans (hprogress.self c' hc').1) hkey
    · exact h.progress_ended hprogress hji hj hc' hkey'
  · intro c' hc'
    obtain ⟨c₀, hc₀, hsent⟩ := hprogress.others id c' (Ne.symm hi) hc'
    have hOwn := (h.own c₀ hc₀).of_unwritten hcaches
    obtain rfl | ⟨r, hr, hid, rfl⟩ := hsent
    · exact hOwn
    · rw [h.fetched i c hc r hr hid]
      exact hOwn.answered

theorem Watched.own_advance (hc : s.checks id = some c) (hnegative : c.phase = .negative →
      (cfg.negativeCacheEnabled && s.negativeHas cfg c.key) = false)
    (hstep : s.advance cfg id c = some s') (hc' : s'.checks id = some c') :
    Own key connection d s' c' := by
  have hOwn := h.own c hc
  have hmove : ∀ (s₁ : AuthState) (phase : Phase), some (s₁.setPhase id phase) = some s' →
      s₁.checks = s.checks →
      (phase.Settled d ∨ (phase.asking = true ∧ s₁.Unwritten connection key)) →
      Own key connection d s' c' := by
    intro s₁ phase hs' hchecks hnext
    cases hs'
    obtain ⟨c₀, hc₀, rfl⟩ := checks_setPhase_eq_some hc'
    rw [hchecks, hc] at hc₀
    cases hc₀
    simp only [if_true]
    exact { hOwn with phase := hnext }
  obtain ⟨connection', key', phase, answer⟩ := c
  obtain ⟨rfl, rfl, -⟩ := h.own _ hc
  cases phase with
  | connection =>
    have hunwritten := hOwn.unwritten rfl
    simp only [AuthState.advance, hunwritten.1] at hstep
    exact hmove _ _ hstep rfl (.inr ⟨rfl, hunwritten⟩)
  | negative =>
    have hunwritten := hOwn.unwritten rfl
    simp only [AuthState.advance, hnegative rfl] at hstep
    exact hmove _ _ hstep rfl (.inr ⟨rfl, hunwritten⟩)
  | shard =>
    have hunwritten := hOwn.unwritten rfl
    simp only [AuthState.advance, hunwritten.2] at hstep
    exact hmove _ _ hstep rfl (.inr ⟨rfl, hunwritten⟩)
  | hit | expired =>
    have hsettled := hOwn.settled rfl
    exact hsettled.elim
  | enqueue =>
    refine hmove _ _ hstep rfl (.inr ⟨?_, hOwn.unwritten rfl⟩)
    split
    · rfl
    · rfl
  | trigger =>
    simp only [AuthState.advance] at hstep
    split at hstep
    · exact hmove _ _ hstep rfl (.inr ⟨rfl, hOwn.unwritten rfl⟩)
    · exact hmove _ _ hstep rfl (.inr ⟨rfl, hOwn.unwritten rfl⟩)
  | acquired | release =>
    exact hmove _ _ hstep rfl (.inr ⟨rfl, hOwn.unwritten rfl⟩)
  | fetching todo asked =>
    have hunwritten := hOwn.unwritten rfl
    cases todo with
    | nil =>
      -- its own batch can hold the answer for itself
      cases hstep
      obtain ⟨c₁, hc₁, rfl⟩ := checks_setPhase_eq_some hc'
      obtain ⟨c₀, hc₀, hsent⟩ := checks_send_eq_some hc₁
      rw [hc] at hc₀
      cases hc₀
      simp only [if_true]
      refine Own.move ?_ (.inr ⟨rfl, hunwritten⟩)
      obtain rfl | ⟨r, hr, hid, rfl⟩ := hsent
      · exact hOwn.of_unwritten fun hcaches => hcaches
      · rw [h.fetched id _ hc r hr hid]
        exact hOwn.answered.of_unwritten fun hcaches => hcaches
    | cons w todo =>
      exact hmove _ _ hstep rfl (.inr ⟨rfl, hunwritten⟩)
  | waiting =>
    cases answer with
    | none => cases hstep
    | some received =>
      cases hOwn.answer _ rfl
      exact hmove _ _ hstep rfl (.inl ⟨rfl, rfl⟩)
  | received | updateL2 =>
    have hsettled := hOwn.settled rfl
    exact hmove _ _ hstep rfl (.inl hsettled)
  | updateNegative allowed source =>
    have hsettled := hOwn.settled rfl
    exact hmove _ _ hstep (checks_putNegative cfg s key' allowed) (.inl hsettled)
  | returned | failed =>
    cases hstep

theorem Watched.advance (hwired : Faithful (fun _ _ => True) s')
    (halone : i = id → ∀ c ∈ s.checks i, c.phase = .negative →
      (cfg.negativeCacheEnabled && s.negativeHas cfg c.key) = false) (hc : s.checks i = some c)
    (hstep : s.advance cfg i c = some s') : Watched key connection id d s' := by
  have hprogress := advance_progress hc hstep
  by_cases hi : i = id
  · subst hi
    refine h.frame hwired hprogress.decide ?_ ?_ (hprogress.asked hc) ?_
    · intro hnone
      rw [hprogress.kept i hnone] at hc
      cases hc
    · intro j c' hj hc' hkey
      exact h.progress_ended hprogress hj hj hc' hkey
    · intro c' hc'
      exact h.own_advance hc (halone rfl c hc) hstep hc'
  · exact h.advance_of_ne hwired hi hc hprogress

theorem Watched.of_checks (hwired : Faithful (fun _ _ => True) s') (hdecide : s'.decide = s.decide)
    (hcaches : s.Unwritten connection key → s'.Unwritten connection key)
    (hkept : s'.checks id = none → s.checks id = none)
    (hchecks : ∀ j c', s'.checks j = some c' → ∃ c, s.checks j = some c ∧
      c'.key = c.key ∧ c'.phase = c.phase ∧ (j = id → c' = c)) :
    Watched key connection id d s' := by
  refine h.frame hwired hdecide ?_ ?_ ?_ ?_
  · intro hnone
    exact hcaches (h.absent (hkept hnone))
  · intro j c' hj hc' hkey'
    obtain ⟨c, hc, hkey, hphase, -⟩ := hchecks j c' hc'
    rw [hphase]
    exact h.others j c hj hc (hkey.symm.trans hkey')
  · intro j c' hc' r hr
    obtain ⟨c, hc, -, hphase, -⟩ := hchecks j c' hc'
    exact .inl ⟨c, hc, hphase ▸ hr⟩
  · intro c' hc'
    obtain ⟨c, hc, -, -, heq⟩ := hchecks id c' hc'
    rw [heq rfl]
    exact (h.own c hc).of_unwritten hcaches

theorem Watched.of_caches (hwired : Faithful (fun _ _ => True) s') (hdecide : s'.decide = s.decide)
    (hchecks : s'.checks = s.checks)
    (hcaches : s.Unwritten connection key → s'.Unwritten connection key) :
    Watched key connection id d s' := by
  refine h.of_checks hwired hdecide hcaches (fun hnone => hchecks ▸ hnone) ?_
  intro j c' hc'
  rw [hchecks] at hc'
  exact ⟨c', hc', rfl, rfl, fun _ => rfl⟩

theorem Watched.process (hwired : Faithful (fun _ _ => True) s.process)
    (halone : s.processor = .acquired → ∀ w ∈ s.pending, id ∉ w.2) :
    Watched key connection id d s.process := by
  rw [AuthState.process] at hwired ⊢
  cases hp : s.processor with
  | idle =>
    simp only [hp] at hwired ⊢
    split
    · exact h
    · exact h.of_caches (by simpa [*] using hwired) rfl rfl fun hcaches => hcaches
  | due =>
    simp only [hp] at hwired ⊢
    split
    · exact h.of_caches (by simpa [*] using hwired) rfl rfl fun hcaches => hcaches
    · exact h.of_caches (by simpa [*] using hwired) rfl rfl fun hcaches => hcaches
  | acquired =>
    simp only [hp] at hwired ⊢
    refine h.of_checks hwired rfl (fun hcaches => hcaches) ?_ ?_
    · intro hnone
      exact map_eq_none_iff.mp hnone
    · intro j c' hc'
      obtain ⟨c, hc, rfl | ⟨r, hr, hj, rfl⟩⟩ := checks_send_eq_some hc'
      · exact ⟨c', hc, rfl, rfl, fun _ => rfl⟩
      · refine ⟨c, hc, rfl, rfl, ?_⟩
        intro hid
        subst hid
        obtain ⟨w, hw, rfl⟩ := List.mem_map.mp hr
        exact absurd hj (halone hp w hw)
  | release =>
    simp only [hp] at hwired ⊢
    exact h.of_caches hwired rfl rfl fun hcaches => hcaches

theorem Watched.begin (hwired : Faithful (fun _ _ => True) (s.begin i connection' key'))
    (hnew : s.checks i = none)
    (halone : if i = id then connection' = connection ∧ key' = key else key' ≠ key) :
    Watched key connection id d (s.begin i connection' key') := by
  refine h.frame hwired rfl ?_ ?_ ?_ ?_
  · intro hnone
    simp only [AuthState.begin, update_apply] at hnone
    split at hnone
    · cases hnone
    · exact h.absent hnone
  · intro j c' hj hc' hkey
    rcases of_update_eq_some hc' with ⟨rfl, rfl⟩ | ⟨-, hc⟩
    · rw [if_neg hj] at halone
      exact absurd hkey halone
    · exact h.others j c' hj hc hkey
  · intro j c' hc' r hr
    rcases of_update_eq_some hc' with ⟨rfl, rfl⟩ | ⟨-, hc⟩
    · cases hr
    · exact .inl ⟨c', hc, hr⟩
  · intro c' hc'
    rcases of_update_eq_some hc' with ⟨rfl, rfl⟩ | ⟨-, hc⟩
    · rw [if_pos rfl] at halone
      exact ⟨halone.2, halone.1, fun _ hanswer => (not_mem_none _ hanswer).elim,
        .inr ⟨rfl, h.absent hnew⟩⟩
    · exact (h.own c' hc).of_unwritten fun hcaches => hcaches

theorem Watched.timeout (hwired : Faithful (fun _ _ => True) (s.setPhase i .failed)) :
    Watched key connection id d (s.setPhase i .failed) := by
  refine h.frame hwired rfl ?_ ?_ ?_ ?_
  · intro hnone
    exact h.absent (checks_setPhase_eq_none hnone)
  · intro j c' hj hc' hkey
    obtain ⟨c₀, hc₀, rfl⟩ := checks_setPhase_eq_some hc'
    simp only
    split
    · rfl
    · exact h.others j c₀ hj hc₀ hkey
  · intro j c' hc' r hr
    obtain ⟨c₀, hc₀, rfl⟩ := checks_setPhase_eq_some hc'
    simp only at hr
    split at hr
    · cases hr
    · exact .inl ⟨c₀, hc₀, hr⟩
  · intro c' hc'
    obtain ⟨c₀, hc₀, rfl⟩ := checks_setPhase_eq_some hc'
    have hOwn : Own key connection d (s.setPhase i .failed) c₀ :=
      (h.own c₀ hc₀).of_unwritten fun hcaches => hcaches
    split
    · exact hOwn.move (.inl trivial)
    · exact hOwn

end

theorem Unwritten.retain (h : s.Unwritten connection key)
    (keep : AclKey → AclCacheEntry → Bool) : (s.retain keep).Unwritten connection key := by
  refine ⟨h.1, ?_⟩
  simp only [AuthState.retain, h.2, filter_none]

theorem Watched.step {label : Label} (h : Watched key connection id d s)
    (halone : Alone cfg key connection id s label) (hstep : AuthState.step cfg s label = some s') :
    Watched key connection id d s' := by
  have hwired : Faithful (fun _ _ => True) s' := h.wired.step (sanctioned_trivial label) hstep
  cases label with
  | begin i connection' key' =>
    simp only [AuthState.step] at hstep
    split at hstep
    · cases hstep
    · rename_i hnew
      cases hstep
      exact h.begin hwired hnew halone
  | advance i =>
    obtain ⟨c, hc, hadvance⟩ := bind_eq_some_iff.mp hstep
    exact h.advance hwired halone hc hadvance
  | timeout i =>
    obtain ⟨c, hc, htimeout⟩ := bind_eq_some_iff.mp hstep
    split at htimeout
    · cases htimeout
      exact h.timeout hwired
    · cases htimeout
  | process =>
    cases hstep
    exact h.process hwired halone
  | evict connection' key' =>
    cases hstep
    refine h.of_caches hwired rfl rfl ?_
    intro hcaches
    refine ⟨?_, hcaches.2⟩
    simp only [update_apply]
    split
    · rename_i hconnection
      subst hconnection
      rw [update_apply]
      split
      · rfl
      · exact hcaches.1
    · exact hcaches.1
  | cleanup | invalidatePrincipal | invalidateResourceCache =>
    cases hstep
    exact h.of_caches hwired rfl rfl fun hcaches => hcaches.retain _
  | clock now =>
    simp only [AuthState.step] at hstep
    split at hstep
    · cases hstep
      exact h.of_caches hwired rfl rfl fun hcaches => hcaches
    · cases hstep
  | rules decide => exact halone.elim
  | invalidateAllCaches =>
    cases hstep
    rw [invalidateAllCaches] at hwired ⊢
    split at hwired
    · rename_i henabled
      rw [if_pos henabled]
      exact h.of_caches hwired rfl rfl fun hcaches => hcaches.retain fun _ _ => false
    · rename_i henabled
      rw [if_neg henabled]
      exact h.of_caches hwired rfl rfl fun hcaches => hcaches.retain fun _ _ => false

end watched

/-! ## Invalidation -/

inductive Target where
  | principal (name : String)
  | resource (name : String)
  deriving DecidableEq

def Target.covers : Target → AclKey → Bool
  | .principal name, key => key.principal = name
  | .resource name, key => key.topic = name

def invalidate (s : AuthState) : Target → AuthState
  | .principal name => s.invalidatePrincipal name
  | .resource name => s.invalidateResourceCache name

theorem invalidate_eq_retain (s : AuthState) (target : Target) :
    s.invalidate target = s.retain fun key _ => !target.covers key := by
  cases target with
  | principal name => simp [invalidate, invalidatePrincipal, Target.covers]
  | resource name => simp [invalidate, invalidateResourceCache, Target.covers]

def Quiet (s : AuthState) (key : AclKey) : Prop :=
  ∀ i c, s.checks i = some c → c.key = key → c.phase.ended = true

theorem wired_of_exec {d : AclKey → Bool} {labels : List Label}
    (hexec : exec (step cfg) (start d) labels = some s) : Faithful (fun _ _ => True) s :=
  exec_invariant_of_step (fun _ l _ h hstep => h.step (sanctioned_trivial l) hstep)
    (faithful_start fun _ => trivial) hexec

theorem watched_invalidate {target : Target} {id : Nat} (hwired : Faithful (fun _ _ => True) s)
    (hcovers : target.covers key = true) (hquiet : s.Quiet key) (hnew : s.checks id = none)
    (hfresh : s.l1Caches connection key = none) :
    Watched key connection id (s.decide key) (s.invalidate target) := by
  rw [invalidate_eq_retain]
  have hwired' := hwired.retain fun key _ => !target.covers key
  refine ⟨hwired', rfl, ?_, ?_, ?_, ?_⟩
  · intro i c hi hc hkey
    exact hquiet i c hc hkey
  · intro i c hc r hr hid
    have hkeyOf := (hwired.phase i c hc).routed hr id hid
    rw [keyOf, hnew] at hkeyOf
    cases hkeyOf
  · intro hnone
    refine ⟨hfresh, ?_⟩
    simp [retain, hcovers]
  · intro c hc
    exact absurd (hnew.symm.trans hc) (some_ne_none c).symm

/-- After an invalidation that covers the key, a check on a new connection is decided by the ACL
manager. -/
theorem decided_by_manager {d : AclKey → Bool} {history labels : List Label} {t : AuthState}
    {target : Target} {key : AclKey} {connection id : Nat} {c : Check} {allowed : Bool}
    {source : Source} (hhistory : exec (step cfg) (start d) history = some s)
    (hcovers : target.covers key = true) (hquiet : s.Quiet key) (hnew : s.checks id = none)
    (hfresh : s.l1Caches connection key = none)
    (halone : Along (step cfg) (Alone cfg key connection id) (s.invalidate target) labels)
    (hexec : exec (step cfg) (s.invalidate target) labels = some t)
    (hc : t.checks id = some c) (hreturned : c.phase = .returned allowed source) :
    source = .manager ∧ allowed = s.decide key := by
  have hstart : Watched key connection id (s.decide key) (s.invalidate target) :=
    watched_invalidate (wired_of_exec hhistory) hcovers hquiet hnew hfresh
  have hwatched : Watched key connection id (s.decide key) t :=
    exec_invariant (fun _ _ _ h hP hstep => h.step hP hstep) hstart halone hexec
  have hsettled := (hwatched.own c hc).settled (by rw [hreturned]; rfl)
  rw [hreturned] at hsettled
  exact ⟨hsettled.2, hsettled.1⟩

def oneKey : AuthConfig where
  cacheTtlSeconds := 300
  batchFetchSize := 1
  negativeCacheEnabled := true
  positions _ key := [key.topic.length % 8]

def asks (id connection : Nat) (key : AclKey) : List Label :=
  .begin id connection key :: List.replicate 13 (.advance id)

def revoked : List Label :=
  asks 0 0 ⟨"alice", "orders", .read⟩ ++ [.rules fun _ => false]

def afterRevoked : AuthState :=
  (exec (step oneKey) (start fun _ => true) revoked).getD (start fun _ => true)

def afterRevokedCheck : AuthState :=
  (exec (step oneKey) (afterRevoked.invalidate (.principal "alice"))
    (asks 1 1 ⟨"alice", "orders", .read⟩)).getD afterRevoked

theorem decided_by_manager_revoked :
    (afterRevoked.l2Cache ⟨"alice", "orders", .read⟩).map AclCacheEntry.allowed = some true ∧
      (afterRevokedCheck.checks 1).map Check.phase = some (.returned false .manager) ∧
      (Source.manager = Source.manager ∧
        false = afterRevoked.decide ⟨"alice", "orders", .read⟩) := by
  have hhistory : exec (step oneKey) (start fun _ => true) revoked = some afterRevoked := rfl
  have hcovers : (Target.principal "alice").covers ⟨"alice", "orders", .read⟩ = true := rfl
  have hquiet : afterRevoked.Quiet ⟨"alice", "orders", .read⟩ := by
    intro i c hc _
    cases i with
    | zero =>
      cases hc
      rfl
    | succ i => cases hc
  have halone : Along (step oneKey) (Alone oneKey ⟨"alice", "orders", .read⟩ 1 1)
      (afterRevoked.invalidate (.principal "alice")) (asks 1 1 ⟨"alice", "orders", .read⟩) := by
    decide +kernel
  have hexec : exec (step oneKey) (afterRevoked.invalidate (.principal "alice"))
      (asks 1 1 ⟨"alice", "orders", .read⟩) = some afterRevokedCheck := rfl
  have hc : afterRevokedCheck.checks 1 = some ⟨1, ⟨"alice", "orders", .read⟩,
      .returned false .manager, some (false, .manager)⟩ := by
    decide +kernel
  exact ⟨by decide +kernel, by decide +kernel,
    decided_by_manager hhistory hcovers hquiet rfl rfl halone hexec hc rfl⟩

def granted : List Label :=
  asks 0 0 ⟨"alice", "orders", .read⟩ ++
    [.rules fun _ => true, .invalidatePrincipal "alice",
      .begin 1 1 ⟨"alice", "orders", .read⟩, .advance 1, .advance 1]

/-- The negative filter still has the key. -/
theorem granted_permission_refused :
    ((exec (step oneKey) (start fun _ => false) granted).map fun s =>
      s.decide ⟨"alice", "orders", .read⟩) = some true ∧
    ((exec (step oneKey) (start fun _ => false) granted).bind fun s => s.checks 1) =
      some ⟨1, ⟨"alice", "orders", .read⟩, .returned false .negative, none⟩ := by
  decide +kernel

end AuthState
end RustMq.Security
