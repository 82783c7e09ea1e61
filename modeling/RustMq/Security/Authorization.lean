import RustMq.Lib.Runs

/-!
# Permission checks of the authorization manager

`AuthorizationManager::check_permission` (`src/security/auth/authorization.rs`) asks the cache of
the connection, the negative filter, the broker-wide cache, and then the `BatchedAclFetcher`. A
check that gets that far puts a sender into `pending_requests`. Two parties drain that map:
`trigger_batch_fetch`, called by the check that finds the batch full, which asks the ACL manager for
every key; and the background processor, which answers `false`.

The 32 shards of the broker-wide cache are one map here: the shard of a key is a function of the
key. The negative filter is the list of the keys set since it was made; a key is found in it if all
its bit positions are set. The ACL manager is a function from keys to decisions.
-/

namespace RustMq.Security

open Lib List Function Option

/-! ## State -/

inductive AuthPermission where
  | read | write | admin
  deriving DecidableEq

structure AclKey where
  principal : String
  topic : String
  permission : AuthPermission
  deriving DecidableEq

structure AclCacheEntry where
  allowed : Bool
  expiresAt : Nat
  deriving DecidableEq

inductive Source where
  | connection | negative | shard | manager | processor
  deriving DecidableEq

abbrev Waiters := AclKey × List Nat

inductive Phase where
  /-- About to look into the cache of the connection. -/
  | connection
  | negative
  | shard
  /-- Found in the broker-wide cache, not yet written to the cache of the connection. -/
  | hit (allowed : Bool)
  /-- Found in the broker-wide cache, but too old; not yet removed. -/
  | expired
  /-- About to enter `pending_requests`. -/
  | enqueue
  /-- Has found the batch full. -/
  | trigger
  /-- Has a permit to fetch. -/
  | acquired
  /-- Holds a batch: what is still to be asked, and what the manager has answered. -/
  | fetching (todo : List Waiters) (asked : List (Waiters × Bool))
  /-- Has sent the answers, and still holds the permit. -/
  | release
  | waiting
  /-- Has a result; the three caches are written one after the other. -/
  | received (allowed : Bool) (source : Source)
  | updateL2 (allowed : Bool) (source : Source)
  | updateNegative (allowed : Bool) (source : Source)
  | returned (allowed : Bool) (source : Source)
  /-- Timed out, or cancelled. -/
  | failed
  deriving DecidableEq

/-- A call of `check_permission`; `answer` is what was sent on its channel. -/
structure Check where
  connection : Nat
  key : AclKey
  phase : Phase
  answer : Option (Bool × Source)
  deriving DecidableEq

/-- Where the background processor is: waiting for the interval, about to ask for a permit, about to
take the batch, about to give the permit back. -/
inductive Processor where
  | idle | due | acquired | release
  deriving DecidableEq

/-- The part of the configuration the checks read, and the bit positions of a key in the `n`-th
negative filter: every filter is made with its own seeds. -/
structure AuthConfig where
  cacheTtlSeconds : Nat
  batchFetchSize : Nat
  negativeCacheEnabled : Bool
  positions : Nat → AclKey → List Nat

structure AuthState where
  checks : Nat → Option Check
  l1Caches : Nat → AclKey → Option Bool
  l2Cache : AclKey → Option AclCacheEntry
  negativeCache : List AclKey
  /-- How many negative filters there were before this one. -/
  filters : Nat
  pending : List Waiters
  permits : Nat
  processor : Processor
  decide : AclKey → Bool
  now : Nat

namespace AuthState

def start (decide : AclKey → Bool) : AuthState where
  checks _ := none
  l1Caches _ _ := none
  l2Cache _ := none
  negativeCache := []
  filters := 0
  pending := []
  permits := 10
  processor := .idle
  decide := decide
  now := 0

section

variable (cfg : AuthConfig) (s : AuthState)

def begin (id connection : Nat) (key : AclKey) : AuthState :=
  { s with checks := Function.update s.checks id (some ⟨connection, key, .connection, none⟩) }

def setPhase (id : Nat) (phase : Phase) : AuthState :=
  { s with checks := fun i =>
      if i = id then (s.checks i).map fun c => { c with phase := phase } else s.checks i }

def send (source : Source) (results : List (Waiters × Bool)) : AuthState :=
  { s with checks := fun i => (s.checks i).map fun c =>
      match results.find? fun r => r.1.2.contains i with
      | some r => { c with answer := some (r.2, source) }
      | none => c }

def putL1 (connection : Nat) (key : AclKey) (allowed : Bool) : AuthState :=
  let cache := Function.update (s.l1Caches connection) key (some allowed)
  { s with l1Caches := Function.update s.l1Caches connection cache }

def negativeHas (key : AclKey) : Bool :=
  (cfg.positions s.filters key).all fun i =>
    s.negativeCache.any fun k => (cfg.positions s.filters k).contains i

def putL2 (key : AclKey) (allowed : Bool) : AuthState :=
  let entry : AclCacheEntry := ⟨allowed, s.now + cfg.cacheTtlSeconds⟩
  { s with l2Cache := Function.update s.l2Cache key (some entry) }

def putNegative (key : AclKey) (allowed : Bool) : AuthState :=
  if !allowed && cfg.negativeCacheEnabled then
    { s with negativeCache := key :: s.negativeCache }
  else s

def enqueue (pending : List Waiters) (key : AclKey) (id : Nat) : List Waiters :=
  if pending.any fun w => w.1 = key then
    pending.map fun w => if w.1 = key then (w.1, w.2 ++ [id]) else w
  else pending ++ [(key, [id])]

/-- `check_permission` and `fetch_acl` from one phase to the next. -/
def advance (id : Nat) (c : Check) : Option AuthState :=
  match c.phase with
  | .connection =>
    match s.l1Caches c.connection c.key with
    | some allowed => some (s.setPhase id (.returned allowed .connection))
    | none => some (s.setPhase id .negative)
  | .negative =>
    if cfg.negativeCacheEnabled && s.negativeHas cfg c.key then
      some (s.setPhase id (.returned false .negative))
    else some (s.setPhase id .shard)
  | .shard =>
    match s.l2Cache c.key with
    | some entry =>
      some (s.setPhase id (if s.now ≤ entry.expiresAt then .hit entry.allowed else .expired))
    | none => some (s.setPhase id .enqueue)
  | .hit allowed =>
    some ((s.putL1 c.connection c.key allowed).setPhase id (.returned allowed .shard))
  | .expired =>
    some ({ s with l2Cache := Function.update s.l2Cache c.key none }.setPhase id .enqueue)
  | .enqueue =>
    let pending := enqueue s.pending c.key id
    some ({ s with pending := pending }.setPhase id
      (if cfg.batchFetchSize ≤ pending.length then .trigger else .waiting))
  | .trigger =>
    -- `trigger_batch_fetch` leaves the batch alone if there is no permit
    if s.permits = 0 then some (s.setPhase id .waiting)
    else some ({ s with permits := s.permits - 1 }.setPhase id .acquired)
  | .acquired => some ({ s with pending := [] }.setPhase id (.fetching s.pending []))
  | .fetching (w :: todo) asked =>
    some (s.setPhase id (.fetching todo ((w, s.decide w.1) :: asked)))
  | .fetching [] asked => some ((s.send .manager asked).setPhase id .release)
  | .release => some ({ s with permits := s.permits + 1 }.setPhase id .waiting)
  | .waiting =>
    match c.answer with
    | some (allowed, source) => some (s.setPhase id (.received allowed source))
    | none => none
  -- `update_caches`
  | .received allowed source =>
    some ((s.putL1 c.connection c.key allowed).setPhase id (.updateL2 allowed source))
  | .updateL2 allowed source =>
    some ((s.putL2 cfg c.key allowed).setPhase id (.updateNegative allowed source))
  | .updateNegative allowed source =>
    some ((s.putNegative cfg c.key allowed).setPhase id (.returned allowed source))
  | .returned _ _ => none
  | .failed => none

/-- `start_batch_processor`. The batch it takes is answered without the ACL manager. -/
def process : AuthState :=
  match s.processor with
  | .idle => if s.pending = [] then s else { s with processor := .due }
  | .due =>
    if s.permits = 0 then { s with processor := .idle }
    else { s with permits := s.permits - 1, processor := .acquired }
  | .acquired =>
    let results := s.pending.map fun w => (w, false)
    { s.send .processor results with pending := [], processor := .release }
  | .release => { s with permits := s.permits + 1, processor := .idle }

/-- What `retain` keeps of the broker-wide cache. -/
def retain (keep : AclKey → AclCacheEntry → Bool) : AuthState :=
  { s with l2Cache := fun key => (s.l2Cache key).filter (keep key) }

def invalidatePrincipal (principal : String) : AuthState :=
  s.retain fun key _ => key.principal ≠ principal

def invalidateResourceCache (resource : String) : AuthState :=
  s.retain fun key _ => key.topic ≠ resource

def invalidateAllCaches : AuthState :=
  let cleared := s.retain fun _ _ => false
  if cfg.negativeCacheEnabled then { cleared with negativeCache := [], filters := s.filters + 1 }
  else cleared

inductive Label where
  | begin (id connection : Nat) (key : AclKey)
  | advance (id : Nat)
  | timeout (id : Nat)
  | process
  | evict (connection : Nat) (key : AclKey)
  | cleanup
  | clock (now : Nat)
  | rules (decide : AclKey → Bool)
  | invalidatePrincipal (principal : String)
  | invalidateResourceCache (resource : String)
  | invalidateAllCaches

def step : Label → Option AuthState
  | .begin id connection key =>
    match s.checks id with
    | some _ => none
    | none => some (s.begin id connection key)
  | .advance id => (s.checks id).bind (s.advance cfg id)
  | .timeout id => (s.checks id).bind fun c =>
      if c.phase = .waiting then some (s.setPhase id .failed) else none
  | .process => some s.process
  | .evict connection key =>
    let cache := Function.update (s.l1Caches connection) key none
    some { s with l1Caches := Function.update s.l1Caches connection cache }
  | .cleanup => some (s.retain fun _ entry => s.now ≤ entry.expiresAt)
  | .clock now => if s.now ≤ now then some { s with now := now } else none
  | .rules decide => some { s with decide := decide }
  | .invalidatePrincipal principal => some (s.invalidatePrincipal principal)
  | .invalidateResourceCache resource => some (s.invalidateResourceCache resource)
  | .invalidateAllCaches => some (s.invalidateAllCaches cfg)

end

/-! ## Keys and waiters -/

def keyOf (s : AuthState) (id : Nat) : Option AclKey := (s.checks id).map Check.key

@[simp] theorem keyOf_setPhase (s : AuthState) (id : Nat) (phase : Phase) (i : Nat) :
    (s.setPhase id phase).keyOf i = s.keyOf i := by
  simp only [keyOf, setPhase]
  split
  · rw [Option.map_map]
    rfl
  · rfl

@[simp] theorem keyOf_send (s : AuthState) (source : Source) (results : List (Waiters × Bool))
    (i : Nat) : (s.send source results).keyOf i = s.keyOf i := by
  simp only [keyOf, send, Option.map_map]
  congr 1
  funext c
  simp only [comp_apply]
  split
  · rfl
  · rfl

variable {s : AuthState} {id i : Nat} {phase : Phase} {c' c : Check} {source : Source}
  {results : List (Waiters × Bool)} {key : AclKey}

theorem checks_setPhase_eq_some (h : (s.setPhase id phase).checks i = some c') :
    ∃ c, s.checks i = some c ∧ c' = { c with phase := if i = id then phase else c.phase } := by
  simp only [setPhase] at h
  split at h
  · rename_i hi
    obtain ⟨c, hc, rfl⟩ := map_eq_some_iff.mp h
    exact ⟨c, hc, by rw [if_pos hi]⟩
  · rename_i hi
    exact ⟨c', h, by rw [if_neg hi]⟩

theorem checks_send (hc : s.checks i = some c) (source : Source) (results : List (Waiters × Bool)) :
    ∃ c', (s.send source results).checks i = some c' := by
  rw [send]
  simp only [hc, map_some]
  exact ⟨_, rfl⟩

@[simp] theorem checks_putNegative (cfg : AuthConfig) (s : AuthState) (key : AclKey)
    (allowed : Bool) : (s.putNegative cfg key allowed).checks = s.checks := by
  rw [putNegative]
  split
  · rfl
  · rfl

theorem checks_send_eq_some (h : (s.send source results).checks i = some c') :
    ∃ c, s.checks i = some c ∧ (c' = c ∨
      ∃ r ∈ results, i ∈ r.1.2 ∧ c' = { c with answer := some (r.2, source) }) := by
  obtain ⟨c, hc, heq⟩ := map_eq_some_iff.mp h
  refine ⟨c, hc, ?_⟩
  split at heq
  · rename_i r hr
    have hmem := find?_some hr
    exact .inr ⟨r, mem_of_find?_eq_some hr, by simpa using hmem, heq.symm⟩
  · exact .inl heq.symm

def Routed (s : AuthState) (w : Waiters) : Prop := ∀ i ∈ w.2, s.keyOf i = some w.1

theorem routed_enqueue (hkey : s.keyOf id = some key) (h : ∀ w ∈ s.pending, Routed s w) :
    ∀ w ∈ enqueue s.pending key id, Routed s w := by
  intro w hw
  rw [enqueue] at hw
  split at hw
  · obtain ⟨v, hv, rfl⟩ := mem_map.mp hw
    split
    · rename_i hvk
      intro i hi
      rcases mem_append.mp hi with hi | hi
      · exact h v hv i hi
      · rw [mem_singleton.mp hi, hkey]
        exact congrArg some hvk.symm
    · exact h v hv
  · rcases mem_append.mp hw with hw | hw
    · exact h w hw
    · rw [mem_singleton.mp hw]
      intro i hi
      rw [mem_singleton.mp hi]
      exact hkey

/-! ## Faithful checks -/

section faithful

variable {cfg : AuthConfig} {truth : AclKey → Bool → Prop} {s s' : AuthState} {label : Label}
  {d : AclKey → Bool}

def PhaseFaithful (truth : AclKey → Bool → Prop) (s : AuthState) (key : AclKey) : Phase → Prop
  | .fetching todo asked =>
    (∀ w ∈ todo, Routed s w) ∧ ∀ r ∈ asked, Routed s r.1 ∧ truth r.1.1 r.2
  | .hit allowed => truth key allowed
  | .received allowed _ => truth key allowed
  | .updateL2 allowed _ => truth key allowed
  | .updateNegative allowed _ => truth key allowed
  | .returned allowed _ => truth key allowed
  | _ => True

/-- Every decision that is kept anywhere is true, and goes to whoever asked for its key. -/
structure Faithful (truth : AclKey → Bool → Prop) (s : AuthState) : Prop where
  decide : ∀ key, truth key (s.decide key)
  l1 : ∀ connection key allowed, s.l1Caches connection key = some allowed → truth key allowed
  l2 : ∀ key entry, s.l2Cache key = some entry → truth key entry.allowed
  negative : ∀ key ∈ s.negativeCache, truth key false
  pending : ∀ w ∈ s.pending, Routed s w
  phase : ∀ id c, s.checks id = some c → PhaseFaithful truth s c.key c.phase
  answer : ∀ id c allowed source, s.checks id = some c → c.answer = some (allowed, source) →
    truth c.key allowed

theorem PhaseFaithful.mono (h : PhaseFaithful truth s key phase)
    (hkeys : ∀ i k, s.keyOf i = some k → s'.keyOf i = some k) :
    PhaseFaithful truth s' key phase := by
  cases phase with
  | fetching todo asked =>
    obtain ⟨htodo, hasked⟩ := h
    constructor
    · intro w hw i hi
      exact hkeys i _ (htodo w hw i hi)
    · intro r hr
      exact ⟨fun i hi => hkeys i _ ((hasked r hr).1 i hi), (hasked r hr).2⟩
  | hit | received | updateL2 | updateNegative | returned => exact h
  | _ => trivial

section

variable (h : Faithful truth s)
include h

theorem Faithful.of_caches (hdecide : s'.decide = s.decide) (hchecks : s'.checks = s.checks)
    (hl1 : ∀ connection key allowed, s'.l1Caches connection key = some allowed →
      s.l1Caches connection key = some allowed ∨ truth key allowed)
    (hl2 : ∀ key entry, s'.l2Cache key = some entry →
      s.l2Cache key = some entry ∨ truth key entry.allowed)
    (hnegative : ∀ key ∈ s'.negativeCache, key ∈ s.negativeCache ∨ truth key false)
    (hpending : ∀ w ∈ s'.pending, Routed s w) : Faithful truth s' := by
  have hkeys : ∀ i, s'.keyOf i = s.keyOf i := by
    intro i
    rw [keyOf, keyOf, hchecks]
  constructor
  · intro key
    rw [hdecide]
    exact h.decide key
  · intro connection key allowed hget
    exact (hl1 connection key allowed hget).elim (h.l1 connection key allowed) id
  · intro key entry hget
    exact (hl2 key entry hget).elim (h.l2 key entry) id
  · intro key hkey
    exact (hnegative key hkey).elim (h.negative key) id
  · intro w hw i hi
    rw [hkeys]
    exact hpending w hw i hi
  · intro id c hc
    rw [hchecks] at hc
    exact (h.phase id c hc).mono fun i k hk => (hkeys i).trans hk
  · intro id c allowed source hc
    rw [hchecks] at hc
    exact h.answer id c allowed source hc

theorem Faithful.of_checks {checks : Nat → Option Check}
    (hkeys : ∀ i k, s.keyOf i = some k → { s with checks := checks }.keyOf i = some k)
    (hphase : ∀ id c, checks id = some c →
      PhaseFaithful truth { s with checks := checks } c.key c.phase)
    (hanswer : ∀ id c allowed source, checks id = some c → c.answer = some (allowed, source) →
      truth c.key allowed) : Faithful truth { s with checks := checks } where
  decide := h.decide
  l1 := h.l1
  l2 := h.l2
  negative := h.negative
  pending w hw i hi := hkeys i _ (h.pending w hw i hi)
  phase := hphase
  answer := hanswer

theorem Faithful.setPhase (hc : s.checks id = some c) (hphase : PhaseFaithful truth s c.key phase) :
    Faithful truth (s.setPhase id phase) := by
  have hkeys : ∀ i k, s.keyOf i = some k → (s.setPhase id phase).keyOf i = some k := by
    intro i k hk
    rw [keyOf_setPhase]
    exact hk
  refine h.of_checks hkeys ?_ ?_
  · intro i c' hc'
    obtain ⟨c₀, hc₀, rfl⟩ := checks_setPhase_eq_some hc'
    by_cases hi : i = id
    · subst hi
      rw [hc] at hc₀
      cases hc₀
      simp only [if_true]
      exact hphase.mono hkeys
    · simp only [hi, if_false]
      exact (h.phase i c₀ hc₀).mono hkeys
  · intro i c' allowed source hc'
    obtain ⟨c₀, hc₀, rfl⟩ := checks_setPhase_eq_some hc'
    exact h.answer i c₀ allowed source hc₀

theorem Faithful.send (hresults : ∀ r ∈ results, Routed s r.1 ∧ truth r.1.1 r.2) :
    Faithful truth (s.send source results) := by
  have hkeys : ∀ i k, s.keyOf i = some k → (s.send source results).keyOf i = some k := by
    intro i k hk
    rw [keyOf_send]
    exact hk
  refine h.of_checks hkeys ?_ ?_
  · intro i c' hc'
    obtain ⟨c, hc, rfl | ⟨r, -, -, rfl⟩⟩ := checks_send_eq_some hc'
    · exact (h.phase i c' hc).mono hkeys
    · exact (h.phase i c hc).mono hkeys
  · intro i c' allowed answeredBy hc' hanswer
    obtain ⟨c, hc, rfl | ⟨r, hr, hi, rfl⟩⟩ := checks_send_eq_some hc'
    · exact h.answer i c' allowed answeredBy hc hanswer
    · cases hanswer
      obtain ⟨hrouted, hallowed⟩ := hresults r hr
      have hkey := hrouted i hi
      rw [keyOf, hc] at hkey
      rw [show c.key = r.1.1 from some.inj hkey]
      exact hallowed

section

variable {allowed : Bool} (hallowed : truth key allowed)
include hallowed

theorem Faithful.putL1 {connection : Nat} : Faithful truth (s.putL1 connection key allowed) := by
  refine h.of_caches rfl rfl ?_ ?_ ?_ ?_
  · intro conn k b hget
    simp only [AuthState.putL1, update_apply] at hget
    split at hget
    · rename_i hconn
      rcases of_update_eq_some hget with ⟨rfl, rfl⟩ | ⟨-, hget⟩
      · exact .inr hallowed
      · exact .inl (hconn ▸ hget)
    · exact .inl hget
  · exact fun _ _ hget => .inl hget
  · exact fun _ hkey => .inl hkey
  · exact h.pending

theorem Faithful.putL2 : Faithful truth (s.putL2 cfg key allowed) := by
  refine h.of_caches rfl rfl ?_ ?_ ?_ ?_
  · exact fun _ _ _ hget => .inl hget
  · intro k entry hget
    rcases of_update_eq_some hget with ⟨rfl, rfl⟩ | ⟨-, hget⟩
    · exact .inr hallowed
    · exact .inl hget
  · exact fun _ hkey => .inl hkey
  · exact h.pending

theorem Faithful.putNegative : Faithful truth (s.putNegative cfg key allowed) := by
  rw [AuthState.putNegative]
  split
  · rename_i hdenied
    simp only [Bool.and_eq_true, Bool.not_eq_true'] at hdenied
    refine h.of_caches rfl rfl ?_ ?_ ?_ ?_
    · exact fun _ _ _ hget => .inl hget
    · exact fun _ _ hget => .inl hget
    · intro k hk
      rcases mem_cons.mp hk with rfl | hk
      · exact .inr (hdenied.1 ▸ hallowed)
      · exact .inl hk
    · exact h.pending
  · exact h

end

theorem Faithful.retain (keep : AclKey → AclCacheEntry → Bool) :
    Faithful truth (s.retain keep) := by
  refine h.of_caches rfl rfl ?_ ?_ ?_ ?_
  · exact fun _ _ _ hget => .inl hget
  · intro key entry hget
    exact .inl (filter_eq_some_iff.mp hget).1
  · exact fun _ hkey => .inl hkey
  · exact h.pending

theorem Faithful.of_pending {pending : List Waiters} {permits : Nat} {processor : Processor}
    {now : Nat} (hpending : ∀ w ∈ pending, Routed s w) :
    Faithful truth { s with
      pending := pending, permits := permits, processor := processor, now := now } := by
  refine h.of_caches rfl rfl ?_ ?_ ?_ ?_
  · exact fun _ _ _ hget => .inl hget
  · exact fun _ _ hget => .inl hget
  · exact fun _ hkey => .inl hkey
  · exact hpending

end

/-- What has to be true for a step to keep what is kept true: a key found in the negative filter is
denied, and so is every key of a batch that the background processor takes. -/
def Sanctioned (truth : AclKey → Bool → Prop) (cfg : AuthConfig) (s : AuthState) : Label → Prop
  | .advance id => ∀ c ∈ s.checks id,
      c.phase = .negative → s.negativeHas cfg c.key = true → truth c.key false
  | .process => s.processor = .acquired → ∀ w ∈ s.pending, truth w.1 false
  | .rules decide => ∀ key, truth key (decide key)
  | _ => True

theorem Faithful.advance (h : Faithful truth s) (hc : s.checks id = some c)
    (hsanctioned : c.phase = .negative → s.negativeHas cfg c.key = true → truth c.key false)
    (hstep : s.advance cfg id c = some s') : Faithful truth s' := by
  have hphase := h.phase id c hc
  obtain ⟨connection, key, phase, answer⟩ := c
  cases phase with
  | connection =>
    simp only [AuthState.advance] at hstep
    split at hstep
    · rename_i allowed hget
      cases hstep
      exact h.setPhase hc (h.l1 _ _ _ hget)
    · cases hstep
      exact h.setPhase hc trivial
  | negative =>
    simp only [AuthState.advance] at hstep
    split at hstep
    · rename_i hfound
      cases hstep
      exact h.setPhase hc (hsanctioned rfl (Bool.and_eq_true_iff.mp hfound).2)
    · cases hstep
      exact h.setPhase hc trivial
  | shard =>
    simp only [AuthState.advance] at hstep
    split at hstep
    · rename_i entry hget
      cases hstep
      refine h.setPhase hc ?_
      split
      · exact h.l2 _ _ hget
      · trivial
    · cases hstep
      exact h.setPhase hc trivial
  | hit | received =>
    cases hstep
    exact (h.putL1 hphase).setPhase hc hphase
  | expired =>
    cases hstep
    refine Faithful.setPhase ?_ hc trivial
    refine h.of_caches rfl rfl (fun _ _ _ hget => .inl hget) ?_ (fun _ hkey => .inl hkey) h.pending
    intro key entry hget
    simp only [update_apply] at hget
    split at hget
    · cases hget
    · exact .inl hget
  | enqueue =>
    cases hstep
    have hkey : s.keyOf id = some key := by rw [keyOf, hc, map_some]
    refine (h.of_pending (routed_enqueue hkey h.pending)).setPhase hc ?_
    split
    · trivial
    · trivial
  | trigger =>
    simp only [AuthState.advance] at hstep
    split at hstep
    · cases hstep
      exact h.setPhase hc trivial
    · cases hstep
      exact (h.of_pending h.pending).setPhase hc trivial
  | acquired =>
    cases hstep
    have hnone : ∀ w ∈ ([] : List Waiters), Routed s w := by simp
    refine (h.of_pending hnone).setPhase hc ⟨?_, by simp⟩
    exact h.pending
  | fetching todo asked =>
    obtain ⟨htodo, hasked⟩ := hphase
    cases todo with
    | nil =>
      cases hstep
      obtain ⟨c', hc'⟩ := checks_send hc Source.manager asked
      exact (h.send hasked).setPhase hc' trivial
    | cons w todo =>
      cases hstep
      obtain ⟨hw, htodo⟩ := forall_mem_cons.mp htodo
      exact h.setPhase hc ⟨htodo, forall_mem_cons.mpr ⟨⟨hw, h.decide w.1⟩, hasked⟩⟩
  | release =>
    cases hstep
    exact (h.of_pending h.pending).setPhase hc trivial
  | waiting =>
    obtain _ | ⟨allowed, source⟩ := answer
    · cases hstep
    · cases hstep
      exact h.setPhase hc (h.answer id _ allowed source hc rfl)
  | updateL2 allowed source =>
    cases hstep
    exact (h.putL2 hphase).setPhase hc hphase
  | updateNegative allowed source =>
    cases hstep
    rw [← checks_putNegative cfg s key allowed] at hc
    exact (h.putNegative hphase).setPhase hc hphase
  | returned | failed =>
    cases hstep

theorem Faithful.begin (h : Faithful truth s) (hnew : s.checks id = none) (connection : Nat)
    (key : AclKey) : Faithful truth (s.begin id connection key) := by
  have hkeys : ∀ i k, s.keyOf i = some k → (s.begin id connection key).keyOf i = some k := by
    intro i k hk
    have hi : i ≠ id := by
      rintro rfl
      rw [keyOf, hnew] at hk
      cases hk
    simp only [keyOf, AuthState.begin, update_of_ne hi]
    exact hk
  refine h.of_checks hkeys ?_ ?_
  · intro i c hc
    rcases of_update_eq_some hc with ⟨-, rfl⟩ | ⟨-, hc⟩
    · trivial
    · exact (h.phase i c hc).mono hkeys
  · intro i c allowed source hc hanswer
    rcases of_update_eq_some hc with ⟨-, rfl⟩ | ⟨-, hc⟩
    · cases hanswer
    · exact h.answer i c allowed source hc hanswer

theorem Faithful.process (h : Faithful truth s)
    (hsanctioned : s.processor = .acquired → ∀ w ∈ s.pending, truth w.1 false) :
    Faithful truth s.process := by
  have hnone : ∀ w ∈ ([] : List Waiters), Routed s w := by simp
  rw [AuthState.process]
  split
  · split
    · exact h
    · exact h.of_pending h.pending
  · split
    · exact h.of_pending h.pending
    · exact h.of_pending h.pending
  · rename_i hacquired
    have hresults : ∀ r ∈ s.pending.map (fun w => (w, false)), Routed s r.1 ∧ truth r.1.1 r.2 := by
      intro r hr
      obtain ⟨w, hw, rfl⟩ := mem_map.mp hr
      exact ⟨h.pending w hw, hsanctioned hacquired w hw⟩
    exact (h.send hresults).of_pending (by simp)
  · exact h.of_pending h.pending

theorem Faithful.step (h : Faithful truth s) (hsanctioned : Sanctioned truth cfg s label)
    (hstep : step cfg s label = some s') : Faithful truth s' := by
  cases label with
  | begin id connection key =>
    simp only [AuthState.step] at hstep
    split at hstep
    · cases hstep
    · rename_i hnew
      cases hstep
      exact h.begin hnew connection key
  | advance id =>
    obtain ⟨c, hc, hadvance⟩ := bind_eq_some_iff.mp hstep
    exact h.advance hc (hsanctioned c hc) hadvance
  | timeout id =>
    obtain ⟨c, hc, htimeout⟩ := bind_eq_some_iff.mp hstep
    split at htimeout
    · cases htimeout
      exact h.setPhase hc trivial
    · cases htimeout
  | process =>
    cases hstep
    exact h.process hsanctioned
  | evict connection key =>
    cases hstep
    refine h.of_caches rfl rfl ?_ (fun _ _ hget => .inl hget) (fun _ hkey => .inl hkey) h.pending
    intro conn k allowed hget
    simp only [update_apply] at hget
    split at hget
    · rename_i hconn
      simp only [update_apply] at hget
      split at hget
      · cases hget
      · exact .inl (hconn ▸ hget)
    · exact .inl hget
  | cleanup | invalidatePrincipal | invalidateResourceCache =>
    cases hstep
    exact h.retain _
  | clock now =>
    simp only [AuthState.step] at hstep
    split at hstep
    · cases hstep
      exact h.of_pending h.pending
    · cases hstep
  | rules decide =>
    cases hstep
    exact { h with decide := hsanctioned }
  | invalidateAllCaches =>
    cases hstep
    have hcleared := h.retain fun _ _ => false
    rw [invalidateAllCaches]
    split
    · refine hcleared.of_caches rfl rfl ?_ ?_ ?_ ?_
      · exact fun _ _ _ hget => .inl hget
      · exact fun _ _ hget => .inl hget
      · intro key hkey
        cases hkey
      · exact hcleared.pending
    · exact hcleared

theorem faithful_start (hdecide : ∀ key, truth key (d key)) : Faithful truth (start d) := by
  constructor
  · exact hdecide
  · intro connection key allowed hget
    cases hget
  · intro key entry hget
    cases hget
  · intro key hkey
    cases hkey
  · intro w hw
    cases hw
  · intro id c hc
    cases hc
  · intro id c allowed source hc
    cases hc

/-- The rules stay, a key found in the negative filter has been set there, and a batch that the
background processor takes asks only for what is denied. -/
def Regular (cfg : AuthConfig) (s : AuthState) : Label → Prop
  | .advance id => ∀ c ∈ s.checks id,
      c.phase = .negative → s.negativeHas cfg c.key = true → c.key ∈ s.negativeCache
  | .process => s.processor = .acquired → ∀ w ∈ s.pending, s.decide w.1 = false
  | .rules _ => False
  | _ => True

instance (cfg : AuthConfig) (s : AuthState) (label : Label) : Decidable (Regular cfg s label) := by
  cases label <;> unfold Regular <;> infer_instance

/-- The decisions of a manager whose rules do not change. -/
def Decides (d : AclKey → Bool) (key : AclKey) (allowed : Bool) : Prop := allowed = d key

theorem Faithful.sanctioned (h : Faithful (Decides d) s) (hregular : Regular cfg s label) :
    Sanctioned (Decides d) cfg s label := by
  cases label with
  | advance id =>
    intro c hc hphase hfound
    exact h.negative _ (hregular c hc hphase hfound)
  | process =>
    intro hacquired w hw
    have hdecide : s.decide w.1 = d w.1 := h.decide w.1
    rw [Decides, ← hdecide, hregular hacquired w hw]
  | rules decide => exact hregular.elim
  | _ => trivial

/-- A check that returns gives the decision of the ACL manager, as long as the background processor
takes no batch with a key that the manager allows. -/
theorem check_permission_faithful {d : AclKey → Bool} {labels : List Label}
    (hregular : Along (step cfg) (Regular cfg) (start d) labels)
    (hexec : exec (step cfg) (start d) labels = some s)
    {id : Nat} {c : Check} {allowed : Bool} {source : Source} (hc : s.checks id = some c)
    (hreturned : c.phase = .returned allowed source) : allowed = d c.key := by
  have hfaithful : Faithful (Decides d) s :=
    exec_invariant (fun _ _ _ h hP hstep => h.step (h.sanctioned hP) hstep)
      (faithful_start fun _ => rfl) hregular hexec
  have hphase := hfaithful.phase id c hc
  rw [hreturned] at hphase
  exact hphase

/-- Two keys a batch; the filter has eight bits and looks at one. -/
def twoKeys : AuthConfig where
  cacheTtlSeconds := 300
  batchFetchSize := 2
  negativeCacheEnabled := true
  positions _ key := [key.topic.length % 8]

def ordersOnly (key : AclKey) : Bool := key.topic == "orders" && key.permission = .read

/-- Two connections ask at once, and the second fills the batch. A third asks for what is denied,
and waits for the background processor. -/
def twoConsumers : List Label :=
  [.begin 0 0 ⟨"alice", "orders", .read⟩, .begin 1 1 ⟨"bob", "payments", .read⟩] ++
    List.replicate 4 (.advance 0) ++ List.replicate 9 (.advance 1) ++
    List.replicate 4 (.advance 0) ++
    [.begin 2 2 ⟨"bob", "payments", .write⟩] ++ List.replicate 4 (.advance 2) ++
    List.replicate 4 .process ++ List.replicate 4 (.advance 2)

def afterTwoConsumers : AuthState :=
  (exec (step twoKeys) (start ordersOnly) twoConsumers).getD (start ordersOnly)

theorem check_permission_faithful_twoConsumers :
    (afterTwoConsumers.checks 0).map Check.phase = some (.returned true .manager) ∧
      (afterTwoConsumers.checks 2).map Check.phase = some (.returned false .processor) ∧
      true = ordersOnly ⟨"alice", "orders", .read⟩ := by
  have hregular : Along (step twoKeys) (Regular twoKeys) (start ordersOnly) twoConsumers := by
    decide +kernel
  have hexec : exec (step twoKeys) (start ordersOnly) twoConsumers = some afterTwoConsumers := rfl
  have hc : afterTwoConsumers.checks 0 = some ⟨0, ⟨"alice", "orders", .read⟩,
      .returned true .manager, some (true, .manager)⟩ := by
    decide +kernel
  exact ⟨by decide +kernel, by decide +kernel, check_permission_faithful hregular hexec hc rfl⟩

def loneConsumer : List Label :=
  [.begin 0 0 ⟨"alice", "orders", .read⟩] ++ List.replicate 4 (.advance 0) ++
    List.replicate 4 .process ++ List.replicate 4 (.advance 0)

theorem allowed_read_refused : ordersOnly ⟨"alice", "orders", .read⟩ = true ∧
      ((exec (step twoKeys) (start ordersOnly) loneConsumer).bind fun s => s.checks 0) =
        some ⟨0, ⟨"alice", "orders", .read⟩, .returned false .processor,
          some (false, .processor)⟩ := by
  decide +kernel

end faithful

end AuthState
end RustMq.Security
