import RustMq.Security.AclManager

/-!
# Decisions from the caches

Two questions about the answers of `evaluate_access`, over every history of calls.

Is an answer from a cache the answer from the stored rules? A cached entry is one rule, the first
of the principal, while the decision is taken over all of them; the entry of a rule that does not
compile is matched literally, while the decision skips the rule; and two principals share a key if
one of them contains a colon. Where none of this happens the caches are transparent.

Does the negative cache only deny what is not allowed? The filter is consulted first and denies
whatever it does not contain. It starts empty, it is filled only behind that test, and it is
replaced by an empty one, so it never contains anything: with negative caching every request is
denied.
-/

namespace RustMq.Security

open Lib

variable {cfg : AclConfig} {env : Env}

/-! ## Transparency -/

/-- The principal has no colon, all of its rules are one rule, and that rule compiles. -/
def OneRule (engine : RegexEngine) (storage : AclStorage) (principal : String) : Prop :=
  ':' ∉ principal.toList ∧
    (∀ rule ∈ storage.getRulesForPrincipal principal,
      ∀ rule' ∈ storage.getRulesForPrincipal principal, rule'.rule = rule.rule) ∧
    ∀ rule ∈ storage.getRulesForPrincipal principal, (AclEntry.fromRule engine rule.rule).isSome

instance (engine : RegexEngine) (storage : AclStorage) (principal : String) :
    Decidable (OneRule engine storage principal) :=
  inferInstanceAs (Decidable (_ ∧ _ ∧ _))

/-- A call over fixed rules, for a principal with one of them. -/
def Plain (engine : RegexEngine) (m : AclManager) : ManagerCall → Prop
  | .access call => OneRule engine m.storage call.request.principal
  | .invalidate _ => True
  | .cleanup _ => True
  | .create _ _ => False
  | .update _ _ => False
  | .delete _ => False

instance (engine : RegexEngine) (m : AclManager) (call) : Decidable (Plain engine m call) := by
  unfold Plain
  split <;> infer_instance

theorem principal_of_cacheKey_eq {r r' : Request} (h : r.cacheKey = r'.cacheKey)
    (hr : ':' ∉ r.principal.toList) (hr' : ':' ∉ r'.principal.toList) :
    r.principal = r'.principal := by
  have hhead : ∀ s : Request, ':' ∉ s.principal.toList →
      s.cacheKey.toList.takeWhile (· ≠ ':') = s.principal.toList := by
    intro s hs
    have hlist : s.cacheKey.toList = s.principal.toList ++
        ':' :: (s.resource.toList ++ ":".toList ++ s.operation.debug.toList) := by
      simp only [Request.cacheKey, String.toList_append, List.append_assoc]
      rfl
    rw [hlist, List.takeWhile_append_of_pos, List.takeWhile_cons_of_neg (by simp), List.append_nil]
    intro c hc
    have hne : c ≠ ':' := fun heq => hs (heq ▸ hc)
    simpa using hne
  have := hhead r hr
  rw [h, hhead r' hr'] at this
  exact String.toList_injective this.symm

variable {storage : AclStorage} {m m' : AclManager} {call : ManagerCall} {c : AccessCall} {b : Bool}

theorem OneRule.decision {request : Request} {rule : VersionedAclRule}
    (h : OneRule env.engine storage request.principal)
    (hmem : rule ∈ storage.getRulesForPrincipal request.principal) :
    evaluateCachedEntry env.engine (createCachedEntry env.engine rule.rule) request =
      (evaluateRules env.engine (storage.getRulesForPrincipal request.principal)
        request).isAllowed := by
  have hlive := (AclStorage.of_mem_getRulesForPrincipal hmem).2.1
  rw [Bool.eq_iff_iff, evaluateRules_isAllowed_iff, ← applies_and_allow_iff hlive (h.2.2 rule hmem)]
  constructor
  · rintro ⟨happlies, hallow⟩
    refine ⟨⟨rule, hmem, happlies, hallow⟩, fun rule' hmem' _ hdeny => ?_⟩
    rw [h.2.1 rule hmem rule' hmem', hallow] at hdeny
    cases hdeny
  · rintro ⟨⟨rule', hmem', happlies, hallow⟩, -⟩
    have hsame := h.2.1 rule hmem rule' hmem'
    have hlive' := (AclStorage.of_mem_getRulesForPrincipal hmem').2.1
    rw [Applies, matchingEntry, hlive', hsame, ← hlive] at happlies
    rw [hsame] at hallow
    exact ⟨happlies, hallow⟩

/-- Every cached entry is the one rule of the principal its key belongs to. -/
structure Transparent (cfg : AclConfig) (env : Env) (storage : AclStorage) (m : AclManager) :
    Prop where
  fixed : m.storage = storage
  cached : ∀ k e, m.Caches cfg env k e →
    ∃ request : Request, k = request.cacheKey ∧
      OneRule env.engine storage request.principal ∧
      ∃ rule ∈ storage.getRulesForPrincipal request.principal,
        e.entry = createCachedEntry env.engine rule.rule

theorem Transparent.step (h : Transparent cfg env storage m) (hplain : Plain env.engine m call)
    (hstep : m.step cfg env call = some m') : Transparent cfg env storage m' := by
  cases AclManager.step_cases hstep with
  | @access c b _ haccess =>
    obtain ⟨hstorage, hcaches⟩ := AclManager.caches_of_access haccess
    refine ⟨hstorage.trans h.fixed, fun k e he => ?_⟩
    rcases hcaches k e he with hold | ⟨rfl, -, rule, hmem, rfl⟩
    · exact h.cached k e hold
    · rw [h.fixed] at hmem
      have hone : OneRule env.engine m.storage c.request.principal := hplain
      rw [h.fixed] at hone
      exact ⟨c.request, rfl, hone, rule, hmem, rfl⟩
  | invalidate =>
    exact ⟨h.fixed, fun k e he => h.cached k e (AclManager.caches_of_invalidateCache he)⟩
  | cleanup =>
    exact ⟨h.fixed, fun k e he => h.cached k e (AclManager.caches_of_cleanupExpired he)⟩
  -- the stored rules are fixed
  | create _ => exact absurd hplain id
  | update _ => exact absurd hplain id
  | delete _ => exact absurd hplain id

theorem Transparent.answer (h : Transparent cfg env storage m)
    (hneg : cfg.negativeCacheEnabled = false)
    (hone : OneRule env.engine storage c.request.principal)
    (hanswer : m.evaluateAccess cfg env c = some (b, m')) :
    b = (evaluateRules env.engine (storage.getRulesForPrincipal c.request.principal)
      c.request).isAllowed := by
  have hunfiltered : m.filtered cfg env c.request.cacheKey = some false := by
    rw [AclManager.filtered, hneg]
  rcases AclManager.evaluateAccess_cases hanswer with ⟨hfilter, -, -⟩ | ⟨-, hcached | hfetch⟩
  · rw [hunfiltered] at hfilter
    cases hfilter
  · obtain ⟨e, he, rfl, -⟩ := hcached
    obtain ⟨request, hkey, hone', rule, hmem, hentry⟩ := h.cached _ e he
    rw [← principal_of_cacheKey_eq hkey hone.1 hone'.1] at hmem
    rw [hentry]
    exact hone.decision hmem
  · rw [← h.fixed, ← AclManager.fetch_fst, ← hfetch]

theorem transparent_new (storage : AclStorage) :
    Transparent cfg env storage (.new cfg storage) where
  fixed := rfl
  cached _ _ he := absurd he AclManager.not_caches_new

/-- **Transparent caching.** Without negative caching, if no principal has a colon in its name or
more than one rule, which compiles, every answer is the decision over the stored rules. -/
theorem decisions_as_stored {storage : AclStorage} {calls : List ManagerCall} {m m' : AclManager}
    (hneg : cfg.negativeCacheEnabled = false)
    (hplain : Along (AclManager.step cfg env) (Plain env.engine) (.new cfg storage) calls)
    (hexec : exec (AclManager.step cfg env) (.new cfg storage) calls = some m)
    {c : AccessCall} (hone : OneRule env.engine storage c.request.principal) {b : Bool}
    (hanswer : m.evaluateAccess cfg env c = some (b, m')) :
    b = (evaluateRules env.engine (storage.getRulesForPrincipal c.request.principal)
      c.request).isAllowed := by
  have h : Transparent cfg env storage m := exec_invariant (I := Transparent cfg env storage)
    (fun _ _ _ h hP hs => h.step hP hs) (transparent_new storage) hplain hexec
  exact h.answer hneg hone hanswer

def stored (rules : List AclRule) : AclStorage :=
  rules.foldl (fun s rule => match s.createRule rule "" with
    | .ok (_, s') => s'
    | .error _ => s) .empty

def aliceReads (id : String) (effect : Effect) : AclRule :=
  ⟨id, "alice", ⟨.topic, "orders"⟩, [.read], effect, []⟩

def aliceAsks (topic : String) (first : Nat) : AccessCall :=
  ⟨⟨"alice", topic, .read, none⟩, 0, "", "", first⟩

def aliceCall : AccessCall := aliceAsks "orders" 0

def plainEnv : Env := ⟨⟨fun _ => false, fun _ _ => false⟩, fun _ _ => 0, fun _ => 0⟩

def plainConfig : AclConfig := ⟨50, 300, 8, 1000, false⟩

def answerAfter (cfg : AclConfig) (storage : AclStorage) (calls : List ManagerCall)
    (c : AccessCall) : Option Bool :=
  ((exec (AclManager.step cfg plainEnv) (.new cfg storage) calls).bind fun m =>
    m.evaluateAccess cfg plainEnv c).map Prod.fst

theorem of_answerAfter {calls : List ManagerCall} (h : answerAfter cfg storage calls c = some b) :
    ∃ m m', exec (AclManager.step cfg plainEnv) (.new cfg storage) calls = some m ∧
      m.evaluateAccess cfg plainEnv c = some (b, m') := by
  obtain ⟨⟨b', m'⟩, hbind, rfl⟩ := Option.map_eq_some_iff.mp h
  obtain ⟨m, hexec, hanswer⟩ := Option.bind_eq_some_iff.mp hbind
  exact ⟨m, m', hexec, hanswer⟩

/-- The second of two equal requests, answered from the L1 cache. -/
theorem decisions_as_stored_alice :
    answerAfter plainConfig (stored [aliceReads "r" .allow]) [.access aliceCall] aliceCall =
        some true ∧
      true = (evaluateRules plainEnv.engine
        ((stored [aliceReads "r" .allow]).getRulesForPrincipal "alice")
          aliceCall.request).isAllowed := by
  have hanswer : answerAfter plainConfig (stored [aliceReads "r" .allow]) [.access aliceCall]
    aliceCall = some true := by decide +kernel
  obtain ⟨m, m', hexec, haccess⟩ := of_answerAfter hanswer
  exact ⟨hanswer, decisions_as_stored rfl (by decide +kernel) hexec (by decide +kernel) haccess⟩

def askedTwice (storage : AclStorage) (c : AccessCall) : Option Bool × Option Bool × Bool :=
  (answerAfter plainConfig storage [] c, answerAfter plainConfig storage [.access c] c,
    (evaluateRules plainEnv.engine (storage.getRulesForPrincipal c.request.principal)
      c.request).isAllowed)

def twoTopics : AclStorage :=
  stored [aliceReads "o" .allow, { aliceReads "p" .allow with resource := ⟨.topic, "payments"⟩ }]

/-- The other topic can be read once: its answer is cached with the first rule, and the second
request is denied. -/
theorem repeated_request_denied :
    askedTwice twoTopics (aliceAsks "orders" 0) = (some true, some false, true) ∧
      askedTwice twoTopics (aliceAsks "payments" 1) = (some true, some false, true) := by
  decide +kernel

-- a deny rule holds once, if an allow rule comes first
example : askedTwice (stored [aliceReads "no" .deny, aliceReads "yes" .allow]) aliceCall =
    (some false, some true, false) := by
  decide +kernel

/-! ## The negative cache -/

def Unfilled (cfg : AclConfig) (m : AclManager) : Prop :=
  m.bloomFilter = some (.new cfg.bloomFilterSize)

theorem Unfilled.denied (h : Unfilled cfg m) (hneg : cfg.negativeCacheEnabled = true)
    (hanswer : m.evaluateAccess cfg env c = some (b, m')) : b = false ∧ m' = m := by
  rcases AclManager.evaluateAccess_cases hanswer with ⟨-, hb, hm⟩ | ⟨hfilter, -⟩
  · exact ⟨hb, hm⟩
  · -- a filter that contains nothing lets nothing through
    rw [AclManager.filtered, hneg, h] at hfilter
    simp only at hfilter
    split at hfilter
    · cases hfilter
    · rw [BloomFilter.mightContain_new] at hfilter
      cases hfilter

theorem unfilled_invalidateCache (hneg : cfg.negativeCacheEnabled = true) (m : AclManager)
    (keys : List String) : Unfilled cfg (m.invalidateCache cfg env keys) :=
  if_pos hneg

theorem Unfilled.step (h : Unfilled cfg m) (hneg : cfg.negativeCacheEnabled = true)
    (hstep : m.step cfg env call = some m') : Unfilled cfg m' := by
  cases AclManager.step_cases hstep with
  | access haccess =>
    rw [(h.denied hneg haccess).2]
    exact h
  | cleanup => exact h
  | invalidate | create | update | delete => exact unfilled_invalidateCache hneg _ _

/-- **The negative cache** denies every request, so it is right exactly for those the rules do not
allow. -/
theorem negative_cache_denies {storage : AclStorage} {calls : List ManagerCall}
    {m m' : AclManager} (hneg : cfg.negativeCacheEnabled = true)
    (hexec : exec (AclManager.step cfg env) (.new cfg storage) calls = some m)
    {c : AccessCall} {b : Bool} (hanswer : m.evaluateAccess cfg env c = some (b, m')) :
    ((evaluateRules env.engine (m.storage.getRulesForPrincipal c.request.principal)
        c.request).isAllowed = true → b = true) ↔
      (∀ rule ∈ m.storage.getRulesForPrincipal c.request.principal,
          Applies env.engine c.request rule → rule.rule.effect ≠ .allow) ∨
        ∃ rule ∈ m.storage.getRulesForPrincipal c.request.principal,
          Applies env.engine c.request rule ∧ rule.rule.effect = .deny := by
  have hstart : Unfilled cfg (.new cfg storage) := if_pos hneg
  have h : Unfilled cfg m := exec_invariant_of_step (I := Unfilled cfg)
    (fun _ _ _ h hs => h.step hneg hs) hstart hexec
  rw [(h.denied hneg hanswer).1, evaluateRules_isAllowed_iff]
  constructor
  · intro himp
    by_contra hnot
    push Not at hnot
    obtain ⟨⟨rule, hmem, happlies, hallow⟩, hdeny⟩ := hnot
    exact Bool.false_ne_true (himp ⟨⟨rule, hmem, happlies, hallow⟩, hdeny⟩)
  · rintro (hnone | ⟨rule, hmem, happlies, hdeny⟩) ⟨⟨allowRule, hallowMem, happ, hallow⟩, hno⟩
    · exact absurd hallow (hnone allowRule hallowMem happ)
    · exact absurd hdeny (hno rule hmem happlies)

def negativeConfig : AclConfig := ⟨50, 300, 8, 1000, true⟩

/-- A principal without rules, before and after an invalidation. -/
theorem negative_cache_denies_unknown :
    ∃ m m', exec (AclManager.step negativeConfig plainEnv) (.new negativeConfig .empty)
        [.access aliceCall, .invalidate ["alice:*"]] = some m ∧
      m.evaluateAccess negativeConfig plainEnv aliceCall = some (false, m') ∧
      (((evaluateRules plainEnv.engine (m.storage.getRulesForPrincipal "alice")
          aliceCall.request).isAllowed = true → false = true) ↔
        (∀ rule ∈ m.storage.getRulesForPrincipal "alice",
            Applies plainEnv.engine aliceCall.request rule → rule.rule.effect ≠ .allow) ∨
          ∃ rule ∈ m.storage.getRulesForPrincipal "alice",
            Applies plainEnv.engine aliceCall.request rule ∧ rule.rule.effect = .deny) := by
  have hanswer : answerAfter negativeConfig .empty [.access aliceCall, .invalidate ["alice:*"]]
    aliceCall = some false := by decide +kernel
  obtain ⟨m, m', hexec, haccess⟩ := of_answerAfter hanswer
  exact ⟨m, m', hexec, haccess, negative_cache_denies rfl hexec haccess⟩

/-- `alice` has an allow rule, and the first request is denied. -/
theorem allowed_request_filtered :
    answerAfter negativeConfig (stored [aliceReads "r" .allow]) [] aliceCall = some false ∧
      (evaluateRules plainEnv.engine ((stored [aliceReads "r" .allow]).getRulesForPrincipal "alice")
          aliceCall.request).isAllowed = true := by
  decide +kernel

end RustMq.Security
