import RustMq.Lib.Runs
import RustMq.Security.AclStorage

/-!
# The ACL manager and its caches

`AclManager` (`src/security/acl/manager.rs`). A request is answered in this order: by the bloom
filter of the negative cache, if that is enabled; from the L1 cache; from a shard of the L2 cache;
from the stored rules. Only the last of the four fills anything: both caches, under the key
`principal:resource:operation`, with the first rule of the principal, or the filter, if the
principal has no rules.

A rule change goes through `RaftAclManager`, which waits on a channel for the result of the
applied operation. The sender of that channel stays in `pending_operations`, and nothing in the
repository takes it out, so a change returns only where something outside it does. The runs below
contain the changes that returned `Ok`: then the storage has performed the operation.
-/

namespace RustMq.Security

open Lib List Function

/-! ## Configuration and environment -/

structure AclConfig where
  cacheSizeMb : Nat
  cacheTtlSeconds : Nat
  l2ShardCount : Nat
  bloomFilterSize : Nat
  negativeCacheEnabled : Bool
  deriving DecidableEq

/-- Regular expressions and the two uses of `DefaultHasher`. -/
structure Env where
  engine : RegexEngine
  /-- `BloomFilter::hash` of an item and a seed. -/
  bloomHash : String → Nat → Nat
  /-- The hash of a cache key that selects its shard. -/
  shardHash : String → Nat

/-! ## The bloom filter -/

structure BloomFilter where
  bits : List Bool
  size : Nat
  deriving DecidableEq

namespace BloomFilter

def hashFunctions : Nat := 3

def new (size : Nat) : BloomFilter := ⟨List.replicate size false, size⟩

def positions (env : Env) (f : BloomFilter) (item : String) : List Nat :=
  (List.range hashFunctions).map fun seed => env.bloomHash item seed % f.size

def add (env : Env) (f : BloomFilter) (item : String) : BloomFilter :=
  { f with bits := (f.positions env item).foldl (fun bits i => bits.set i true) f.bits }

def mightContain (env : Env) (f : BloomFilter) (item : String) : Bool :=
  (f.positions env item).all fun i => f.bits.getD i false

theorem mightContain_new (env : Env) (size : Nat) (item : String) :
    (new size).mightContain env item = false := by
  have hfirst : env.bloomHash item 0 % (new size).size ∈ (new size).positions env item :=
    mem_map.mpr ⟨0, by decide, rfl⟩
  rw [mightContain, all_eq_false]
  refine ⟨_, hfirst, ?_⟩
  rw [new, getD_eq_getElem?_getD, getElem?_replicate]
  split <;> simp

end BloomFilter

/-! ## The caches -/

/-- A cached entry. The source keeps the rule, its compiled patterns and times; `computedFor` is
the principal whose request filled it, which the source does not record. -/
structure CachedAclEntry where
  entry : AclEntry
  cachedAt : Nat
  computedFor : String
  deriving DecidableEq

abbrev AclCache := AList fun _ : String => CachedAclEntry

structure AclManager where
  storage : AclStorage
  l1Cache : AclCache
  l2CacheShards : Nat → AclCache
  bloomFilter : Option BloomFilter

/-- A call of `evaluate_access`: the request, the clock, the keys its evictions pick, and the
index of the rule that the iteration over the stored rules meets first. -/
structure AccessCall where
  request : Request
  now : Nat
  l1Victim : String
  l2Victim : String
  first : Nat
  deriving DecidableEq

def Request.cacheKey (r : Request) : String :=
  r.principal ++ ":" ++ r.resource ++ ":" ++ r.operation.debug

def invalidationKey (principal : String) : String := principal ++ ":*"

/-- Insert into a cache, after an eviction if it is full. -/
def cacheInsert (capacity : Nat) (victim : String) (cache : AclCache) (key : String)
    (entry : CachedAclEntry) : AclCache :=
  (if capacity ≤ cache.entries.length then cache.erase victim else cache).insert key entry

variable {cache : AclCache}

theorem lookup_cacheInsert {capacity : Nat} {victim key k : String} {entry e : CachedAclEntry}
    (h : (cacheInsert capacity victim cache key entry).lookup k = some e) :
    (k = key ∧ e = entry) ∨ cache.lookup k = some e := by
  rw [cacheInsert] at h
  by_cases hk : k = key
  · subst hk
    rw [AList.lookup_insert] at h
    exact .inl ⟨rfl, (Option.some.inj h).symm⟩
  · rw [AList.lookup_insert_ne hk] at h
    split at h
    · by_cases hv : k = victim
      · subst hv
        rw [AList.lookup_erase] at h
        cases h
      · rw [AList.lookup_erase_ne hv] at h
        exact .inr h
    · exact .inr h

namespace AclManager

def new (cfg : AclConfig) (storage : AclStorage) : AclManager where
  storage := storage
  l1Cache := ∅
  l2CacheShards _ := ∅
  bloomFilter := if cfg.negativeCacheEnabled then some (.new cfg.bloomFilterSize) else none

variable (cfg : AclConfig) (env : Env) (m : AclManager)

def getShardIndex (key : String) : Nat :=
  env.shardHash key % cfg.l2ShardCount

def updateL1Cache (victim key : String) (entry : CachedAclEntry) : AclManager :=
  { m with l1Cache :=
      cacheInsert (cfg.cacheSizeMb * 1024 * 1024 / 1000) victim m.l1Cache key entry }

def updateL2Cache (victim key : String) (entry : CachedAclEntry) : AclManager :=
  let shard := getShardIndex cfg env key
  let cache := cacheInsert 1000 victim (m.l2CacheShards shard) key entry
  { m with l2CacheShards := Function.update m.l2CacheShards shard cache }

def filtered (key : String) : Option Bool :=
  match cfg.negativeCacheEnabled, m.bloomFilter with
  | true, some filter =>
    if filter.size = 0 then none else some (!filter.mightContain env key)
  | _, _ => some false

def fetch (c : AccessCall) : Bool × AclManager :=
  let key := c.request.cacheKey
  -- of the order only the first rule matters: any of them may be it
  let rules := (m.storage.getRulesForPrincipal c.request.principal).rotate c.first
  let decision := (evaluateRules env.engine rules c.request).isAllowed
  match rules with
  | rule :: _ =>
    let entry : CachedAclEntry :=
      ⟨createCachedEntry env.engine rule.rule, c.now, c.request.principal⟩
    (decision,
      (m.updateL2Cache cfg env c.l2Victim key entry).updateL1Cache cfg c.l1Victim key entry)
  | [] =>
    if cfg.negativeCacheEnabled then
      (decision, { m with bloomFilter := m.bloomFilter.map fun filter => filter.add env key })
    else (decision, m)

def evaluateAccess (c : AccessCall) : Option (Bool × AclManager) := do
  let key := c.request.cacheKey
  let denied ← m.filtered cfg env key
  if denied then return (false, m)
  match m.l1Cache.lookup key with
  | some cached => return (evaluateCachedEntry env.engine cached.entry c.request, m)
  | none =>
    if cfg.l2ShardCount = 0 then none
    else
      match (m.l2CacheShards (getShardIndex cfg env key)).lookup key with
      | some cached =>
        return (evaluateCachedEntry env.engine cached.entry c.request,
          m.updateL1Cache cfg c.l1Victim key cached)
      | none => return m.fetch cfg env c

def invalidateCache (keys : List String) : AclManager where
  storage := m.storage
  l1Cache := keys.foldl (fun cache key => cache.erase key) m.l1Cache
  l2CacheShards := keys.foldl (fun shards key =>
    Function.update shards (getShardIndex cfg env key)
      ((shards (getShardIndex cfg env key)).erase key)) m.l2CacheShards
  bloomFilter :=
    if cfg.negativeCacheEnabled then some (.new cfg.bloomFilterSize) else m.bloomFilter

def cleanupExpired (now : Nat) : AclManager :=
  let expired (cache : AclCache) : List String :=
    (cache.entries.filter fun e => cfg.cacheTtlSeconds ≤ now - e.2.cachedAt).map Sigma.fst
  let keep (cache : AclCache) : AclCache :=
    (expired cache).foldl (fun cache key => cache.erase key) cache
  { m with l1Cache := keep m.l1Cache, l2CacheShards := fun shard => keep (m.l2CacheShards shard) }

/-! ## Rule changes -/

def principalCharacter (c : Char) : Bool := c.isAlphanum || ['-', '.', '_', '*'].contains c

/-- `validate_rule`; a resource pattern may also hold a slash. -/
def validateRule (rule : AclRule) : Bool :=
  rule.id.utf8ByteSize ≤ 100 &&
    (rule.principal ≠ "" && rule.principal.toList.all principalCharacter) &&
    (rule.resource.pattern ≠ "" &&
      rule.resource.pattern.toList.all fun c => principalCharacter c || c = '/') &&
    !rule.operations.isEmpty && rule.conditions.length ≤ 20 &&
    rule.conditions.all fun c => c.1.utf8ByteSize ≤ 100 && c.2.utf8ByteSize ≤ 1000

def createAclRule (rule : AclRule) (uuid : String) : Option AclManager :=
  if validateRule rule then
    match m.storage.createRule rule uuid with
    | .ok (_, storage) =>
      some ({ m with storage := storage }.invalidateCache cfg env [invalidationKey rule.principal])
    | .error _ => none
  else none

def updateAclRule (id : String) (rule : AclRule) : Option AclManager :=
  if validateRule rule then
    let old := m.storage.getRule id
    match m.storage.updateRule id rule with
    | .ok storage =>
      let keys := invalidationKey rule.principal ::
        ((old.filter fun o => o.rule.principal ≠ rule.principal).map fun o =>
          invalidationKey o.rule.principal).toList
      some ({ m with storage := storage }.invalidateCache cfg env keys)
    | .error _ => none
  else none

def deleteAclRule (id : String) : Option AclManager :=
  match m.storage.getRule id with
  | none => none
  | some rule =>
    match m.storage.deleteRule id with
    | .ok storage =>
      some ({ m with storage := storage }.invalidateCache cfg env
        [invalidationKey rule.rule.principal])
    | .error _ => none

end AclManager

/-! ## Runs -/

inductive ManagerCall where
  | access (call : AccessCall)
  | invalidate (keys : List String)
  | cleanup (now : Nat)
  | create (rule : AclRule) (uuid : String)
  | update (id : String) (rule : AclRule)
  | delete (id : String)

def AclManager.step (cfg : AclConfig) (env : Env) (m : AclManager) :
    ManagerCall → Option AclManager
  | .access call => (m.evaluateAccess cfg env call).map Prod.snd
  | .invalidate keys => some (m.invalidateCache cfg env keys)
  | .cleanup now => some (m.cleanupExpired cfg now)
  | .create rule uuid => m.createAclRule cfg env rule uuid
  | .update id rule => m.updateAclRule cfg env id rule
  | .delete id => m.deleteAclRule cfg env id

/-! ## What one call can do -/

def AclManager.Caches (cfg : AclConfig) (env : Env) (m : AclManager) (key : String)
    (e : CachedAclEntry) : Prop :=
  m.l1Cache.lookup key = some e ∨
    (m.l2CacheShards (AclManager.getShardIndex cfg env key)).lookup key = some e

section Calls

variable {cfg : AclConfig} {env : Env} {m m' : AclManager} {c : AccessCall} {keys : List String}

theorem AclManager.fetch_fst (c : AccessCall) : (m.fetch cfg env c).1 = (evaluateRules env.engine
      (m.storage.getRulesForPrincipal c.request.principal) c.request).isAllowed := by
  rw [← evaluateRules_isAllowed_rotate _ _ _ c.first, fetch]
  split
  · rfl
  · split <;> rfl

/-- **An access.** It is denied by the filter, answered from a cached entry of its key, or
answered from the stored rules. -/
theorem AclManager.evaluateAccess_cases {b : Bool} (h : m.evaluateAccess cfg env c = some (b, m')) :
    (m.filtered cfg env c.request.cacheKey = some true ∧ b = false ∧ m' = m) ∨
    (m.filtered cfg env c.request.cacheKey = some false ∧
      ((∃ e, m.Caches cfg env c.request.cacheKey e ∧
          b = evaluateCachedEntry env.engine e.entry c.request ∧
          (m' = m ∨ m' = m.updateL1Cache cfg c.l1Victim c.request.cacheKey e)) ∨
        (b, m') = m.fetch cfg env c)) := by
  simp only [evaluateAccess, Option.bind_eq_bind, Option.bind_eq_some_iff] at h
  obtain ⟨denied, hfilter, h⟩ := h
  cases denied with
  | true =>
    cases h
    exact .inl ⟨hfilter, rfl, rfl⟩
  | false =>
    refine .inr ⟨hfilter, ?_⟩
    simp only [Bool.false_eq_true, if_false] at h
    cases hl1 : m.l1Cache.lookup c.request.cacheKey with
    | some e =>
      rw [hl1] at h
      cases h
      exact .inl ⟨e, .inl hl1, rfl, .inl rfl⟩
    | none =>
      rw [hl1] at h
      simp only at h
      split at h
      · cases h
      · cases hl2 : (m.l2CacheShards (getShardIndex cfg env c.request.cacheKey)).lookup
            c.request.cacheKey with
        | some e =>
          rw [hl2] at h
          cases h
          exact .inl ⟨e, .inr hl2, rfl, .inr rfl⟩
        | none =>
          rw [hl2] at h
          exact .inr (Option.some.inj h).symm

variable {victim key k : String} {entry e : CachedAclEntry}

theorem AclManager.caches_of_updateL1Cache
    (h : (m.updateL1Cache cfg victim key entry).Caches cfg env k e) :
    (k = key ∧ e = entry) ∨ m.Caches cfg env k e := by
  rcases h with h | h
  · exact (lookup_cacheInsert h).imp_right .inl
  · exact .inr (.inr h)

theorem AclManager.caches_of_updateL2Cache
    (h : (m.updateL2Cache cfg env victim key entry).Caches cfg env k e) :
    (k = key ∧ e = entry) ∨ m.Caches cfg env k e := by
  rcases h with h | h
  · exact .inr (.inl h)
  · simp only [updateL2Cache, update_apply] at h
    split at h
    · rename_i hsame
      rw [← hsame] at h
      exact (lookup_cacheInsert h).imp_right .inr
    · exact .inr (.inr h)

/-- **What an access leaves in the caches** was there before, or is the first rule of the principal.
-/
theorem AclManager.caches_of_access {b : Bool} (h : m.evaluateAccess cfg env c = some (b, m')) :
    m'.storage = m.storage ∧ ∀ k e, m'.Caches cfg env k e → m.Caches cfg env k e ∨
      (k = c.request.cacheKey ∧ m.filtered cfg env k = some false ∧
        ∃ rule ∈ m.storage.getRulesForPrincipal c.request.principal,
          e = ⟨createCachedEntry env.engine rule.rule, c.now, c.request.principal⟩) := by
  rcases AclManager.evaluateAccess_cases h with ⟨-, -, rfl⟩ | ⟨hfilter, hcached | hfetch⟩
  · exact ⟨rfl, fun k e he => .inl he⟩
  · obtain ⟨e₀, he₀, -, rfl | rfl⟩ := hcached
    · exact ⟨rfl, fun k e he => .inl he⟩
    · refine ⟨rfl, fun k e he => .inl ?_⟩
      rcases AclManager.caches_of_updateL1Cache he with ⟨rfl, rfl⟩ | he
      · exact he₀
      · exact he
  · rw [fetch] at hfetch
    cases hrules : (m.storage.getRulesForPrincipal c.request.principal).rotate c.first with
    | nil =>
      simp only [hrules] at hfetch
      split at hfetch <;> cases hfetch <;> exact ⟨rfl, fun k e he => .inl he⟩
    | cons rule rest =>
      simp only [hrules] at hfetch
      cases hfetch
      have hmem : rule ∈ m.storage.getRulesForPrincipal c.request.principal := by
        rw [← mem_rotate, hrules]
        exact mem_cons_self
      refine ⟨rfl, fun k e he => ?_⟩
      rcases AclManager.caches_of_updateL1Cache he with ⟨rfl, rfl⟩ | he
      · exact .inr ⟨rfl, hfilter, rule, hmem, rfl⟩
      · rcases AclManager.caches_of_updateL2Cache he with ⟨rfl, rfl⟩ | he
        · exact .inr ⟨rfl, hfilter, rule, hmem, rfl⟩
        · exact .inl he

theorem lookup_foldl_erase
    (h : (keys.foldl (fun cache key => cache.erase key) cache).lookup k = some e) :
    cache.lookup k = some e := by
  induction keys generalizing cache with
  | nil => exact h
  | cons key keys ih =>
    have hkept := ih h
    by_cases hk : k = key
    · subst hk
      rw [AList.lookup_erase] at hkept
      cases hkept
    · rwa [AList.lookup_erase_ne hk] at hkept

theorem AclManager.caches_of_invalidateCache
    (h : (m.invalidateCache cfg env keys).Caches cfg env k e) : m.Caches cfg env k e := by
  rcases h with h | h
  · exact .inl (lookup_foldl_erase h)
  · refine .inr ?_
    have hshards : ∀ (keys : List String) (shards : Nat → AclCache) (i : Nat),
        ((keys.foldl (fun shards key => update shards (getShardIndex cfg env key)
          ((shards (getShardIndex cfg env key)).erase key)) shards) i).lookup k = some e →
        (shards i).lookup k = some e := by
      intro keys
      induction keys with
      | nil => exact fun _ _ h => h
      | cons key keys ih =>
        intro shards i h
        have hkept := ih _ i h
        simp only [update_apply] at hkept
        split at hkept
        · rename_i hi
          by_cases hk : k = key
          · subst hk
            rw [AList.lookup_erase] at hkept
            cases hkept
          · rw [AList.lookup_erase_ne hk] at hkept
            rw [hi]
            exact hkept
        · exact hkept
    exact hshards keys m.l2CacheShards _ h

theorem AclManager.caches_of_cleanupExpired {now : Nat}
    (h : (m.cleanupExpired cfg now).Caches cfg env k e) : m.Caches cfg env k e := by
  rcases h with h | h
  · exact .inl (lookup_foldl_erase h)
  · exact .inr (lookup_foldl_erase h)

theorem AclManager.not_caches_new {storage : AclStorage} :
    ¬ (AclManager.new cfg storage).Caches cfg env k e := by
  rintro (h | h) <;> simp [AclManager.new] at h

/-- The calls of a run. A rule change that returned `Ok` has changed the storage, and then it
invalidates keys. -/
inductive AclManager.Step (cfg : AclConfig) (env : Env) (m : AclManager) :
    ManagerCall → AclManager → Prop
  | access {c : AccessCall} {b : Bool} {m' : AclManager}
    (h : m.evaluateAccess cfg env c = some (b, m')) : Step cfg env m (.access c) m'
  | invalidate {keys : List String} :
    Step cfg env m (.invalidate keys) (m.invalidateCache cfg env keys)
  | cleanup {now : Nat} : Step cfg env m (.cleanup now) (m.cleanupExpired cfg now)
  | create {rule : AclRule} {uuid id : String} {storage : AclStorage} {keys : List String}
    (h : m.storage.createRule rule uuid = .ok (id, storage)) :
    Step cfg env m (.create rule uuid)
      ({ m with storage := storage }.invalidateCache cfg env keys)
  | update {id : String} {rule : AclRule} {storage : AclStorage} {keys : List String}
    (h : m.storage.updateRule id rule = .ok storage) :
    Step cfg env m (.update id rule) ({ m with storage := storage }.invalidateCache cfg env keys)
  | delete {id : String} {storage : AclStorage} {keys : List String}
    (h : m.storage.deleteRule id = .ok storage) :
    Step cfg env m (.delete id) ({ m with storage := storage }.invalidateCache cfg env keys)

theorem AclManager.step_cases {call : ManagerCall} (h : m.step cfg env call = some m') :
    m.Step cfg env call m' := by
  cases call with
  | access c =>
    obtain ⟨⟨b, m''⟩, haccess, rfl⟩ := Option.map_eq_some_iff.mp h
    exact .access haccess
  | invalidate keys =>
    cases h
    exact .invalidate
  | cleanup now =>
    cases h
    exact .cleanup
  | create rule uuid =>
    simp only [AclManager.step, AclManager.createAclRule] at h
    split at h
    · split at h
      · cases h
        exact .create ‹_›
      · cases h
    · cases h
  | update id rule =>
    simp only [AclManager.step, AclManager.updateAclRule] at h
    split at h
    · split at h
      · cases h
        exact .update ‹_›
      · cases h
    · cases h
  | delete id =>
    simp only [AclManager.step, AclManager.deleteAclRule] at h
    split at h
    · cases h
    · split at h
      · cases h
        exact .delete ‹_›
      · cases h

end Calls
end RustMq.Security
