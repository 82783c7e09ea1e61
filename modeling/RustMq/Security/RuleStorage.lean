import RustMq.Lib.MapCodec
import RustMq.Lib.Runs
import RustMq.Security.AclStorage

/-!
# The four places of a stored rule

`ObjectStorageAclStorage` (`src/security/acl/storage.rs`) as it stands in the source. A rule lives
in the object storage, in a byte cache in front of it, and in two indices in memory: the ids that
are taken, and the ids under each principal pattern. `AclStorage` keeps one map for the first two;
here they are apart, because a restart and a restored snapshot touch only some of the four.

The object storage is a map, by rule id: the key `{prefix}rules/{id}.json` determines the id, and
`list` enumerates what was put. The local storage is such a map for ids that `key_to_path` keeps
(`PlainId` in `RuleLookup`); results about runs ask for such ids. JSON is taken as faithful, so both maps hold rules. A
`put` may fail, and it may also store the object and report a failure. The cache may lose an entry
at any time.

A missing object is `NotFound` in both object storages of the repository. `get_rule` looks for
`ObjectNotFound`, so its `Ok(None)` is never taken: a rule that is not there is an error.
-/

namespace RustMq.Security

open Lib SMap

variable {id : String}

namespace PrincipalIndex

def ids (index : PrincipalIndex) (pattern : String) : List String :=
  (index.lookup pattern).getD []

theorem ids_addId (index : PrincipalIndex) (pattern id p : String) :
    (index.addId pattern id).ids p =
      if p = pattern then (if id ∈ index.ids pattern then index.ids pattern
        else id :: index.ids pattern) else index.ids p := by
  by_cases hp : p = pattern
  · subst hp
    rw [ids, addId, AList.lookup_insert, if_pos rfl]
    rfl
  · simp [ids, addId, hp, AList.lookup_insert_ne hp]

theorem ids_removeId (index : PrincipalIndex) (pattern id p : String) :
    (index.removeId pattern id).ids p =
      if p = pattern then (index.ids pattern).filter (· ≠ id) else index.ids p := by
  cases hlookup : index.lookup pattern with
  | none =>
    by_cases hp : p = pattern
    · subst hp
      simp [ids, removeId, hlookup]
    · simp [ids, removeId, hlookup, hp]
  | some old =>
    by_cases hp : p = pattern
    · subst hp
      simp [ids, removeId, hlookup]
    · simp [ids, removeId, hlookup, hp, AList.lookup_insert_ne hp]

variable {index : PrincipalIndex} {pattern p i : String} {rules : List VersionedAclRule}

theorem mem_ids_addId :
    i ∈ (index.addId pattern id).ids p ↔ i ∈ index.ids p ∨ (p = pattern ∧ i = id) := by
  rw [ids_addId]
  by_cases hp : p = pattern
  · subst hp
    by_cases hid : id ∈ index.ids p
    · simp only [if_true, hid]
      constructor
      · exact .inl
      · rintro (hi | ⟨-, rfl⟩)
        · exact hi
        · exact hid
    · simp [hid, or_comm]
  · simp [hp]

theorem mem_ids_removeId :
    i ∈ (index.removeId pattern id).ids p ↔ i ∈ index.ids p ∧ ¬ (p = pattern ∧ i = id) := by
  rw [ids_removeId]
  by_cases hp : p = pattern
  · subst hp
    simp
  · simp [hp]

def Distinct (index : PrincipalIndex) : Prop := ∀ pattern, (index.ids pattern).Nodup

theorem Distinct.addId (h : index.Distinct) (pattern id : String) :
    (index.addId pattern id).Distinct := by
  intro p
  rw [ids_addId]
  split
  · split
    · exact h pattern
    · rename_i hid
      exact List.nodup_cons.mpr ⟨hid, h pattern⟩
  · exact h p

theorem Distinct.removeId (h : index.Distinct) (pattern id : String) :
    (index.removeId pattern id).Distinct := by
  intro p
  rw [ids_removeId]
  split
  · exact (h pattern).filter _
  · exact h p

def ofRules (rules : List VersionedAclRule) : PrincipalIndex :=
  rules.foldl (fun index rule => index.addId rule.rule.principal rule.rule.id) ∅

theorem mem_ids_foldl_addId :
    i ∈ (rules.foldl (fun index rule => index.addId rule.rule.principal rule.rule.id) index).ids p ↔
      i ∈ index.ids p ∨ ∃ rule ∈ rules, rule.rule.principal = p ∧ rule.rule.id = i := by
  induction rules generalizing index with
  | nil => simp
  | cons rule rules ih =>
    rw [List.foldl_cons, ih, mem_ids_addId]
    simp [or_assoc, eq_comm]

theorem mem_ids_ofRules :
    i ∈ (ofRules rules).ids p ↔ ∃ rule ∈ rules, rule.rule.principal = p ∧ rule.rule.id = i := by
  rw [ofRules, mem_ids_foldl_addId]
  simp [ids]

theorem distinct_empty : Distinct ∅ := by
  intro pattern
  simp [ids]

theorem distinct_ofRules (rules : List VersionedAclRule) : (ofRules rules).Distinct := by
  have h : ∀ index : PrincipalIndex, index.Distinct →
      (rules.foldl (fun index rule => index.addId rule.rule.principal rule.rule.id)
        index).Distinct := by
    induction rules with
    | nil => exact fun _ h => h
    | cons rule rules ih => exact fun _ h => ih _ (h.addId _ _)
  exact h ∅ distinct_empty

end PrincipalIndex

/-! ## The storage -/

structure RuleStorage where
  objects : SMap String VersionedAclRule
  cache : SMap String VersionedAclRule
  versionCounter : Nat
  ruleIndex : List String
  principalIndex : PrincipalIndex

/-- How an object `put` ends: stored, stored but reported as failed, or failed. -/
inductive PutResult where
  | stored | unreported | failed
  deriving DecidableEq

inductive StorageError where
  | alreadyExists (id : String)
  | notFound (id : String)
  | putFailed
  deriving DecidableEq

namespace RuleStorage

def loadAllRules (s : RuleStorage) : List VersionedAclRule := s.objects.entries.map Prod.snd

/-- `new` over the objects, with an empty cache: `initialize_indices` reads the indices and the
version counter off all rules, the deleted ones included. -/
def new (objects : SMap String VersionedAclRule) : RuleStorage :=
  let rules := objects.entries.map Prod.snd
  { objects := objects
    cache := .empty
    versionCounter := rules.foldl (fun version rule => max version rule.version) 0
    ruleIndex := rules.map fun rule => rule.rule.id
    principalIndex := .ofRules rules }

def rule? (s : RuleStorage) (id : String) : Option VersionedAclRule :=
  (s.cache.get? id).or (s.objects.get? id)

def getRule (s : RuleStorage) (id : String) :
    Except StorageError VersionedAclRule × RuleStorage :=
  match s.cache.get? id with
  | some rule => (.ok rule, s)
  | none =>
    match s.objects.get? id with
    | some rule => (.ok rule, { s with cache := s.cache.insert id rule })
    | none => (.error (.notFound id), s)

/-- The next version goes to the rule, the rule to the object storage, and what follows a `put`
that returned `Ok` is `finish`. -/
def putRule (s : RuleStorage) (id : String) (rule : Nat → VersionedAclRule) (put : PutResult)
    (finish : VersionedAclRule → RuleStorage → RuleStorage) :
    Except StorageError Unit × RuleStorage :=
  let version := s.versionCounter + 1
  let consumed := { s with versionCounter := version }
  let written := { consumed with objects := s.objects.insert id (rule version) }
  match put with
  | .stored => (.ok (), finish (rule version) written)
  | .unreported => (.error .putFailed, written)
  | .failed => (.error .putFailed, consumed)

def createRule (s : RuleStorage) (rule : AclRule) (uuid : String) (put : PutResult) :
    Except StorageError String × RuleStorage :=
  let id := if rule.id = "" then uuid else rule.id
  if id ∈ s.ruleIndex then (.error (.alreadyExists id), s)
  else
    let result := s.putRule id (fun version => ⟨{ rule with id := id }, version, false⟩) put
      fun versioned s => { s with
        cache := s.cache.insert id versioned
        ruleIndex := id :: s.ruleIndex
        principalIndex := s.principalIndex.addId rule.principal id }
    (result.1.map fun _ => id, result.2)

/-- `update_rule`. A rule that was deleted is in force again; the index is touched only where the
pattern changes. -/
def updateRule (s : RuleStorage) (id : String) (rule : AclRule) (put : PutResult) :
    Except StorageError Unit × RuleStorage :=
  match s.getRule id with
  | (.error e, s) => (.error e, s)
  | (.ok existing, s) =>
    s.putRule id (fun version => ⟨{ rule with id := id }, version, false⟩) put
      fun versioned s => { s with
        cache := s.cache.insert id versioned
        principalIndex :=
          if existing.rule.principal = rule.principal then s.principalIndex
          else (s.principalIndex.removeId existing.rule.principal id).addId rule.principal id }

def deleteRule (s : RuleStorage) (id : String) (put : PutResult) :
    Except StorageError Unit × RuleStorage :=
  match s.getRule id with
  | (.error e, s) => (.error e, s)
  | (.ok existing, s) =>
    s.putRule id (fun version => { existing with deleted := true, version := version }) put
      fun _ s => { s with
        cache := s.cache.erase id
        principalIndex := s.principalIndex.removeId existing.rule.principal id }

/-! ## Queries -/

def liveRule (s : RuleStorage) (id : String) : Option VersionedAclRule :=
  (s.rule? id).filter fun rule => !rule.deleted

def getRulesForPrincipal (s : RuleStorage) (principal : String) : List VersionedAclRule :=
  (s.principalIndex.ids principal).filterMap s.liveRule ++
    s.principalIndex.entries.flatMap fun entry =>
      if AclStorage.starMatches entry.1 principal then entry.2.filterMap s.liveRule else []

structure AclRuleFilter where
  principal : Option String
  resourcePattern : Option String
  operations : Option (List AclOperation)
  effect : Option Effect
  versionRange : Option (Nat × Nat)
  includeDeleted : Bool
  limit : Option Nat

def AclRuleFilter.accepts (f : AclRuleFilter) (rule : VersionedAclRule) : Bool :=
  (!rule.deleted || f.includeDeleted) &&
    f.principal.all (fun principal => rule.rule.principal = principal) &&
    f.resourcePattern.all (fun pattern => rule.rule.resource.pattern = pattern) &&
    f.operations.all (fun operations => operations.any rule.rule.operations.contains) &&
    f.effect.all (fun effect => rule.rule.effect = effect) &&
    f.versionRange.all fun range => range.1 ≤ rule.version && rule.version ≤ range.2

/-- `list_rules`. The limit is tested after a rule was taken, so a limit of zero gives one. -/
def listRules (s : RuleStorage) (f : AclRuleFilter) : List VersionedAclRule :=
  let accepted := s.loadAllRules.filter f.accepts
  match f.limit with
  | some limit => accepted.take (max 1 limit)
  | none => accepted

def getVersion (s : RuleStorage) : Nat := s.versionCounter

def getRulesSinceVersion (s : RuleStorage) (version : Nat) : List VersionedAclRule :=
  s.loadAllRules.filter fun rule => version < rule.version

/-! ## Runs -/

/-- A call, with the outcome of its `put`, or something the environment does: a read that fills
the cache, an entry the cache drops, a restart over the same objects. -/
inductive Call where
  | create (rule : AclRule) (uuid : String) (put : PutResult)
  | update (id : String) (rule : AclRule) (put : PutResult)
  | delete (id : String) (put : PutResult)
  | read (id : String)
  | evict (id : String)
  | restart

def apply (s : RuleStorage) : Call → RuleStorage
  | .create rule uuid put => (s.createRule rule uuid put).2
  | .update id rule put => (s.updateRule id rule put).2
  | .delete id put => (s.deleteRule id put).2
  | .read id => (s.getRule id).2
  | .evict id => { s with cache := s.cache.erase id }
  | .restart => .new s.objects

def step (s : RuleStorage) (call : Call) : Option RuleStorage := some (s.apply call)

def empty : RuleStorage := .new .empty

/-! ## What a call does -/

def Call.put : Call → Option PutResult
  | .create _ _ put => some put
  | .update _ _ put => some put
  | .delete _ put => some put
  | _ => none

/-- Objects and indices are as before; the cache has lost entries, or gained some of the objects. -/
structure Untouched (s s' : RuleStorage) : Prop where
  objects : s'.objects = s.objects
  ruleIndex : s'.ruleIndex = s.ruleIndex
  principalIndex : s'.principalIndex = s.principalIndex
  cache : ∀ id rule, s'.cache.get? id = some rule →
    s.cache.get? id = some rule ∨ s.objects.get? id = some rule

theorem Untouched.refl (s : RuleStorage) : Untouched s s := by
  constructor
  · rfl
  · rfl
  · rfl
  · exact fun _ _ h => .inl h

/-- The rule a call writes under an id, and the version it takes. -/
structure Writes (s s' : RuleStorage) (id : String) (rule : VersionedAclRule) : Prop where
  version : rule.version = s.versionCounter + 1
  counter : s'.versionCounter = s.versionCounter + 1
  objects : s'.objects = s.objects.insert id rule

/-- **A call** changes nothing, loses a version, writes an object without noticing, or writes it
together with the cache and the indices; a restart rebuilds everything from the objects. -/
inductive Change (s : RuleStorage) : Call → RuleStorage → Prop
  | untouched {call : Call} {s' : RuleStorage} (h : Untouched s s')
      (counter : s'.versionCounter = s.versionCounter) : Change s call s'
  | consumed {call : Call} {s' : RuleStorage} (h : Untouched s s')
      (put : call.put = some .failed)
      (counter : s'.versionCounter = s.versionCounter + 1) : Change s call s'
  | unreported {call : Call} {s' : RuleStorage} {id : String} {rule : VersionedAclRule}
      (put : call.put = some .unreported) (h : Writes s s' id rule)
      (keyed : (∀ old, s.rule? id = some old → old.rule.id = id) → rule.rule.id = id)
      (cache : ∀ i r, s'.cache.get? i = some r →
        s.cache.get? i = some r ∨ s.objects.get? i = some r) : Change s call s'
  | created {rule : AclRule} {uuid id : String} {s' : RuleStorage}
      (hid : id = if rule.id = "" then uuid else rule.id) (fresh : id ∉ s.ruleIndex)
      (h : Writes s s' id ⟨{ rule with id := id }, s.versionCounter + 1, false⟩)
      (cache : ∀ i, s'.cache.get? i = if i = id then
        some ⟨{ rule with id := id }, s.versionCounter + 1, false⟩ else s.cache.get? i)
      (ruleIndex : s'.ruleIndex = id :: s.ruleIndex)
      (principalIndex : s'.principalIndex = s.principalIndex.addId rule.principal id) :
      Change s (.create rule uuid .stored) s'
  | updated {rule : AclRule} {id : String} {existing : VersionedAclRule} {s' : RuleStorage}
      (exists_ : s.rule? id = some existing)
      (h : Writes s s' id ⟨{ rule with id := id }, s.versionCounter + 1, false⟩)
      (cache : ∀ i, s'.cache.get? i = if i = id then
        some ⟨{ rule with id := id }, s.versionCounter + 1, false⟩ else s.cache.get? i)
      (ruleIndex : s'.ruleIndex = s.ruleIndex)
      (principalIndex : s'.principalIndex =
        if existing.rule.principal = rule.principal then s.principalIndex
        else (s.principalIndex.removeId existing.rule.principal id).addId rule.principal id) :
      Change s (.update id rule .stored) s'
  | deleted {id : String} {existing : VersionedAclRule} {s' : RuleStorage}
      (exists_ : s.rule? id = some existing)
      (h : Writes s s' id { existing with deleted := true, version := s.versionCounter + 1 })
      (cache : ∀ i, s'.cache.get? i = if i = id then none else s.cache.get? i)
      (ruleIndex : s'.ruleIndex = s.ruleIndex)
      (principalIndex : s'.principalIndex =
        s.principalIndex.removeId existing.rule.principal id) :
      Change s (.delete id .stored) s'
  | restarted : Change s .restart (.new s.objects)

variable {s : RuleStorage} {rule : VersionedAclRule} {call : Call} {calls : List Call}
  {s' : RuleStorage}

theorem getRule_of_none (h : s.rule? id = none) : s.getRule id = (.error (.notFound id), s) := by
  rw [rule?, Option.or_eq_none_iff] at h
  simp [getRule, h.1, h.2]

theorem getRule_of_some (h : s.rule? id = some rule) :
    ∃ cache, s.getRule id = (.ok rule, { s with cache := cache }) ∧
      (∀ i, i ≠ id → cache.get? i = s.cache.get? i) ∧
      ∀ i r, cache.get? i = some r → s.cache.get? i = some r ∨ s.objects.get? i = some r := by
  rw [rule?] at h
  cases hcache : s.cache.get? id with
  | some cached =>
    rw [hcache, Option.some_or] at h
    cases h
    refine ⟨s.cache, ?_, fun _ _ => rfl, fun _ _ hr => .inl hr⟩
    simp [getRule, hcache]
  | none =>
    rw [hcache, Option.none_or] at h
    refine ⟨s.cache.insert id rule, ?_, ?_, ?_⟩
    · simp [getRule, hcache, h]
    · intro i hi
      rw [get?_insert, if_neg hi]
    · intro i r hr
      rcases of_get?_insert hr with ⟨hi, rfl⟩ | ⟨-, hr⟩
      · exact .inr (hi ▸ h)
      · exact .inl hr

section

variable (s)

theorem getRule_fst (id : String) : (s.getRule id).1 = match s.rule? id with
      | some rule => .ok rule
      | none => .error (.notFound id) := by
  cases hrule : s.rule? id with
  | none => rw [getRule_of_none hrule]
  | some rule =>
    obtain ⟨cache, heq, -, -⟩ := getRule_of_some hrule
    rw [heq]

theorem change_read (id : String) : Change s (.read id) (s.getRule id).2 := by
  cases h : s.rule? id with
  | none =>
    rw [getRule_of_none h]
    exact .untouched (.refl s) rfl
  | some rule =>
    obtain ⟨cache, heq, -, hcache⟩ := getRule_of_some h
    rw [heq]
    exact .untouched ⟨rfl, rfl, rfl, hcache⟩ rfl

theorem change_create (rule : AclRule) (uuid : String) (put : PutResult) :
    Change s (.create rule uuid put) (s.createRule rule uuid put).2 := by
  rw [createRule]
  by_cases hid : (if rule.id = "" then uuid else rule.id) ∈ s.ruleIndex
  · simp only [hid, if_true]
    exact .untouched (.refl s) rfl
  · simp only [hid, if_false]
    cases put with
    | stored =>
      refine .created rfl hid ⟨rfl, rfl, rfl⟩ ?_ rfl rfl
      intro i
      exact get?_insert _ _ _ _
    | unreported => exact .unreported rfl ⟨rfl, rfl, rfl⟩ (fun _ => rfl) fun _ _ h => .inl h
    | failed => exact .consumed ⟨rfl, rfl, rfl, fun _ _ h => .inl h⟩ rfl rfl

theorem change_update (id : String) (rule : AclRule) (put : PutResult) :
    Change s (.update id rule put) (s.updateRule id rule put).2 := by
  rw [updateRule]
  cases hexists : s.rule? id with
  | none =>
    rw [getRule_of_none hexists]
    exact .untouched (.refl s) rfl
  | some existing =>
    obtain ⟨cache, heq, hothers, hcache⟩ := getRule_of_some hexists
    rw [heq]
    cases put with
    | stored =>
      refine .updated hexists ⟨rfl, rfl, rfl⟩ ?_ rfl rfl
      intro i
      simp only [putRule, get?_insert]
      split
      · rfl
      · rename_i hi
        exact hothers i hi
    | unreported => exact .unreported rfl ⟨rfl, rfl, rfl⟩ (fun _ => rfl) hcache
    | failed => exact .consumed ⟨rfl, rfl, rfl, hcache⟩ rfl rfl

theorem change_delete (id : String) (put : PutResult) :
    Change s (.delete id put) (s.deleteRule id put).2 := by
  rw [deleteRule]
  cases hexists : s.rule? id with
  | none =>
    rw [getRule_of_none hexists]
    exact .untouched (.refl s) rfl
  | some existing =>
    obtain ⟨cache, heq, hothers, hcache⟩ := getRule_of_some hexists
    rw [heq]
    cases put with
    | stored =>
      refine .deleted hexists ⟨rfl, rfl, rfl⟩ ?_ rfl rfl
      intro i
      simp only [putRule, get?_erase]
      split
      · rfl
      · rename_i hi
        exact hothers i hi
    | unreported =>
      exact .unreported rfl ⟨rfl, rfl, rfl⟩ (fun hkeyed => hkeyed existing hexists) hcache
    | failed => exact .consumed ⟨rfl, rfl, rfl, hcache⟩ rfl rfl

theorem change_apply (call : Call) : Change s call (s.apply call) := by
  cases call with
  | create rule uuid put => exact change_create s rule uuid put
  | update id rule put => exact change_update s id rule put
  | delete id put => exact change_delete s id put
  | read id => exact change_read s id
  | evict id =>
    refine .untouched ⟨rfl, rfl, rfl, ?_⟩ rfl
    intro i r hr
    exact .inl (of_get?_erase hr)
  | restart => exact .restarted

end

/-! ## What every call keeps -/

/-- Cache and indices agree with the objects: a cached rule is the stored one, a rule stands under
its own id, and an id in the index belongs to a stored rule with that pattern. -/
structure Sound (s : RuleStorage) : Prop where
  cached : ∀ id rule, s.cache.get? id = some rule → s.objects.get? id = some rule
  keyed : ∀ id rule, s.objects.get? id = some rule → rule.rule.id = id
  indexed : ∀ pattern id, id ∈ s.principalIndex.ids pattern →
    ∃ rule, s.objects.get? id = some rule ∧ rule.rule.principal = pattern
  distinct : s.principalIndex.Distinct

/-- Sound, and every stored rule has its id taken. -/
structure Registered (s : RuleStorage) : Prop extends Sound s where
  registered : ∀ id rule, s.objects.get? id = some rule → id ∈ s.ruleIndex

/-- Every rule in force stands in the index under its pattern. -/
def Complete (s : RuleStorage) : Prop :=
  ∀ id rule, s.objects.get? id = some rule → rule.deleted = false →
    id ∈ s.principalIndex.ids rule.rule.principal

theorem Sound.rule?_eq (h : Sound s) (id : String) : s.rule? id = s.objects.get? id := by
  rw [rule?]
  cases hcache : s.cache.get? id with
  | none => rfl
  | some rule => rw [h.cached id rule hcache, Option.some_or]

theorem mem_loadAllRules : rule ∈ s.loadAllRules ↔ ∃ id, s.objects.get? id = some rule := by
  simp [loadAllRules, get?_eq_some_iff]

theorem Sound.mem_loadAllRules (h : Sound s) :
    rule ∈ s.loadAllRules ↔ s.objects.get? rule.rule.id = some rule := by
  rw [RuleStorage.mem_loadAllRules]
  constructor
  · rintro ⟨id, hid⟩
    rw [h.keyed id rule hid]
    exact hid
  · exact fun hrule => ⟨_, hrule⟩

section keeps

variable {s : RuleStorage}

theorem Untouched.sound (h : Untouched s s') (hs : Sound s) : Sound s' := by
  constructor
  · intro id rule hrule
    rw [h.objects]
    exact (h.cache id rule hrule).elim (hs.cached id rule) fun hobject => hobject
  · rw [h.objects]
    exact hs.keyed
  · rw [h.objects, h.principalIndex]
    exact hs.indexed
  · rw [h.principalIndex]
    exact hs.distinct

theorem Untouched.registered (h : Untouched s s') (hs : Registered s) : Registered s' := by
  refine ⟨h.sound hs.toSound, ?_⟩
  rw [h.objects, h.ruleIndex]
  exact hs.registered

theorem Untouched.complete (h : Untouched s s') (hs : Complete s) : Complete s' := by
  rw [Complete, h.objects, h.principalIndex]
  exact hs

theorem Sound.write {kept : Option VersionedAclRule} (hs : Sound s) (h : Writes s s' id rule)
    (hkeyed : rule.rule.id = id) (hkept : ∀ r, kept = some r → r = rule)
    (hcache : ∀ i, s'.cache.get? i = if i = id then kept else s.cache.get? i)
    (hindex : ∀ p i, i ∈ s'.principalIndex.ids p →
      (i = id ∧ p = rule.rule.principal) ∨ (i ≠ id ∧ i ∈ s.principalIndex.ids p))
    (hdistinct : s'.principalIndex.Distinct) : Sound s' := by
  constructor
  · intro i r hr
    rw [hcache] at hr
    rw [h.objects, get?_insert]
    split at hr
    · rename_i hi
      rw [if_pos hi, hkept r hr]
    · rename_i hi
      rw [if_neg hi]
      exact hs.cached i r hr
  · intro i r hr
    rw [h.objects] at hr
    rcases of_get?_insert hr with ⟨hi, rfl⟩ | ⟨-, hr⟩
    · rw [hkeyed, hi]
    · exact hs.keyed i r hr
  · intro p i hi
    rw [h.objects, get?_insert]
    rcases hindex p i hi with ⟨hid, rfl⟩ | ⟨hid, hold⟩
    · exact ⟨rule, by rw [if_pos hid], rfl⟩
    · rw [if_neg hid]
      exact hs.indexed p i hold
  · exact hdistinct

theorem Registered.write (hs : Registered s) (hs' : Sound s') (h : Writes s s' id rule)
    (hid : id ∈ s'.ruleIndex) (hids : ∀ i ∈ s.ruleIndex, i ∈ s'.ruleIndex) : Registered s' := by
  refine ⟨hs', ?_⟩
  intro i r hr
  rw [h.objects] at hr
  rcases of_get?_insert hr with ⟨hi, -⟩ | ⟨-, hr⟩
  · rw [hi]
    exact hid
  · exact hids i (hs.registered i r hr)

theorem Sound.pattern_eq (hs : Sound s) {pattern : String} (hrule : s.rule? id = some rule)
    (hid : id ∈ s.principalIndex.ids pattern) : rule.rule.principal = pattern := by
  obtain ⟨r, hr, hpattern⟩ := hs.indexed pattern id hid
  rw [hs.rule?_eq, hr] at hrule
  cases hrule
  exact hpattern

theorem Sound.mem_ids_updated (hs : Sound s) {p i : String} {existing : VersionedAclRule}
    {principal : String} (hexists : s.rule? id = some existing) :
    i ∈ (if existing.rule.principal = principal then s.principalIndex
      else (s.principalIndex.removeId existing.rule.principal id).addId principal id).ids p →
    (i = id ∧ p = principal) ∨ (i ≠ id ∧ i ∈ s.principalIndex.ids p) := by
  intro hi
  by_cases hid : i = id
  · subst hid
    refine .inl ⟨rfl, ?_⟩
    split at hi
    · rename_i hsame
      rw [← hs.pattern_eq hexists hi, hsame]
    · rw [PrincipalIndex.mem_ids_addId, PrincipalIndex.mem_ids_removeId] at hi
      rcases hi with ⟨hold, hne⟩ | ⟨hp, -⟩
      · exact absurd ⟨(hs.pattern_eq hexists hold).symm, rfl⟩ hne
      · exact hp
  · refine .inr ⟨hid, ?_⟩
    split at hi
    · exact hi
    · simpa [PrincipalIndex.mem_ids_addId, PrincipalIndex.mem_ids_removeId, hid] using hi

section

variable {objects : SMap String VersionedAclRule}
  (hkeyed : ∀ id rule, objects.get? id = some rule → rule.rule.id = id)
include hkeyed

theorem registered_new : Registered (.new objects) := by
  refine ⟨⟨?_, hkeyed, ?_, PrincipalIndex.distinct_ofRules _⟩, ?_⟩
  · intro id rule h
    cases h
  · intro pattern id hid
    obtain ⟨rule, hmem, hpattern, rfl⟩ := PrincipalIndex.mem_ids_ofRules.mp hid
    obtain ⟨entry, hentry, rfl⟩ := List.mem_map.mp hmem
    have hget := get?_eq_some_iff.mpr hentry
    rw [hkeyed _ _ hget]
    exact ⟨entry.2, hget, hpattern⟩
  · intro id rule hrule
    refine List.mem_map.mpr ⟨rule, ?_, hkeyed id rule hrule⟩
    exact List.mem_map.mpr ⟨(id, rule), get?_eq_some_iff.mp hrule, rfl⟩

theorem complete_new : Complete (.new objects) := by
  intro id rule hrule _
  refine PrincipalIndex.mem_ids_ofRules.mpr ⟨rule, ?_, rfl, hkeyed id rule hrule⟩
  exact List.mem_map.mpr ⟨(id, rule), get?_eq_some_iff.mp hrule, rfl⟩

end

theorem Registered.change (hs : Registered s) (h : Change s call s')
    (hput : call.put ≠ some .unreported) : Registered s' := by
  cases h with
  | untouched h _ => exact h.registered hs
  | consumed h _ _ => exact h.registered hs
  | unreported put _ _ _ => exact absurd put hput
  | @created rule uuid id _ _ fresh h cache ruleIndex principalIndex =>
    have hsound : Sound s' := by
      refine hs.toSound.write h rfl (fun _ hr => (Option.some.inj hr).symm) cache ?_ ?_
      · intro p i hi
        rw [principalIndex, PrincipalIndex.mem_ids_addId] at hi
        rcases hi with hold | ⟨hp, hi⟩
        · obtain ⟨r, hr, -⟩ := hs.indexed p i hold
          refine .inr ⟨?_, hold⟩
          intro hi
          exact fresh (hi ▸ hs.registered i r hr)
        · exact .inl ⟨hi, hp⟩
      · rw [principalIndex]
        exact hs.distinct.addId _ _
    apply hs.write hsound h
    · simp [ruleIndex]
    · intro i hi
      simp [ruleIndex, hi]
  | @updated rule id existing _ exists_ h cache ruleIndex principalIndex =>
    have hsound : Sound s' := by
      refine hs.toSound.write h rfl (fun _ hr => (Option.some.inj hr).symm) cache ?_ ?_
      · intro p i hi
        rw [principalIndex] at hi
        exact hs.toSound.mem_ids_updated exists_ hi
      · rw [principalIndex]
        split
        · exact hs.distinct
        · exact (hs.distinct.removeId _ _).addId _ _
    rw [hs.toSound.rule?_eq] at exists_
    apply hs.write hsound h
    · rw [ruleIndex]
      exact hs.registered id existing exists_
    · simp [ruleIndex]
  | @deleted id existing _ exists_ h cache ruleIndex principalIndex =>
    have hexists := exists_
    rw [hs.toSound.rule?_eq] at hexists
    have hsound : Sound s' := by
      refine hs.toSound.write h (hs.keyed id existing hexists) ?_ cache ?_ ?_
      · intro r hr
        cases hr
      · intro p i hi
        rw [principalIndex, PrincipalIndex.mem_ids_removeId] at hi
        refine .inr ⟨?_, hi.1⟩
        intro heq
        subst heq
        exact hi.2 ⟨(hs.toSound.pattern_eq exists_ hi.1).symm, rfl⟩
      · rw [principalIndex]
        exact hs.distinct.removeId _ _
    apply hs.write hsound h
    · rw [ruleIndex]
      exact hs.registered id existing hexists
    · simp [ruleIndex]
  | restarted => exact registered_new hs.keyed

end keeps

/-- An update that brings a deleted rule back under the pattern it was deleted with, where the
index has lost the rule. -/
def Call.revives (s : RuleStorage) : Call → Bool
  | .update id rule _ => (s.rule? id).any fun existing => existing.deleted &&
      decide (existing.rule.principal = rule.principal) &&
      !(s.principalIndex.ids rule.principal).contains id
  | _ => false

/-- The `put` of the call reports what it did, and the call loses no rule from the index. -/
def Reindexed (s : RuleStorage) (call : Call) : Prop :=
  call.put ≠ some .unreported ∧ call.revives s = false

instance (s : RuleStorage) (call : Call) : Decidable (Reindexed s call) :=
  inferInstanceAs (Decidable (_ ∧ _))

section keeps

variable {s : RuleStorage}

theorem Complete.write (hs : Complete s) (h : Writes s s' id rule)
    (hnew : rule.deleted = false → id ∈ s'.principalIndex.ids rule.rule.principal)
    (hold : ∀ p i, i ≠ id → i ∈ s.principalIndex.ids p → i ∈ s'.principalIndex.ids p) :
    Complete s' := by
  intro i r hr hlive
  rw [h.objects] at hr
  rcases of_get?_insert hr with ⟨hi, rfl⟩ | ⟨hi, hr⟩
  · rw [hi]
    exact hnew hlive
  · exact hold _ i hi (hs i r hr hlive)

theorem Complete.change (hs : Complete s) (hsound : Registered s) (h : Change s call s')
    (hcall : Reindexed s call) : Complete s' := by
  cases h with
  | untouched h _ => exact h.complete hs
  | consumed h _ _ => exact h.complete hs
  | unreported put _ _ _ => exact absurd put hcall.1
  | created _ _ h _ _ principalIndex =>
    apply hs.write h
    · intro _
      rw [principalIndex, PrincipalIndex.mem_ids_addId]
      exact .inr ⟨rfl, rfl⟩
    · intro p i _ hi
      rw [principalIndex, PrincipalIndex.mem_ids_addId]
      exact .inl hi
  | @updated rule id existing _ exists_ h _ _ principalIndex =>
    apply hs.write h
    · intro _
      rw [principalIndex]
      split
      · rename_i hsame
        have hlost := hcall.2
        rw [Call.revives, exists_] at hlost
        cases hdeleted : existing.deleted with
        | true => simpa [hdeleted, hsame] using hlost
        | false =>
          rw [hsound.toSound.rule?_eq] at exists_
          have hheld := hs id existing exists_ hdeleted
          rw [hsame] at hheld
          exact hheld
      · rw [PrincipalIndex.mem_ids_addId]
        exact .inr ⟨rfl, rfl⟩
    · intro p i hne hi
      rw [principalIndex]
      split
      · exact hi
      · simp [PrincipalIndex.mem_ids_addId, PrincipalIndex.mem_ids_removeId, hi, hne]
  | deleted _ h _ _ principalIndex =>
    apply hs.write h
    · intro hlive
      cases hlive
    · intro p i hne hi
      rw [principalIndex, PrincipalIndex.mem_ids_removeId]
      exact ⟨hi, fun heq => hne heq.2⟩
  | restarted => exact complete_new hsound.keyed

end keeps

theorem registered_empty : Registered empty := by
  apply registered_new
  intro id rule h
  cases h

theorem complete_empty : Complete empty := by
  apply complete_new
  intro id rule h
  cases h

theorem registered_of_exec (hs : Registered s) (hput : ∀ call ∈ calls, call.put ≠ some .unreported)
    (h : exec step s calls = some s') : Registered s' := by
  have halong : Along step (fun _ call => call.put ≠ some .unreported) s calls :=
    along_of_forall_mem (fun call hcall _ => hput call hcall) s
  refine exec_invariant ?_ hs halong h
  intro t call t' ht hcall hstep
  cases hstep
  exact ht.change (change_apply t call) hcall

theorem complete_of_exec (hcalls : Along step Reindexed empty calls)
    (h : exec step empty calls = some s) : Registered s ∧ Complete s := by
  apply exec_invariant (I := fun s => Registered s ∧ Complete s) ?_
    ⟨registered_empty, complete_empty⟩ hcalls h
  rintro s call s' ⟨hregistered, hcomplete⟩ hcall hstep
  cases hstep
  have hchange := change_apply s call
  exact ⟨hregistered.change hchange hcall.1, hcomplete.change hregistered hchange hcall⟩

end RuleStorage
end RustMq.Security
