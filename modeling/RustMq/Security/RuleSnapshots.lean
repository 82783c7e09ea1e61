import RustMq.Security.RuleLookup

/-!
# Restoring the rules of a snapshot

`create_snapshot` and `restore_snapshot` of `src/security/acl/storage.rs`, which
`RaftAclManager` calls with the same data behind a serialization. The snapshot is all stored rules
with the version counter. Restoring it clears the two indices, writes back the rules that were in
force, and sets the counter. It deletes no object and does not touch the cache.
-/

namespace RustMq.Security

open Lib List Store

namespace RuleStorage

structure AclSnapshot where
  rules : List VersionedAclRule
  versionCounter : Nat

/-- `create_snapshot`; the object it writes for itself is not under `rules/`. -/
def createSnapshot (s : RuleStorage) : AclSnapshot := ⟨s.loadAllRules, s.getVersion⟩

def restoreSnapshot (s : RuleStorage) (snapshot : AclSnapshot) : RuleStorage :=
  let rules := snapshot.rules.filter fun rule => !rule.deleted
  { objects := rules.foldl (fun objects rule => objects.insert rule.rule.id rule) s.objects
    cache := s.cache
    versionCounter := snapshot.versionCounter
    ruleIndex := rules.map fun rule => rule.rule.id
    principalIndex := .ofRules rules }

/-- The answers after the restore are those of the storage the snapshot was taken in. -/
structure Restored (s restored : RuleStorage) : Prop where
  rule : ∀ id, (restored.getRule id).1 = (s.getRule id).1
  list : ∀ filter : AclRuleFilter, filter.includeDeleted = false →
    restored.listRules filter = s.listRules filter
  principal : ∀ principal,
    (restored.getRulesForPrincipal principal).Perm (s.getRulesForPrincipal principal)
  version : restored.getVersion = s.getVersion

/-- Between the snapshot in `s` and the restore in `t` the object of the id has not changed; or it
is a rule in force in `s`, and the cache does not have it in `t`. -/
def Kept (s t : RuleStorage) (id : String) : Prop :=
  t.objects.get? id = s.objects.get? id ∨
    ((s.objects.get? id).any (fun rule => !rule.deleted) = true ∧ t.cache.get? id = none)

section restore

variable {s t : RuleStorage}

theorem rule?_eq_of_getRule_fst {id : String} (h : (t.getRule id).1 = (s.getRule id).1) :
    t.rule? id = s.rule? id := by
  rw [getRule_fst, getRule_fst] at h
  cases ht : t.rule? id <;> cases hs : s.rule? id <;> simp_all

theorem foldl_insert_map {entries : List (String × VersionedAclRule)}
    (hkeyed : ∀ e ∈ entries, e.2.rule.id = e.1) (objects : SMap String VersionedAclRule) :
    (entries.map Prod.snd).foldl (fun objects rule => objects.insert rule.rule.id rule) objects =
      entries.foldl (fun objects e => objects.insert e.1 e.2) objects := by
  induction entries generalizing objects with
  | nil => rfl
  | cons e entries ih =>
    rw [map_cons, foldl_cons, foldl_cons, hkeyed e mem_cons_self]
    exact ih (fun a ha => hkeyed a (mem_cons_of_mem _ ha)) _

variable (hs : Sound s)
include hs

theorem get?_objects_restore (id : String) : (t.restoreSnapshot s.createSnapshot).objects.get? id =
      ((s.objects.get? id).filter fun rule => !rule.deleted).or (t.objects.get? id) := by
  let live := s.objects.filterVals fun rule => !rule.deleted
  have hrules : (s.loadAllRules.filter fun rule => !rule.deleted) = live.entries.map Prod.snd := by
    rw [loadAllRules, filter_map]
    rfl
  have hkeyed : ∀ e ∈ live.entries, e.2.rule.id = e.1 := by
    intro e he
    exact hs.keyed _ _ (SMap.get?_eq_some_iff.mpr (mem_filter.mp he).1)
  show ((s.loadAllRules.filter fun rule => !rule.deleted).foldl _ t.objects).get? id = _
  rw [hrules, foldl_insert_map hkeyed, ← SMap.get?_filterVals]
  exact SMap.get?_insertAll t.objects live id

theorem mem_ids_restore {pattern id : String} :
    id ∈ (t.restoreSnapshot s.createSnapshot).principalIndex.ids pattern ↔
      ∃ rule, s.objects.get? id = some rule ∧ rule.deleted = false ∧
        rule.rule.principal = pattern := by
  show id ∈ (PrincipalIndex.ofRules (s.loadAllRules.filter fun rule => !rule.deleted)).ids pattern ↔ _
  rw [PrincipalIndex.mem_ids_ofRules]
  constructor
  · rintro ⟨rule, hmem, hpattern, rfl⟩
    obtain ⟨hstored, hlive⟩ := mem_filter.mp hmem
    exact ⟨rule, hs.mem_loadAllRules.mp hstored, by simpa using hlive, hpattern⟩
  · rintro ⟨rule, hget, hlive, hpattern⟩
    have hid := hs.keyed id rule hget
    refine ⟨rule, mem_filter.mpr ⟨?_, by simp [hlive]⟩, hpattern, hid⟩
    exact RuleStorage.mem_loadAllRules.mpr ⟨id, hget⟩

theorem objects_restore_of_kept (hkept : ∀ id, Kept s t id) :
    (t.restoreSnapshot s.createSnapshot).objects = s.objects := by
  apply SMap.ext_get?
  intro id
  rw [get?_objects_restore hs]
  cases hget : s.objects.get? id with
  | none =>
    rcases hkept id with hsame | ⟨hlive, -⟩
    · rw [hsame, hget]
      rfl
    · simp [hget] at hlive
  | some rule =>
    cases hdeleted : rule.deleted with
    | false => simp [hdeleted]
    | true =>
      rcases hkept id with hsame | ⟨hlive, -⟩
      · rw [hsame, hget]
        simp [Option.filter, hdeleted]
      · simp [hget, hdeleted] at hlive

theorem sound_restore (ht : Sound t) (hkept : ∀ id, Kept s t id) :
    Sound (t.restoreSnapshot s.createSnapshot) := by
  have hobjects := objects_restore_of_kept hs hkept
  constructor
  · intro id rule hcache
    have hcached : t.cache.get? id = some rule := hcache
    rw [hobjects]
    rcases hkept id with hsame | ⟨-, hnone⟩
    · rw [← hsame]
      exact ht.cached id rule hcached
    · rw [hnone] at hcached
      cases hcached
  · rw [hobjects]
    exact hs.keyed
  · intro pattern id hid
    obtain ⟨rule, hget, -, hpattern⟩ := (mem_ids_restore hs).mp hid
    rw [hobjects]
    exact ⟨rule, hget, hpattern⟩
  · exact PrincipalIndex.distinct_ofRules _

theorem perm_getRulesForPrincipal (hcomplete : Complete s) (ht : Sound t) (hcomplete' : Complete t)
    (hobjects : t.objects = s.objects) (principal : String) :
    (t.getRulesForPrincipal principal).Perm (s.getRulesForPrincipal principal) := by
  have hlive : ∀ rule, t.Live rule ↔ s.Live rule := by
    intro rule
    rw [Live, Live, loadAllRules, loadAllRules, hobjects]
  apply Perm.append
  · apply (perm_ext_iff_of_nodup (nodup_filterMap_liveRule ht _)
      (nodup_filterMap_liveRule hs _)).mpr
    intro rule
    rw [mem_filterMap_liveRule ht hcomplete', mem_filterMap_liveRule hs hcomplete, hlive]
  · apply (perm_ext_iff_of_nodup (nodup_wildcardRules ht hcomplete' _)
      (nodup_wildcardRules hs hcomplete _)).mpr
    intro rule
    rw [mem_wildcardRules ht hcomplete', mem_wildcardRules hs hcomplete, hlive]

theorem restored_of_kept (ht : Sound t) (hcomplete : Complete s) (hkept : ∀ id, Kept s t id) :
    Restored s (t.restoreSnapshot s.createSnapshot) := by
  have hobjects := objects_restore_of_kept hs hkept
  have hsound := sound_restore hs ht hkept
  have hcomplete' : Complete (t.restoreSnapshot s.createSnapshot) := by
    intro id rule hget hlive
    rw [hobjects] at hget
    exact (mem_ids_restore hs).mpr ⟨rule, hget, hlive, rfl⟩
  constructor
  · intro id
    rw [getRule_fst, getRule_fst, hsound.rule?_eq, hs.rule?_eq, hobjects]
  · intro filter _
    rw [listRules, listRules, loadAllRules, loadAllRules, hobjects]
  · exact perm_getRulesForPrincipal hs hcomplete hsound hcomplete' hobjects
  · rfl

theorem mem_ids_of_mem_getRulesForPrincipal {principal : String} {rule : VersionedAclRule}
    (h : rule ∈ s.getRulesForPrincipal principal) :
    rule.rule.id ∈ s.principalIndex.ids rule.rule.principal := by
  have hfound : ∀ pattern, rule ∈ (s.principalIndex.ids pattern).filterMap s.liveRule →
      rule.rule.id ∈ s.principalIndex.ids rule.rule.principal := by
    intro pattern hmem
    obtain ⟨id, hid, hlive⟩ := mem_filterMap.mp hmem
    obtain ⟨hget, -⟩ := hs.liveRule_eq_some_iff.mp hlive
    have hpattern := hs.pattern_eq ((hs.rule?_eq id).trans hget) hid
    rw [hs.keyed id rule hget, hpattern]
    exact hid
  rcases mem_append.mp h with hdirect | hwild
  · exact hfound principal hdirect
  · obtain ⟨entry, hentry, hmem⟩ := mem_flatMap.mp hwild
    split at hmem
    · rw [← ids_of_mem_entries hentry] at hmem
      exact hfound entry.1 hmem
    · cases hmem

theorem kept_of_restored (ht : Sound t) (h : Restored s (t.restoreSnapshot s.createSnapshot))
    (id : String) : Kept s t id := by
  have hrule := rule?_eq_of_getRule_fst (h.rule id)
  rw [hs.rule?_eq, rule?, get?_objects_restore hs] at hrule
  have hcached : ∀ rule, t.cache.get? id = some rule → t.objects.get? id = some rule :=
    ht.cached id
  have hrestored : (t.cache.get? id).or
      (((s.objects.get? id).filter fun rule => !rule.deleted).or (t.objects.get? id)) =
      s.objects.get? id := hrule
  cases hcache : t.cache.get? id with
  | some rule =>
    -- the cache answers, with the object of the moment
    rw [hcache, Option.some_or] at hrestored
    exact .inl ((hcached rule hcache).trans hrestored)
  | none =>
    rw [hcache, Option.none_or] at hrestored
    cases hget : s.objects.get? id with
    | none =>
      rw [hget] at hrestored
      refine .inl ?_
      rw [hget]
      simpa using hrestored
    | some rule =>
      cases hdeleted : rule.deleted with
      | false => exact .inr ⟨by simp [hget, hdeleted], hcache⟩
      | true =>
        rw [hget] at hrestored
        refine .inl ?_
        rw [hget]
        simpa [hdeleted] using hrestored

theorem complete_of_restored (h : Restored s (t.restoreSnapshot s.createSnapshot)) :
    Complete s := by
  intro id rule hget hlive
  have hrule := rule?_eq_of_getRule_fst (h.rule id)
  rw [hs.rule?_eq, hget] at hrule
  have hfound : rule ∈ (t.restoreSnapshot s.createSnapshot).getRulesForPrincipal
      rule.rule.principal := by
    apply mem_append_left
    refine mem_filterMap.mpr ⟨id, (mem_ids_restore hs).mpr ⟨rule, hget, hlive, rfl⟩, ?_⟩
    simp [liveRule, hrule, hlive]
  have hmem := (h.principal rule.rule.principal).mem_iff.mp hfound
  rw [← hs.keyed id rule hget]
  exact mem_ids_of_mem_getRulesForPrincipal hs hmem

end restore

def snapshotCalls : List Call :=
  [.create (readRule "a" "alice" .allow) "" .stored, .create (readRule "b" "bob" .allow) "" .stored]

def laterCalls : List Call :=
  [.update "b" (readRule "b" "carol" .deny) .stored, .delete "b" .stored]

end RuleStorage
end RustMq.Security
