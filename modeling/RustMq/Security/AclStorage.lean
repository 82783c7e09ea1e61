import RustMq.Security.Acl

/-!
# Stored ACL rules

`ObjectStorageAclStorage` (`src/security/acl/storage.rs`): the rules by id, and an index from
principal patterns to the ids of the rules with that pattern. A deletion only marks the rule and
takes it out of the index, and an id that was ever used stays taken.

A rule is stored under its own id and every id of the index belongs to a stored rule with that
pattern. Both are fields of the structure: `create_rule`, `update_rule` and `delete_rule` are written
with the proof that they keep them.
-/

namespace RustMq.Security

open List

abbrev PrincipalIndex := AList fun _ : String => List String

namespace PrincipalIndex

def Holds (index : PrincipalIndex) (pattern id : String) : Prop :=
  ∃ ids, index.lookup pattern = some ids ∧ id ∈ ids

def removeId (index : PrincipalIndex) (pattern id : String) : PrincipalIndex :=
  match index.lookup pattern with
  | some ids => index.insert pattern (ids.filter (· ≠ id))
  | none => index

def addId (index : PrincipalIndex) (pattern id : String) : PrincipalIndex :=
  let ids := (index.lookup pattern).getD []
  index.insert pattern (if id ∈ ids then ids else id :: ids)

variable {index : PrincipalIndex} {pattern id p i : String}

theorem holds_of_removeId (h : (index.removeId pattern id).Holds p i) :
    index.Holds p i ∧ ¬ (p = pattern ∧ i = id) := by
  obtain ⟨ids, hlookup, hmem⟩ := h
  rw [removeId] at hlookup
  cases hold : index.lookup pattern with
  | none =>
    rw [hold] at hlookup
    refine ⟨⟨ids, hlookup, hmem⟩, ?_⟩
    rintro ⟨rfl, -⟩
    rw [hold] at hlookup
    cases hlookup
  | some old =>
    rw [hold] at hlookup
    simp only at hlookup
    by_cases hp : p = pattern
    · subst hp
      rw [AList.lookup_insert] at hlookup
      cases hlookup
      obtain ⟨hmem, hne⟩ := mem_filter.mp hmem
      exact ⟨⟨old, hold, hmem⟩, fun heq => by simp [heq.2] at hne⟩
    · rw [AList.lookup_insert_ne hp] at hlookup
      exact ⟨⟨ids, hlookup, hmem⟩, fun heq => hp heq.1⟩

theorem holds_of_addId (h : (index.addId pattern id).Holds p i) :
    index.Holds p i ∨ (p = pattern ∧ i = id) := by
  obtain ⟨ids, hlookup, hmem⟩ := h
  rw [addId] at hlookup
  by_cases hp : p = pattern
  · subst hp
    rw [AList.lookup_insert] at hlookup
    cases hlookup
    cases hold : index.lookup p with
    | none =>
      rw [hold] at hmem
      exact .inr ⟨rfl, by simpa using hmem⟩
    | some old =>
      rw [hold] at hmem
      simp only [Option.getD_some] at hmem
      split at hmem
      · exact .inl ⟨old, hold, hmem⟩
      · rcases mem_cons.mp hmem with hid | hmem
        · exact .inr ⟨rfl, hid⟩
        · exact .inl ⟨old, hold, hmem⟩
  · rw [AList.lookup_insert_ne hp] at hlookup
    exact .inl ⟨ids, hlookup, hmem⟩

end PrincipalIndex

structure AclStorage where
  rules : AList fun _ : String => VersionedAclRule
  versionCounter : Nat
  ruleIndex : List String
  principalIndex : PrincipalIndex
  keyed : ∀ id rule, rules.lookup id = some rule → rule.rule.id = id ∧ id ∈ ruleIndex
  indexed : ∀ pattern id, principalIndex.Holds pattern id →
    ∃ rule, rules.lookup id = some rule ∧ rule.rule.principal = pattern

inductive AclError where
  | alreadyExists (id : String)
  | notFound (id : String)
  deriving DecidableEq

namespace AclStorage

def empty : AclStorage where
  rules := ∅
  versionCounter := 0
  ruleIndex := []
  principalIndex := ∅
  keyed _ _ h := by simp at h
  indexed _ _ h := by
    obtain ⟨ids, hlookup, -⟩ := h
    simp at hlookup

def getRule (s : AclStorage) (id : String) : Option VersionedAclRule := s.rules.lookup id

def createRule (s : AclStorage) (rule : AclRule) (uuid : String) :
    Except AclError (String × AclStorage) :=
  let id := if rule.id = "" then uuid else rule.id
  if hid : id ∈ s.ruleIndex then .error (.alreadyExists id)
  else .ok (id, {
    rules := s.rules.insert id ⟨{ rule with id := id }, s.versionCounter + 1, false⟩
    versionCounter := s.versionCounter + 1
    ruleIndex := id :: s.ruleIndex
    principalIndex := s.principalIndex.addId rule.principal id
    keyed := by
      intro i r hr
      by_cases hi : i = id
      · rw [hi, AList.lookup_insert] at hr
        cases hr
        exact ⟨hi.symm, hi ▸ List.mem_cons_self⟩
      · rw [AList.lookup_insert_ne hi] at hr
        exact ⟨(s.keyed i r hr).1, List.mem_cons_of_mem _ (s.keyed i r hr).2⟩
    indexed := by
      intro pattern i hi
      rcases PrincipalIndex.holds_of_addId hi with hold | ⟨rfl, rfl⟩
      · obtain ⟨r, hr, hprincipal⟩ := s.indexed pattern i hold
        have hne : i ≠ id := fun heq => hid (heq ▸ (s.keyed i r hr).2)
        exact ⟨r, by rw [AList.lookup_insert_ne hne, hr], hprincipal⟩
      · exact ⟨_, AList.lookup_insert _, rfl⟩ })

/-- The rule `update_rule` stores: the given one under the given id, in force again. -/
def updated (s : AclStorage) (id : String) (rule : AclRule) : VersionedAclRule :=
  ⟨{ rule with id := id }, s.versionCounter + 1, false⟩

def updateRule (s : AclStorage) (id : String) (rule : AclRule) : Except AclError AclStorage :=
  match hexisting : s.getRule id with
  | none => .error (.notFound id)
  | some existing => .ok {
    rules := s.rules.insert id (s.updated id rule)
    versionCounter := s.versionCounter + 1
    ruleIndex := s.ruleIndex
    principalIndex :=
      if existing.rule.principal = rule.principal then s.principalIndex
      else (s.principalIndex.removeId existing.rule.principal id).addId rule.principal id
    keyed := by
      intro i r hr
      by_cases hi : i = id
      · rw [hi, AList.lookup_insert] at hr
        cases hr
        exact ⟨hi.symm, hi ▸ (s.keyed id existing hexisting).2⟩
      · rw [AList.lookup_insert_ne hi] at hr
        exact s.keyed i r hr
    indexed := by
      intro pattern i hi
      -- an id of the index stands under the pattern of the stored rule, so only there
      have hold : s.principalIndex.Holds pattern i ∧ (i = id → pattern = rule.principal) ∨
          (pattern = rule.principal ∧ i = id) := by
        split at hi
        · rename_i hsame
          refine Or.inl ⟨hi, ?_⟩
          rintro rfl
          obtain ⟨r, hr, hprincipal⟩ := s.indexed pattern i hi
          cases hr.symm.trans hexisting
          rw [← hprincipal, hsame]
        · rcases PrincipalIndex.holds_of_addId hi with hkept | hnew
          · obtain ⟨hbefore, hne⟩ := PrincipalIndex.holds_of_removeId hkept
            refine Or.inl ⟨hbefore, ?_⟩
            rintro rfl
            obtain ⟨r, hr, hprincipal⟩ := s.indexed pattern i hbefore
            cases hr.symm.trans hexisting
            exact absurd ⟨hprincipal.symm, rfl⟩ hne
          · exact Or.inr hnew
      by_cases hid : i = id
      · subst hid
        refine ⟨s.updated i rule, AList.lookup_insert _, ?_⟩
        rcases hold with ⟨-, hpattern⟩ | ⟨hpattern, -⟩
        · exact (hpattern rfl).symm
        · exact hpattern.symm
      · obtain ⟨hkept, -⟩ := hold.resolve_right fun hnew => hid hnew.2
        obtain ⟨r, hr, hprincipal⟩ := s.indexed pattern i hkept
        exact ⟨r, by rw [AList.lookup_insert_ne hid, hr], hprincipal⟩ }

def deleteRule (s : AclStorage) (id : String) : Except AclError AclStorage :=
  match hexisting : s.getRule id with
  | none => .error (.notFound id)
  | some existing => .ok {
    rules := s.rules.insert id
      { existing with deleted := true, version := s.versionCounter + 1 }
    versionCounter := s.versionCounter + 1
    ruleIndex := s.ruleIndex
    principalIndex := s.principalIndex.removeId existing.rule.principal id
    keyed := by
      intro i r hr
      by_cases hi : i = id
      · rw [hi, AList.lookup_insert] at hr
        cases hr
        have hkeyed := s.keyed id existing hexisting
        exact ⟨hkeyed.1.trans hi.symm, hi ▸ hkeyed.2⟩
      · rw [AList.lookup_insert_ne hi] at hr
        exact s.keyed i r hr
    indexed := by
      intro pattern i hi
      obtain ⟨hkept, hne⟩ := PrincipalIndex.holds_of_removeId hi
      obtain ⟨r, hr, hprincipal⟩ := s.indexed pattern i hkept
      have hid : i ≠ id := by
        rintro rfl
        cases hr.symm.trans hexisting
        exact hne ⟨hprincipal.symm, rfl⟩
      exact ⟨r, by rw [AList.lookup_insert_ne hid, hr], hprincipal⟩ }

/-! ## What the operations leave alone -/

section others

variable {s s' : AclStorage} {rule : AclRule} {id i : String}

end others

/-! ## The rules of a principal -/

/-- The wildcard test of `get_rules_for_principal`: a star alone, at the end or at the start. -/
def starMatches (pattern principal : String) : Bool :=
  pattern.toList.contains '*' &&
    (pattern = "*" ||
      (pattern.toList.getLast? = some '*' &&
        startsWith principal.toList pattern.toList.dropLast) ||
      (pattern.toList.head? = some '*' && endsWith principal.toList pattern.toList.tail))

def liveRule (s : AclStorage) (id : String) : Option VersionedAclRule :=
  (s.getRule id).filter fun rule => !rule.deleted

def getRulesForPrincipal (s : AclStorage) (principal : String) : List VersionedAclRule :=
  ((s.principalIndex.lookup principal).getD []).filterMap s.liveRule ++
    s.principalIndex.entries.flatMap fun entry =>
      if starMatches entry.1 principal then entry.2.filterMap s.liveRule else []

theorem of_mem_getRulesForPrincipal {s : AclStorage} {principal : String}
    {rule : VersionedAclRule} (h : rule ∈ s.getRulesForPrincipal principal) :
    s.getRule rule.rule.id = some rule ∧ rule.deleted = false ∧
      (rule.rule.principal = principal ∨ starMatches rule.rule.principal principal = true) := by
  have hlive : ∀ pattern id, s.principalIndex.Holds pattern id → s.liveRule id = some rule →
      s.getRule rule.rule.id = some rule ∧ rule.deleted = false ∧
        rule.rule.principal = pattern := by
    intro pattern id hid hrule
    obtain ⟨hget, hdeleted⟩ := Option.filter_eq_some_iff.mp hrule
    obtain ⟨r, hr, hprincipal⟩ := s.indexed pattern id hid
    cases hr.symm.trans hget
    refine ⟨?_, by simpa using hdeleted, hprincipal⟩
    rw [(s.keyed id rule hr).1]
    exact hr
  rcases mem_append.mp h with hdirect | hwild
  · obtain ⟨id, hid, hrule⟩ := mem_filterMap.mp hdirect
    cases hlookup : s.principalIndex.lookup principal with
    | none => rw [hlookup] at hid; cases hid
    | some ids =>
      rw [hlookup] at hid
      obtain ⟨hget, hdeleted, hprincipal⟩ := hlive principal id ⟨ids, hlookup, hid⟩ hrule
      exact ⟨hget, hdeleted, .inl hprincipal⟩
  · obtain ⟨entry, hentry, hmem⟩ := mem_flatMap.mp hwild
    split at hmem
    · rename_i hstar
      obtain ⟨id, hid, hrule⟩ := mem_filterMap.mp hmem
      obtain ⟨hget, hdeleted, hprincipal⟩ :=
        hlive entry.1 id ⟨entry.2, AList.mem_lookup_iff.mpr hentry, hid⟩ hrule
      exact ⟨hget, hdeleted, .inr (by rw [hprincipal]; exact hstar)⟩
    · cases hmem

end AclStorage
end RustMq.Security
