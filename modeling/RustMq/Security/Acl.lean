import Mathlib

/-!
# ACL rules and their evaluation

The types of `src/security/acl/rules.rs` and `policy.rs`, and the two evaluations of
`src/security/acl/manager.rs`: `evaluate_rules` on a list of rules, where one matching deny
outweighs any number of matching allows, and `evaluate_cached_entry` on a single rule.

Regular expressions are the one thing left to a parameter: whether a text compiles, and whether
it then matches. `HashMap`s that are only looked up or tested as a whole (the conditions of a rule,
the context of a request) are lists of pairs.
-/

namespace RustMq.Security

open List

/-! ## Rules -/

inductive Effect where
  | allow
  | deny
  deriving DecidableEq

inductive AclOperation where
  | read | write | admin | describe | cluster | all | connect | delete | alter | create | list
  deriving DecidableEq

inductive Permission where
  | read | write | admin | connect | list
  deriving DecidableEq

def Permission.operation : Permission → AclOperation
  | .read => .read
  | .write => .write
  | .admin => .admin
  | .connect => .connect
  | .list => .list

def Permission.debug : Permission → String
  | .read => "Read"
  | .write => "Write"
  | .admin => "Admin"
  | .connect => "Connect"
  | .list => "List"

inductive ResourceType where
  | topic | consumerGroup | broker | cluster
  deriving DecidableEq

structure ResourcePattern where
  resourceType : ResourceType
  pattern : String
  deriving DecidableEq

structure AclRule where
  id : String
  principal : String
  resource : ResourcePattern
  operations : List AclOperation
  effect : Effect
  conditions : List (String × String)
  deriving DecidableEq

structure VersionedAclRule where
  rule : AclRule
  version : Nat
  deleted : Bool
  deriving DecidableEq

/-! ## Patterns -/

/-- `regex::Regex`: which texts compile, and what a compiled text matches. -/
structure RegexEngine where
  valid : String → Bool
  isMatch : String → String → Bool

def startsWith (text start : List Char) : Bool := start.isPrefixOf text

def endsWith (text final : List Char) : Bool := final.isSuffixOf text

inductive CompiledPattern where
  | exact (text : String)
  | wildcard (start final : List Char)
  | regex (pattern : String)
  | all
  deriving DecidableEq

def regexCharacters : List Char :=
  ['[', ']', '{', '}', '(', ')', '^', '$', '+', '?', '|', '\\']

/-- The two sides of the star of a pattern with exactly one. -/
def starSides (pattern : String) : Option (List Char × List Char) :=
  match pattern.toList.splitOn '*' with
  | [start, final] => some (start, final)
  | _ => none

/-- `CompiledPattern::compile`; `none` where the regular expression does not compile. -/
def CompiledPattern.compile (engine : RegexEngine) (pattern : String) : Option CompiledPattern :=
  if pattern = "*" then some .all
  else
    match starSides pattern with
    | some (start, final) => some (.wildcard start final)
    | none =>
      if pattern.toList.any regexCharacters.contains then
        if engine.valid pattern then some (.regex pattern) else none
      else some (.exact pattern)

def CompiledPattern.matches (engine : RegexEngine) (text : String) : CompiledPattern → Bool
  | .exact expected => text = expected
  | .wildcard start final => startsWith text.toList start && endsWith text.toList final
  | .regex pattern => engine.isMatch pattern text
  | .all => true

/-! ## Entries -/

structure AclEntry where
  rule : AclRule
  principalPattern : CompiledPattern
  resourcePattern : CompiledPattern
  deriving DecidableEq

structure Request where
  principal : String
  resource : String
  operation : Permission
  context : Option (List (String × String))
  deriving DecidableEq

def AclEntry.fromRule (engine : RegexEngine) (rule : AclRule) : Option AclEntry := do
  let principalPattern ← CompiledPattern.compile engine rule.principal
  let resourcePattern ← CompiledPattern.compile engine rule.resource.pattern
  some ⟨rule, principalPattern, resourcePattern⟩

def AclEntry.matches (engine : RegexEngine) (entry : AclEntry) (request : Request) : Bool :=
  entry.principalPattern.matches engine request.principal &&
    entry.resourcePattern.matches engine request.resource &&
    entry.rule.operations.contains request.operation.operation

/-- The test of the conditions: each must stand in the context with its value, and a rule with
conditions needs a context. -/
def conditionsMatch (conditions : List (String × String))
    (context : Option (List (String × String))) : Bool :=
  conditions.isEmpty ||
    match context with
    | some ctx => conditions.all fun condition => ctx.lookup condition.1 == some condition.2
    | none => false

/-- The entry of `create_cached_entry`: a rule that does not compile is matched literally. -/
def createCachedEntry (engine : RegexEngine) (rule : AclRule) : AclEntry :=
  (AclEntry.fromRule engine rule).getD
    ⟨rule, .exact rule.principal, .exact rule.resource.pattern⟩

def evaluateCachedEntry (engine : RegexEngine) (entry : AclEntry) (request : Request) : Bool :=
  entry.matches engine request && conditionsMatch entry.rule.conditions request.context &&
    entry.rule.effect == .allow

/-! ## Decisions -/

inductive PolicyDecision where
  | allow
  | deny (reason : String)
  | noMatch
  deriving DecidableEq

def PolicyDecision.isAllowed : PolicyDecision → Bool
  | .allow => true
  | _ => false

def matchingEntry (engine : RegexEngine) (request : Request) (rule : VersionedAclRule) :
    Option AclEntry :=
  if rule.deleted then none
  else
    match AclEntry.fromRule engine rule.rule with
    | some entry =>
      if entry.matches engine request && conditionsMatch rule.rule.conditions request.context then
        some entry
      else none
    | none => none

def evaluateRules (engine : RegexEngine) (rules : List VersionedAclRule) (request : Request) :
    PolicyDecision :=
  let matching := rules.filterMap (matchingEntry engine request)
  match matching.find? fun entry => entry.rule.effect = .deny with
  | some entry =>
    .deny ("Denied by rule '" ++ entry.rule.id ++ "' for principal '" ++ request.principal ++
      "' on resource '" ++ request.resource ++ "'")
  | none => if matching.any fun entry => entry.rule.effect = .allow then .allow else .noMatch

def Applies (engine : RegexEngine) (request : Request) (rule : VersionedAclRule) : Prop :=
  (matchingEntry engine request rule).isSome

variable {engine : RegexEngine} {request : Request} {rule : VersionedAclRule} {entry : AclEntry}
  {rules : List VersionedAclRule}

theorem rule_of_fromRule {rule : AclRule} (h : AclEntry.fromRule engine rule = some entry) :
    entry.rule = rule := by
  simp only [AclEntry.fromRule, Option.bind_eq_bind, Option.bind_eq_some_iff] at h
  obtain ⟨_, _, _, _, h⟩ := h
  cases h
  rfl

theorem rule_of_matchingEntry (h : matchingEntry engine request rule = some entry) :
    entry.rule = rule.rule := by
  rw [matchingEntry] at h
  split at h
  · cases h
  · split at h
    · rename_i e he
      split at h
      · cases h
        exact rule_of_fromRule he
      · cases h
    · cases h

theorem exists_matching_iff {effect : Effect} :
    (∃ entry ∈ rules.filterMap (matchingEntry engine request), entry.rule.effect = effect) ↔
      ∃ rule ∈ rules, Applies engine request rule ∧ rule.rule.effect = effect := by
  constructor
  · rintro ⟨entry, hmem, heffect⟩
    obtain ⟨rule, hrule, hentry⟩ := mem_filterMap.mp hmem
    refine ⟨rule, hrule, by rw [Applies, hentry]; rfl, ?_⟩
    rw [← rule_of_matchingEntry hentry]
    exact heffect
  · rintro ⟨rule, hrule, happlies, heffect⟩
    obtain ⟨entry, hentry⟩ := Option.isSome_iff_exists.mp happlies
    refine ⟨entry, mem_filterMap.mpr ⟨rule, hrule, hentry⟩, ?_⟩
    rw [rule_of_matchingEntry hentry]
    exact heffect

/-- **Deny overrides.** A request is allowed if and only if an allow rule applies to it and no
deny rule does. -/
theorem evaluateRules_isAllowed_iff :
    (evaluateRules engine rules request).isAllowed = true ↔
      (∃ rule ∈ rules, Applies engine request rule ∧ rule.rule.effect = .allow) ∧
        ∀ rule ∈ rules, Applies engine request rule → rule.rule.effect ≠ .deny := by
  rw [evaluateRules]
  cases hdeny : (rules.filterMap (matchingEntry engine request)).find?
      fun entry => decide (entry.rule.effect = .deny) with
  | some entry =>
    refine iff_of_false (by simp [PolicyDecision.isAllowed]) fun h => ?_
    have hentry : entry.rule.effect = .deny := by simpa using find?_some hdeny
    obtain ⟨rule, hrule, happlies, heffect⟩ :=
      exists_matching_iff.mp ⟨entry, mem_of_find?_eq_some hdeny, hentry⟩
    exact h.2 rule hrule happlies heffect
  | none =>
    have hnone : ∀ rule ∈ rules, Applies engine request rule → rule.rule.effect ≠ .deny := by
      intro rule hrule happlies heffect
      obtain ⟨entry, hmem, hentry⟩ := exists_matching_iff.mpr ⟨rule, hrule, happlies, heffect⟩
      exact find?_eq_none.mp hdeny entry hmem (by simpa using hentry)
    simp only [and_iff_left hnone]
    rw [← exists_matching_iff]
    split
    · rename_i hany
      refine iff_of_true rfl ?_
      obtain ⟨entry, hmem, hentry⟩ := any_eq_true.mp hany
      exact ⟨entry, hmem, by simpa using hentry⟩
    · rename_i hany
      refine iff_of_false (by simp [PolicyDecision.isAllowed]) ?_
      rintro ⟨entry, hmem, hentry⟩
      exact hany (any_eq_true.mpr ⟨entry, hmem, by simpa using hentry⟩)

theorem evaluateRules_isAllowed_rotate (engine : RegexEngine) (rules : List VersionedAclRule)
    (request : Request) (n : Nat) :
    (evaluateRules engine (rules.rotate n) request).isAllowed =
      (evaluateRules engine rules request).isAllowed := by
  rw [Bool.eq_iff_iff, evaluateRules_isAllowed_iff, evaluateRules_isAllowed_iff]
  simp only [mem_rotate]

theorem applies_and_allow_iff (hlive : rule.deleted = false)
    (hcompiles : (AclEntry.fromRule engine rule.rule).isSome) :
    Applies engine request rule ∧ rule.rule.effect = .allow ↔
      evaluateCachedEntry engine (createCachedEntry engine rule.rule) request = true := by
  obtain ⟨entry, hentry⟩ := Option.isSome_iff_exists.mp hcompiles
  have hcached : createCachedEntry engine rule.rule = entry := by
    rw [createCachedEntry, hentry]
    rfl
  have hrule := rule_of_fromRule hentry
  rw [hcached, evaluateCachedEntry, Applies, matchingEntry, hlive, hentry, hrule]
  simp only [Bool.false_eq_true, if_false, Bool.and_eq_true, beq_iff_eq]
  split
  · rename_i happlies
    simp [happlies]
  · rename_i happlies
    simp [happlies]

end RustMq.Security
