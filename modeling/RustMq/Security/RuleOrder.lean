import RustMq.Security.AclManager

/-!
# The order of the rules

`evaluate_rules` of `src/security/acl/manager.rs` at every operation, not only at those a permission
stands for (`evaluateRules_eq`). The kind of the decision depends on which rules there are alone, and
a deny rule that the validator accepts is never dropped: its patterns compile.
-/

namespace RustMq.Security

open AclManager List

structure Query where
  principal : String
  resource : String
  operation : AclOperation
  context : Option (List (String × String))

def AclEntry.matchesQuery (engine : RegexEngine) (entry : AclEntry) (query : Query) : Bool :=
  entry.principalPattern.matches engine query.principal &&
    entry.resourcePattern.matches engine query.resource &&
    entry.rule.operations.contains query.operation

def pushedEntry (engine : RegexEngine) (query : Query) (rule : VersionedAclRule) :
    Option AclEntry :=
  if rule.deleted then none
  else
    match AclEntry.fromRule engine rule.rule with
    | some entry =>
      if entry.matchesQuery engine query && conditionsMatch rule.rule.conditions query.context then
        some entry
      else none
    | none => none

def evaluateQuery (engine : RegexEngine) (rules : List VersionedAclRule) (query : Query) :
    PolicyDecision :=
  let matching := rules.filterMap (pushedEntry engine query)
  match matching.find? fun entry => entry.rule.effect = .deny with
  | some entry =>
    .deny ("Denied by rule '" ++ entry.rule.id ++ "' for principal '" ++ query.principal ++
      "' on resource '" ++ query.resource ++ "'")
  | none => if matching.any fun entry => entry.rule.effect = .allow then .allow else .noMatch

def Request.query (request : Request) : Query :=
  ⟨request.principal, request.resource, request.operation.operation, request.context⟩

inductive DecisionKind where
  | allow | deny | noMatch
  deriving DecidableEq

def PolicyDecision.kind : PolicyDecision → DecisionKind
  | .allow => .allow
  | .deny _ => .deny
  | .noMatch => .noMatch

def counts (engine : RegexEngine) (query : Query) (effect : Effect) (rule : VersionedAclRule) :
    Bool :=
  match pushedEntry engine query rule with
  | some entry => entry.rule.effect = effect
  | none => false

variable {engine : RegexEngine} {query : Query} {rules : List VersionedAclRule}
  {rule : VersionedAclRule} {effect : Effect}

theorem any_counts (effect : Effect) : rules.any (counts engine query effect) =
    (rules.filterMap (pushedEntry engine query)).any fun entry => entry.rule.effect = effect := by
  rw [any_filterMap]
  refine congrArg rules.any (funext fun rule => ?_)
  rw [counts]
  cases pushedEntry engine query rule with
  | none => rfl
  | some entry => rfl

theorem kind_evaluateQuery : (evaluateQuery engine rules query).kind =
    if rules.any (counts engine query .deny) then .deny
    else if rules.any (counts engine query .allow) then .allow else .noMatch := by
  rw [any_counts, any_counts, evaluateQuery]
  generalize rules.filterMap (pushedEntry engine query) = matching
  cases hdeny : matching.find? fun entry => decide (entry.rule.effect = .deny) with
  | some entry =>
    have hany := any_eq_true.mpr ⟨entry, mem_of_find?_eq_some hdeny, find?_some hdeny⟩
    rw [if_pos hany]
    rfl
  | none =>
    have hnone : ¬ (matching.any fun entry => decide (entry.rule.effect = .deny)) = true := by
      rw [any_eq_true]
      rintro ⟨entry, hmem, heffect⟩
      exact find?_eq_none.mp hdeny entry hmem heffect
    rw [if_neg hnone]
    simp only
    split
    · rfl
    · rfl

/-- A rule counts for its own effect only. -/
theorem effect_of_counts (h : counts engine query effect rule = true) :
    rule.rule.effect = effect := by
  unfold counts at h
  split at h
  · rename_i entry hentry
    rw [pushedEntry] at hentry
    split at hentry
    · cases hentry
    · split at hentry
      · rename_i compiled hcompiled
        split at hentry
        · cases hentry
          rw [← rule_of_fromRule hcompiled]
          exact of_decide_eq_true h
        · cases hentry
      · cases hentry
  · cases h

theorem any_counts_append (hne : rule.rule.effect ≠ effect) :
    (rules ++ [rule]).any (counts engine query effect) =
      rules.any (counts engine query effect) := by
  rw [any_append, any_cons, any_nil,
    Bool.eq_false_iff.mpr fun h => hne (effect_of_counts h), Bool.or_false, Bool.or_false]

theorem regexCharacters_rejected : ∀ c ∈ regexCharacters,
    (principalCharacter c || c = '/') = false := by
  simp [regexCharacters, principalCharacter]

section

variable {pattern : String} (h : ∀ c ∈ pattern.toList, (principalCharacter c || c = '/') = true)
include h

/-- What the validator admits is no regular expression. -/
theorem not_any_regexCharacters : ¬ pattern.toList.any regexCharacters.contains = true := by
  intro hany
  obtain ⟨c, hc, hcontains⟩ := any_eq_true.mp hany
  have hrejected := regexCharacters_rejected c (contains_iff_mem.mp hcontains)
  rw [h c hc] at hrejected
  cases hrejected

theorem compile_isSome : (CompiledPattern.compile engine pattern).isSome := by
  rw [CompiledPattern.compile]
  split
  · rfl
  · split
    · rfl
    · rw [if_neg (not_any_regexCharacters h)]
      rfl

end

theorem fromRule_of_validateRule {rule : AclRule} (h : validateRule rule = true) :
    ∃ entry, AclEntry.fromRule engine rule = some entry := by
  simp only [validateRule, Bool.and_eq_true] at h
  have hprincipal : (CompiledPattern.compile engine rule.principal).isSome := by
    refine compile_isSome fun c hc => ?_
    rw [all_eq_true.mp h.1.1.1.1.2.2 c hc, Bool.true_or]
  have hresource : (CompiledPattern.compile engine rule.resource.pattern).isSome :=
    compile_isSome (all_eq_true.mp h.1.1.1.2.2)
  obtain ⟨principal, hprincipal⟩ := Option.isSome_iff_exists.mp hprincipal
  obtain ⟨resource, hresource⟩ := Option.isSome_iff_exists.mp hresource
  exact ⟨⟨rule, principal, resource⟩, by rw [AclEntry.fromRule, hprincipal, hresource]; rfl⟩

/-- A deny rule that matches decides. -/
theorem kind_of_deny (hrule : rule ∈ rules) (hlive : rule.deleted = false)
    (hdeny : rule.rule.effect = .deny) {entry : AclEntry}
    (hentry : AclEntry.fromRule engine rule.rule = some entry)
    (hmatches : entry.matchesQuery engine query = true)
    (hconditions : conditionsMatch rule.rule.conditions query.context = true) :
    (evaluateQuery engine rules query).kind = .deny := by
  have hcounts : counts engine query .deny rule = true := by
    rw [counts, pushedEntry, hlive, hentry]
    simp [hmatches, hconditions, rule_of_fromRule hentry, hdeny]
  rw [kind_evaluateQuery, if_pos (any_eq_true.mpr ⟨rule, hrule, hcounts⟩)]

/-- **Deny overrides, in any order.** -/
theorem evaluateQuery_order (engine : RegexEngine) (rules : List VersionedAclRule) (query : Query) :
    (∀ others : List VersionedAclRule, (∀ rule, rule ∈ others ↔ rule ∈ rules) →
      (evaluateQuery engine others query).kind = (evaluateQuery engine rules query).kind) ∧
    (∀ rule : VersionedAclRule, rule.rule.effect = .deny →
      (evaluateQuery engine (rules ++ [rule]) query).kind = .allow →
        (evaluateQuery engine rules query).kind = .allow) ∧
    (∀ rule : VersionedAclRule, rule.rule.effect = .allow →
      (evaluateQuery engine rules query).kind = .deny →
        (evaluateQuery engine (rules ++ [rule]) query).kind = .deny) ∧
    ∀ rule ∈ rules, rule.deleted = false → rule.rule.effect = .deny →
      validateRule rule.rule = true → ∃ entry, AclEntry.fromRule engine rule.rule = some entry ∧
          (entry.matchesQuery engine query = true →
            conditionsMatch rule.rule.conditions query.context = true →
              (evaluateQuery engine rules query).kind = .deny) := by
  refine ⟨fun others hsame => ?_, fun rule hdeny => ?_, fun rule hallow => ?_,
    fun rule hrule hlive hdeny hvalid => ?_⟩
  · have hany : ∀ effect, others.any (counts engine query effect) =
        rules.any (counts engine query effect) := fun effect => by
      rw [Bool.eq_iff_iff, any_eq_true, any_eq_true]
      simp only [hsame]
    rw [kind_evaluateQuery, kind_evaluateQuery, hany, hany]
  · have hallow : rule.rule.effect ≠ .allow := by
      rw [hdeny]
      decide
    rw [kind_evaluateQuery, kind_evaluateQuery, any_counts_append hallow, any_append]
    cases rules.any (counts engine query .deny)
    · intro h
      split at h
      · cases h
      · exact h
    · exact id
  · have hdeny : rule.rule.effect ≠ .deny := by
      rw [hallow]
      decide
    rw [kind_evaluateQuery, kind_evaluateQuery, any_counts_append hdeny]
    intro h
    split at h
    · rename_i hany
      rw [if_pos hany]
    · split at h
      · cases h
      · cases h
  · obtain ⟨entry, hentry⟩ : ∃ entry, AclEntry.fromRule engine rule.rule = some entry :=
      fromRule_of_validateRule hvalid
    exact ⟨entry, hentry, kind_of_deny hrule hlive hdeny hentry⟩

end RustMq.Security
