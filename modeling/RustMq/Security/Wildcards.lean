import RustMq.Security.RuleLookup
import RustMq.Security.RuleOrder

/-!
# Wildcards

Stars are read by three functions: `CompiledPattern::compile`, `AclRule::applies_to_principal` and
`ResourcePattern::matches_name`. The first two always agree. All three take a pattern with one star
as a start and an end that are looked for independently, so on a text that is too short for both
they may overlap; with several stars the first two compare the pattern literally, and the third
cuts only the stars at one end off. `ReadRightly` says on which texts that does no harm.

The operation `All` is a name like any other: `applies_to_operation` looks for the operation of the
request alone.
-/

namespace RustMq.Security

open List

/-! ## Stars in patterns -/

/-- `ResourcePattern::matches_name`; a pattern without a star takes the last branch. -/
def ResourcePattern.matchesName (resource : ResourcePattern) (name : String) : Bool :=
  let pattern := resource.pattern.toList
  if resource.pattern = "*" then true
  else if pattern.getLast? = some '*' then startsWith name.toList (pattern.rdropWhile (· = '*'))
  else if pattern.head? = some '*' then endsWith name.toList (pattern.dropWhile (· = '*'))
  else
    match starSides resource.pattern with
    | some (start, final) => startsWith name.toList start && endsWith name.toList final
    | none => resource.pattern = name

/-- What a pattern says: the text has some string in the place of each star. -/
inductive Expands : List Char → List Char → Prop
  | nil : Expands [] []
  | char {c : Char} {pattern text : List Char} (hc : c ≠ '*') (h : Expands pattern text) :
    Expands (c :: pattern) (c :: text)
  | star (filling : List Char) {pattern text : List Char} (h : Expands pattern text) :
    Expands ('*' :: pattern) (filling ++ text)

variable {start final text : List Char}

theorem expands_append (h : '*' ∉ start) (pattern : List Char) :
    Expands (start ++ pattern) text ↔ ∃ rest, text = start ++ rest ∧ Expands pattern rest := by
  induction start generalizing text with
  | nil => simp
  | cons c start ih =>
    obtain ⟨hc, hstart⟩ := not_or.mp (mt mem_cons.mpr h)
    constructor
    · rintro (_ | ⟨-, htail⟩ | _)
      · obtain ⟨rest, rfl, hrest⟩ := (ih hstart).mp htail
        exact ⟨rest, rfl, hrest⟩
      · exact absurd rfl hc
    · rintro ⟨rest, rfl, hrest⟩
      exact .char (Ne.symm hc) ((ih hstart).mpr ⟨rest, rfl, hrest⟩)

theorem expands_plain (h : '*' ∉ start) : Expands start text ↔ start = text := by
  have hnil : ∀ rest, Expands [] rest ↔ rest = [] := fun rest =>
    ⟨fun h => by cases h; rfl, fun h => h ▸ .nil⟩
  rw [← append_nil start, expands_append h]
  simp [hnil, eq_comm]

theorem expands_sides (hstart : '*' ∉ start) (hfinal : '*' ∉ final) :
    Expands (start ++ '*' :: final) text ↔ ∃ filling, text = start ++ (filling ++ final) := by
  rw [expands_append hstart]
  constructor
  · rintro ⟨rest, rfl, h⟩
    cases h with
    | char hc _ => exact absurd rfl hc
    | star filling h => exact ⟨filling, by rw [(expands_plain hfinal).mp h]⟩
  · rintro ⟨filling, rfl⟩
    exact ⟨_, rfl, .star filling ((expands_plain hfinal).mpr rfl)⟩

/-- Each star may stand for itself. -/
theorem expands_self (pattern : List Char) : Expands pattern pattern := by
  induction pattern with
  | nil => exact .nil
  | cons c pattern ih =>
    by_cases hc : c = '*'
    · subst hc
      exact .star ['*'] ih
    · exact .char hc ih

theorem Expands.append {pattern pattern' text' : List Char} (h : Expands pattern text)
    (h' : Expands pattern' text') : Expands (pattern ++ pattern') (text ++ text') := by
  induction h with
  | nil => exact h'
  | char hc _ ih => exact .char hc ih
  | star filling _ ih =>
    rw [append_assoc]
    exact .star filling ih

theorem expands_star (text : List Char) : Expands ['*'] text := by
  rw [← append_nil text]
  exact .star text .nil

/-- Stars cut off the end of a pattern stand for whatever follows. -/
theorem expands_of_rdropWhile {pattern : List Char}
    (h : pattern.rdropWhile (· = '*') <+: text) : Expands (pattern ++ ['*']) text := by
  induction pattern using reverseRecOn with
  | nil => exact expands_star text
  | append_singleton pattern c ih =>
    by_cases hc : c = '*'
    · subst hc
      rw [rdropWhile_concat_pos _ _ _ (by simp)] at h
      rw [← append_nil text]
      exact (ih h).append (expands_star [])
    · rw [rdropWhile_concat_neg _ _ _ (by simpa using hc)] at h
      obtain ⟨rest, rfl⟩ := h
      exact (expands_self _).append (expands_star rest)

theorem expands_of_dropWhile {pattern : List Char} (h : pattern.dropWhile (· = '*') <:+ text) :
    Expands ('*' :: pattern) text := by
  induction pattern with
  | nil => exact expands_star text
  | cons c pattern ih =>
    by_cases hc : c = '*'
    · subst hc
      exact .star [] (ih (by simpa using h))
    · rw [dropWhile_cons_of_neg (by simpa using hc)] at h
      obtain ⟨rest, rfl⟩ := h
      exact .star rest (expands_self _)

theorem Between.of_expands {text : String} (hstart : '*' ∉ start) (hfinal : '*' ∉ final)
    (h : Expands (start ++ '*' :: final) text.toList) :
    Between start final text ∧ start.length + final.length ≤ text.toList.length := by
  obtain ⟨filling, htext⟩ := (expands_sides hstart hfinal).mp h
  rw [Between, htext]
  refine ⟨⟨prefix_append _ _, (suffix_append _ _).trans (suffix_append _ _)⟩, ?_⟩
  simp only [length_append]
  omega

/-- The two sides of a star found independently are those of an expansion, unless they overlap. -/
theorem Between.expands {text : String} (hstart : '*' ∉ start) (hfinal : '*' ∉ final)
    (h : Between start final text)
    (hlong : start.length + final.length ≤ text.toList.length) :
    Expands (start ++ '*' :: final) text.toList := by
  obtain ⟨⟨rest, hrest⟩, hsuffix⟩ := h
  rw [← hrest] at hsuffix hlong ⊢
  rw [length_append] at hlong
  obtain ⟨filling, hfilling⟩ := suffix_of_suffix_length_le hsuffix
    (suffix_append start rest) (by omega)
  exact (expands_sides hstart hfinal).mpr ⟨filling, by rw [hfilling]⟩

section matchers

variable {pattern : String} (engine : RegexEngine) (rule : AclRule) (type : ResourceType)
  (text : String)

theorem compiled_eq_appliesToPrincipal
    (hplain : ¬ rule.principal.toList.any regexCharacters.contains) :
    ∃ compiled, CompiledPattern.compile engine rule.principal = some compiled ∧
      compiled.matches engine text = rule.appliesToPrincipal text := by
  rw [CompiledPattern.compile, AclRule.appliesToPrincipal]
  by_cases hall : rule.principal = "*"
  · rw [if_pos hall, if_pos hall]
    exact ⟨_, rfl, rfl⟩
  · rw [if_neg hall, if_neg hall]
    cases starSides rule.principal with
    | some sides => exact ⟨_, rfl, rfl⟩
    | none => exact ⟨_, if_neg hplain, decide_eq_decide.mpr eq_comm⟩

theorem matchesName_of_sides (h : starSides pattern = some (start, final)) :
    (ResourcePattern.mk type pattern).matchesName text = true ↔ Between start final text := by
  obtain ⟨hlist, hstart, hfinal⟩ := starSides_eq_some_iff.mp h
  simp only [ResourcePattern.matchesName, hlist, eq_star_iff hlist, getLast?_eq_star_iff hfinal,
    head?_eq_star_iff hstart, h, Between, startsWith, endsWith]
  split
  · rename_i hall
    simp [hall]
  · split
    · rename_i hend
      have hcut : start.rdropWhile (· = '*') = start :=
        rdropWhile_eq_self_iff.mpr fun hne hlast =>
          hstart (of_decide_eq_true hlast ▸ getLast_mem hne)
      simp [hend, hcut]
    · split
      · rename_i hbegin
        have hcut : final.dropWhile (· = '*') = final := by
          refine dropWhile_eq_self_iff.mpr fun hlen hhead => ?_
          exact hfinal (of_decide_eq_true hhead ▸ getElem_mem hlen)
        simp [hbegin, hcut]
      · simp

/-- With no star or several, the name that is spelled like the pattern is taken in, and no name
that the pattern does not stand for. -/
theorem matchesName_of_no_sides (text : String) (h : starSides pattern = none) :
    (pattern = text → (ResourcePattern.mk type pattern).matchesName text = true) ∧
      ((ResourcePattern.mk type pattern).matchesName text = true →
        Expands pattern.toList text.toList) := by
  have hall : pattern ≠ "*" := by
    rintro rfl
    cases starSides_star.symm.trans h
  simp only [ResourcePattern.matchesName, if_neg hall, h, startsWith, endsWith]
  split
  · rename_i hlast
    refine ⟨fun heq => heq ▸ isPrefixOf_iff_prefix.mpr ( rdropWhile_prefix _ _), fun hmatch => ?_⟩
    obtain ⟨init, hinit⟩ := getLast?_eq_some_iff.mp hlast
    rw [hinit, rdropWhile_concat_pos _ _ _ (by simp)] at hmatch
    rw [hinit]
    exact expands_of_rdropWhile ( isPrefixOf_iff_prefix.mp hmatch)
  · split
    · rename_i hhead
      refine ⟨fun heq => heq ▸ isSuffixOf_iff_suffix.mpr (dropWhile_suffix _), fun hmatch => ?_⟩
      obtain ⟨tail, htail⟩ := head?_eq_some_iff.mp hhead
      rw [htail, dropWhile_cons_of_pos (by simp)] at hmatch
      rw [htail]
      exact expands_of_dropWhile (isSuffixOf_iff_suffix.mp hmatch)
    · refine ⟨decide_eq_true, fun hmatch => ?_⟩
      rw [← of_decide_eq_true hmatch]
      exact expands_self _

end matchers

/-- Where the stars are read rightly. With one star: a text that has the one side at its start and
the other at its end has room for both. With none or several: the text is spelled like the pattern,
or the pattern does not stand for it. -/
def ReadRightly (pattern text : String) : Prop :=
  match starSides pattern with
  | some (start, final) =>
    Between start final text → start.length + final.length ≤ text.toList.length
  | none => pattern = text ∨ ¬ Expands pattern.toList text.toList

/-- **What the stars mean.** The three matchers agree and take in exactly the texts the pattern stands
for, if and only if the stars are read rightly. -/
theorem stars_agree_iff (engine : RegexEngine) (rule : AclRule) (type : ResourceType)
    (text : String) (hplain : ¬ rule.principal.toList.any regexCharacters.contains) :
    (∃ compiled, CompiledPattern.compile engine rule.principal = some compiled ∧
      (compiled.matches engine text = true ↔ Expands rule.principal.toList text.toList) ∧
      rule.appliesToPrincipal text = compiled.matches engine text ∧
      (ResourcePattern.mk type rule.principal).matchesName text = compiled.matches engine text) ↔
    ReadRightly rule.principal text := by
  obtain ⟨compiled, hcompile, hmatches⟩ := compiled_eq_appliesToPrincipal engine rule text hplain
  simp only [hcompile, Option.some.injEq, exists_eq_left', hmatches, true_and]
  have hname := Bool.eq_iff_iff (a := (ResourcePattern.mk type rule.principal).matchesName text)
    (b := rule.appliesToPrincipal text)
  rw [ReadRightly, hname]
  cases hsides : starSides rule.principal with
  | some sides =>
    obtain ⟨start, final⟩ := sides
    obtain ⟨hlist, hstart, hfinal⟩ := starSides_eq_some_iff.mp hsides
    rw [matchesName_of_sides type text hsides, appliesToPrincipal_of_sides hsides, hlist]
    constructor
    · rintro ⟨hexpands, -⟩ hbetween
      exact (Between.of_expands hstart hfinal (hexpands.mp hbetween)).2
    · intro hroom
      refine ⟨⟨fun hbetween => hbetween.expands hstart hfinal (hroom hbetween), fun h => ?_⟩, Iff.rfl⟩
      exact (Between.of_expands hstart hfinal h).1
  | none =>
    obtain ⟨hself, hname⟩ := matchesName_of_no_sides type text hsides
    rw [appliesToPrincipal_of_no_sides hsides]
    constructor
    · rintro ⟨hexpands, -⟩
      exact or_iff_not_imp_left.mpr fun hne h => hne (hexpands.mpr h)
    · rintro (heq | hnot)
      · exact ⟨iff_of_true heq (heq ▸ expands_self _), iff_of_true (hself heq) heq⟩
      · have hne : rule.principal ≠ text := fun heq => hnot (heq ▸ expands_self _)
        exact ⟨iff_of_false hne hnot, iff_of_false (fun h => hnot (hname h)) hne⟩

def plainEngine : RegexEngine := ⟨fun _ => true, fun _ _ => false⟩

def ordersRule (principal : String) (operations : List AclOperation) (effect : Effect) : AclRule :=
  ⟨"r", principal, ⟨.topic, "orders"⟩, operations, effect, []⟩

theorem stars_agree_iff_team : ∃ compiled,
    CompiledPattern.compile plainEngine "team-*-eu" = some compiled ∧
      (compiled.matches plainEngine "team-a-eu" = true ↔
        Expands "team-*-eu".toList "team-a-eu".toList) := by
  have hread : ReadRightly "team-*-eu" "team-a-eu" := fun _ => by decide +kernel
  obtain ⟨compiled, hcompile, hmatches, -⟩ := (stars_agree_iff plainEngine
    (ordersRule "team-*-eu" [.read] .allow) .topic "team-a-eu" (by decide +kernel)).mpr hread
  exact ⟨compiled, hcompile, hmatches⟩

/-- The sides of one star overlap, and two stars are not taken for stars or only at the end. -/
theorem stars_misread :
    (CompiledPattern.compile plainEngine "a*a").map (·.matches plainEngine "a") = some true ∧
    ¬ Expands "a*a".toList "a".toList ∧
    (CompiledPattern.compile plainEngine "a*b*").map (·.matches plainEngine "acbd") = some false ∧
    Expands "a*b*".toList "acbd".toList ∧
    (CompiledPattern.compile plainEngine "**").map (·.matches plainEngine "a") = some false ∧
    (ResourcePattern.mk .topic "**").matchesName "a" = true := by
  refine ⟨by decide +kernel, fun h => ?_, by decide +kernel, ?_, by decide +kernel,
    by decide +kernel⟩
  · obtain ⟨filling, hfilling⟩ := (@expands_sides ['a'] ['a'] _ (by decide)
      (by decide)).mp h
    simpa using congrArg length hfilling
  · exact .char (by decide) (.star ['c'] (.char (by decide) (.star ['d'] .nil)))

/-! ## The operation `All` -/

def AclOperation.others : List AclOperation :=
  [.read, .write, .admin, .describe, .cluster, .connect, .delete, .alter, .create, .list]

/-- In one of the two lists `All` stands in place of all other operations in the other one. -/
inductive SameOperations : List AclOperation → List AclOperation → Prop
  | refl (operations : List AclOperation) : SameOperations operations operations
  | expand (before after : List AclOperation) :
    SameOperations (before ++ .all :: after) (before ++ AclOperation.others ++ after)
  | collapse (before after : List AclOperation) :
    SameOperations (before ++ AclOperation.others ++ after) (before ++ .all :: after)

/-- The same rule, with `All` written out or back. -/
structure Exchanged (rule other : VersionedAclRule) : Prop where
  operations : SameOperations rule.rule.operations other.rule.operations
  same : { other with rule := { other.rule with operations := rule.rule.operations } } = rule

/-- What `evaluate_rules` reads of a matching rule. -/
def verdict (engine : RegexEngine) (query : Query) (rule : VersionedAclRule) :
    Option (Effect × String) :=
  (pushedEntry engine query rule).map fun entry => (entry.rule.effect, entry.rule.id)

variable {engine : RegexEngine} {query : Query} {rules others : List VersionedAclRule}
  {operation : AclOperation}

theorem evaluateQuery_eq_verdicts (engine : RegexEngine) (rules : List VersionedAclRule)
    (query : Query) : evaluateQuery engine rules query =
      match (rules.filterMap (verdict engine query)).find? (·.1 = .deny) with
      | some found => .deny ("Denied by rule '" ++ found.2 ++ "' for principal '" ++
          query.principal ++ "' on resource '" ++ query.resource ++ "'")
      | none => if (rules.filterMap (verdict engine query)).any (·.1 = .allow) then .allow
          else .noMatch := by
  rw [evaluateQuery, show verdict engine query = fun rule => (pushedEntry engine query rule).map
    fun entry => (entry.rule.effect, entry.rule.id) from rfl, ← map_filterMap,
    find?_map, any_map]
  simp only [Function.comp_def]
  cases (rules.filterMap (pushedEntry engine query)).find? fun entry =>
    decide (entry.rule.effect = .deny) with
  | some entry => rfl
  | none => rfl

/-- The rule is in force and matches in everything but the operation. -/
def reaches (engine : RegexEngine) (query : Query) (rule : VersionedAclRule) : Bool :=
  !rule.deleted && (match AclEntry.fromRule engine rule.rule with
    | some entry => entry.principalPattern.matches engine query.principal &&
        entry.resourcePattern.matches engine query.resource &&
        conditionsMatch rule.rule.conditions query.context
    | none => false)

theorem verdict_eq (engine : RegexEngine) (query : Query) (rule : VersionedAclRule) :
    verdict engine query rule =
      if reaches engine query rule = true ∧ query.operation ∈ rule.rule.operations then
        some (rule.rule.effect, rule.rule.id)
      else none := by
  rw [verdict, pushedEntry, reaches]
  cases hentry : AclEntry.fromRule engine rule.rule with
  | none => simp
  | some entry =>
    have hrule := rule_of_fromRule hentry
    simp only [AclEntry.matchesQuery, hrule, ← contains_iff_mem]
    cases rule.deleted with
    | true => rfl
    | false =>
      simp only [Bool.not_false, Bool.true_and, Bool.and_eq_true, Bool.false_eq_true, if_false,
        and_right_comm]
      split_ifs
      · simp [hrule]
      · rfl

theorem Exchanged.reaches_eq {rule other : VersionedAclRule} (h : Exchanged rule other) :
    reaches engine query rule = reaches engine query other := by
  rw [← h.same, reaches, reaches, AclEntry.fromRule, AclEntry.fromRule]
  cases CompiledPattern.compile engine other.rule.principal with
  | none => rfl
  | some principal =>
    cases CompiledPattern.compile engine other.rule.resource.pattern with
    | none => rfl
    | some resource => rfl

/-- The replaced rule does not reach the query, or the operation is named in both of its forms. -/
def Unaffected (engine : RegexEngine) (query : Query) (rule other : VersionedAclRule) : Prop :=
  reaches engine query rule = true →
    (query.operation ∈ rule.rule.operations ↔ query.operation ∈ other.rule.operations)

theorem Exchanged.verdict_eq_iff {rule other : VersionedAclRule} (h : Exchanged rule other) :
    verdict engine query rule = verdict engine query other ↔ Unaffected engine query rule other := by
  have hsame : rule.rule.effect = other.rule.effect ∧ rule.rule.id = other.rule.id := by
    rw [← h.same]
    exact ⟨rfl, rfl⟩
  rw [verdict_eq, verdict_eq, ← h.reaches_eq, hsame.1, hsame.2, Unaffected]
  by_cases hreaches : reaches engine query rule = true
  · simp only [hreaches, true_and, true_implies]
    by_cases hrule : query.operation ∈ rule.rule.operations
    · by_cases hother : query.operation ∈ other.rule.operations
      · simp [hrule, hother]
      · simp [hrule, hother]
    · by_cases hother : query.operation ∈ other.rule.operations
      · simp [hrule, hother]
      · simp [hrule, hother]
  · simp [hreaches]

/-- The answer about one rule tells its verdict. -/
theorem verdict_of_evaluateQuery {rule other : VersionedAclRule} (h : Exchanged rule other)
    (hsame : evaluateQuery engine [rule] query = evaluateQuery engine [other] query) :
    verdict engine query rule = verdict engine query other := by
  rw [evaluateQuery_eq_verdicts, evaluateQuery_eq_verdicts, filterMap_cons, filterMap_cons,
    filterMap_nil] at hsame
  have heffect : rule.rule.effect = other.rule.effect := by rw [← h.same]
  have hid : rule.rule.id = other.rule.id := by rw [← h.same]
  rw [verdict_eq, verdict_eq, heffect, hid] at hsame ⊢
  split_ifs at hsame ⊢ <;> cases hother : other.rule.effect <;> simp_all

/-- **`All` written out.** Where each replaced rule is unaffected, replacing `All` by all other
operations, or these by `All`, changes no answer; and a rule can be replaced in every list without a
change exactly if it is unaffected. A deny rule that reaches the query denies in every list exactly
if it names the operation, whether or not it has `All`. -/
theorem all_operation_iff (engine : RegexEngine) (query : Query) :
    (∀ rules others, Forall₂ Exchanged rules others →
      Forall₂ (Unaffected engine query) rules others →
        evaluateQuery engine rules query = evaluateQuery engine others query) ∧
    (∀ rule other, Exchanged rule other →
      ((∀ before after, evaluateQuery engine (before ++ rule :: after) query =
          evaluateQuery engine (before ++ other :: after) query) ↔
        Unaffected engine query rule other)) ∧
    ∀ rule, reaches engine query rule = true → rule.rule.effect = .deny →
      ((∀ before after, (evaluateQuery engine (before ++ rule :: after) query).kind = .deny) ↔
        query.operation ∈ rule.rule.operations) := by
  refine ⟨fun rules others hrules hunaffected => ?_, fun rule other hrule => ⟨fun h => ?_,
    fun h before after => ?_⟩, fun rule hreaches hdeny => ⟨fun h => ?_, fun h before after => ?_⟩⟩
  · have hverdicts : rules.filterMap (verdict engine query) =
        others.filterMap (verdict engine query) := by
      induction hrules with
      | nil => rfl
      | cons hrule _ ih =>
        cases hunaffected with
        | cons h hrest => rw [filterMap_cons, filterMap_cons, hrule.verdict_eq_iff.mpr h, ih hrest]
    rw [evaluateQuery_eq_verdicts, evaluateQuery_eq_verdicts, hverdicts]
  · exact hrule.verdict_eq_iff.mp (verdict_of_evaluateQuery hrule (h [] []))
  · rw [evaluateQuery_eq_verdicts, evaluateQuery_eq_verdicts, filterMap_append, filterMap_append,
      filterMap_cons, filterMap_cons, hrule.verdict_eq_iff.mpr h]
  · by_contra hnot
    have hnone := h [] []
    rw [nil_append, evaluateQuery_eq_verdicts, filterMap_cons, verdict_eq,
      if_neg fun hboth => hnot hboth.2] at hnone
    cases hnone
  · rw [evaluateQuery_eq_verdicts, filterMap_append, filterMap_cons, verdict_eq,
      if_pos ⟨hreaches, h⟩, hdeny]
    split
    · rfl
    · rename_i hnone
      exact absurd (find?_eq_none.mp hnone (.deny, rule.rule.id) (by simp)) (by simp)

def denyAll (operations : List AclOperation) : List VersionedAclRule :=
  [⟨ordersRule "*" operations .deny, 1, false⟩]

def readOrders : Query := ⟨"alice", "orders", .read, none⟩

/-- A deny rule on `All` alone denies no reading, and one on all other operations does. -/
theorem all_operation_ignored : Forall₂ Exchanged (denyAll [.all]) (denyAll AclOperation.others) ∧
    evaluateQuery plainEngine (denyAll [.all]) readOrders = .noMatch ∧
    (evaluateQuery plainEngine (denyAll AclOperation.others) readOrders).kind = .deny :=
  ⟨.cons ⟨.expand [] [], rfl⟩ .nil, by decide +kernel, by decide +kernel⟩

end RustMq.Security
