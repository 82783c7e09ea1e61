import RustMq.Server.Requests
import RustMq.Security.RuleLookup
import RustMq.Security.RuleOrder

/-!
# Rules and the resources of requests

The resource of a request is a string with its kind in front, `topic:orders`, and a rule is matched
against the whole string: the resource type of the rule is not looked at. The validator of rules
does not admit a colon in a pattern. So a rule that names a topic exactly applies to no request at
all, and a rule on topics whose pattern has a star can apply to requests for consumer groups and for
the cluster.
-/

namespace RustMq.Server

open Lib Security AclManager List Option

variable {engine : RegexEngine} {request : Security.Request} {rule : VersionedAclRule}
  {text : List Char}

/-! ## When a rule applies -/

theorem applies_iff :
    Applies engine request rule ↔ rule.deleted = false ∧
      (∃ pattern, CompiledPattern.compile engine rule.rule.principal = some pattern ∧
        pattern.matches engine request.principal = true) ∧
      (∃ pattern, CompiledPattern.compile engine rule.rule.resource.pattern = some pattern ∧
        pattern.matches engine request.resource = true) ∧
      rule.rule.operations.contains request.operation.operation = true ∧
      conditionsMatch rule.rule.conditions request.context = true := by
  rw [Applies, matchingEntry, AclEntry.fromRule]
  cases hdeleted : rule.deleted with
  | true => simp
  | false =>
    cases CompiledPattern.compile engine rule.rule.principal with
    | none => simp
    | some principalPattern =>
      cases CompiledPattern.compile engine rule.rule.resource.pattern with
      | none => simp
      | some resourcePattern =>
        simp only [Bool.false_eq_true, if_false, bind_eq_bind, bind_some,
          AclEntry.matches, true_and, some.injEq, exists_eq_left', Bool.and_eq_true]
        split_ifs with happlies
        · simp only [isSome_some, true_iff]
          exact ⟨happlies.1.1.1, happlies.1.1.2, happlies.1.2, happlies.2⟩
        · simp only [isSome_none, Bool.false_eq_true, false_iff]
          intro h
          exact happlies ⟨⟨⟨h.1, h.2.1⟩, h.2.2.1⟩, h.2.2.2⟩

theorem evaluateRules_eq_noMatch {rules : List VersionedAclRule}
    (h : ∀ rule ∈ rules, ¬ Applies engine request rule) :
    evaluateRules engine rules request = .noMatch := by
  have hnone : rules.filterMap (matchingEntry engine request) = [] := by
    rw [filterMap_eq_nil_iff]
    intro rule hrule
    exact not_isSome_iff_eq_none.mp (h rule hrule)
  rw [evaluateRules, hnone]
  rfl

/-! ## Exact patterns -/

theorem resourceCharacter_of_validateRule {rule : AclRule} (h : validateRule rule = true) :
    ∀ c ∈ rule.resource.pattern.toList, (principalCharacter c || c = '/') = true := by
  simp only [validateRule, Bool.and_eq_true] at h
  exact all_eq_true.mp h.1.1.1.2.2

variable {pattern : String} {compiled : CompiledPattern}

theorem compile_eq_exact (hstar : '*' ∉ pattern.toList)
    (hchars : ∀ c ∈ pattern.toList, (principalCharacter c || c = '/') = true) :
    CompiledPattern.compile engine pattern = some (.exact pattern) := by
  have hne : pattern ≠ "*" := by
    rintro rfl
    exact hstar (by decide)
  have hsides : starSides pattern = none := by
    rw [starSides, splitOn_eq_singleton hstar]
  rw [CompiledPattern.compile, if_neg hne, hsides]
  simp only [if_neg (not_any_regexCharacters hchars)]

theorem not_applies_of_exact (hvalid : validateRule rule.rule = true)
    (hstar : '*' ∉ rule.rule.resource.pattern.toList) (principal : String) (type : RequestType)
    (data : List UInt8) : ¬ Applies engine (accessRequest principal type data) rule := by
  intro happlies
  obtain ⟨-, -, ⟨pattern, hcompile, hmatches⟩, -, -⟩ := applies_iff.mp happlies
  have hchars := resourceCharacter_of_validateRule hvalid
  rw [compile_eq_exact hstar hchars] at hcompile
  cases hcompile
  have hresource : extractResource type data = rule.rule.resource.pattern :=
    of_decide_eq_true hmatches
  have hcolon := hchars ':' (hresource ▸ colon_mem_extractResource type data)
  revert hcolon
  decide

/-- The only rule whose principal pattern takes in `principal` allows it to write to `topic`; the
pattern of the rule is the name of the topic. -/
structure SoleRule (engine : RegexEngine) (rules : List VersionedAclRule) (principal topic : String)
    (rule : VersionedAclRule) : Prop where
  mem : rule ∈ rules
  live : rule.deleted = false
  accepted : validateRule rule.rule = true
  principal_eq : rule.rule.principal = principal
  principal_plain : '*' ∉ principal.toList
  resource_eq : rule.rule.resource = ⟨.topic, topic⟩
  topic_plain : '*' ∉ topic.toList
  operation : AclOperation.write ∈ rule.rule.operations
  effect : rule.rule.effect = .allow
  others : ∀ other ∈ rules, other ≠ rule →
    ∀ pattern, CompiledPattern.compile engine other.rule.principal = some pattern →
      pattern.matches engine principal = false

/-- A produce request for the topic is not allowed by the rule. -/
theorem produce_not_allowed {rules : List VersionedAclRule} {principal topic : String}
    {rule : VersionedAclRule} (hsole : SoleRule engine rules principal topic rule)
    {data : List UInt8} {request : ProduceRequest}
    (hdata : produceRequestCodec.decode data = some request) (htopic : request.topic = topic) :
    (accessRequest principal .produce data).resource = "topic:" ++ topic ∧
      evaluateRules engine rules (accessRequest principal .produce data) = .noMatch := by
  constructor
  · rw [← htopic]
    exact extractResource_produce hdata
  · apply evaluateRules_eq_noMatch
    intro other hother happlies
    by_cases hrule : other = rule
    · subst hrule
      refine not_applies_of_exact hsole.accepted ?_ principal .produce data happlies
      rw [hsole.resource_eq]
      exact hsole.topic_plain
    · obtain ⟨-, ⟨pattern, hcompile, hmatches⟩, -⟩ := applies_iff.mp happlies
      have hfalse := hsole.others other hother hrule pattern hcompile
      rw [show pattern.matches engine principal = true from hmatches] at hfalse
      cases hfalse

def noRegex : RegexEngine where
  valid _ := false
  isMatch _ _ := false

def writeOrders : VersionedAclRule where
  rule := ⟨"r1", "alice", ⟨.topic, "orders"⟩, [.write], .allow, []⟩
  version := 1
  deleted := false

def produceOrders : ProduceRequest := ⟨"orders", 0, [], .leader, 1000⟩

theorem produce_not_allowed_orders : SoleRule noRegex [writeOrders] "alice" "orders" writeOrders ∧
      ((accessRequest "alice" .produce (produceRequestCodec.enc produceOrders)).resource =
          "topic:" ++ "orders" ∧
        evaluateRules noRegex [writeOrders]
          (accessRequest "alice" .produce (produceRequestCodec.enc produceOrders)) = .noMatch) := by
  have hsole : SoleRule noRegex [writeOrders] "alice" "orders" writeOrders := by
    constructor
    · exact mem_singleton_self writeOrders
    · rfl
    · decide +kernel
    · rfl
    · decide
    · rfl
    · decide
    · exact mem_singleton_self AclOperation.write
    · rfl
    · intro other hother hne
      exact absurd (mem_singleton.mp hother) hne
  have hdata : produceRequestCodec.decode (produceRequestCodec.enc produceOrders) =
      some produceOrders := by
    decide +kernel
  exact ⟨hsole, produce_not_allowed hsole hdata rfl⟩

/-- The rule, the request and the decision. -/
theorem write_orders_refused : validateRule writeOrders.rule = true ∧
      extractResource .produce (produceRequestCodec.enc produceOrders) = "topic:orders" ∧
      evaluateRules noRegex [writeOrders]
        (accessRequest "alice" .produce (produceRequestCodec.enc produceOrders)) = .noMatch := by
  decide +kernel

/-! ## Rules on topics, requests for consumer groups and the cluster -/

def groupStart : List Char := "consumer_group:".toList

/-- The pattern matches no resource of a request for a consumer group or for the cluster. -/
def StaysClear (engine : RegexEngine) : CompiledPattern → Prop
  | .exact text => text ≠ "cluster:metadata" ∧ text ≠ "cluster:consumer_group" ∧
      startsWith text.toList groupStart = false
  | .wildcard start final =>
    (CompiledPattern.wildcard start final).matches engine "cluster:metadata" = false ∧
      (CompiledPattern.wildcard start final).matches engine "cluster:consumer_group" = false ∧
      startsWith start groupStart = false ∧ startsWith groupStart start = false
  | .regex pattern => ∀ type data, RequestType.aboutTopic type = false →
      engine.isMatch pattern (extractResource type data) = false
  | .all => False

theorem startsWith_iff {start : List Char} : startsWith text start = true ↔ start <+: text :=
  isPrefixOf_iff_prefix

theorem endsWith_iff {final : List Char} : endsWith text final = true ↔ final <:+ text :=
  isSuffixOf_iff_suffix

theorem toList_group (g : String) : ("consumer_group:" ++ g).toList = groupStart ++ g.toList :=
  String.toList_append

theorem StaysClear.not_matches {pattern : CompiledPattern} (h : StaysClear engine pattern)
    {type : RequestType} (htype : type.aboutTopic = false) (data : List UInt8) :
    pattern.matches engine (extractResource type data) = false := by
  cases pattern with
  | exact text =>
    obtain ⟨hmetadata, hgroups, hstart⟩ := h
    apply decide_eq_false
    rcases extractResource_cases htype data with heq | heq | ⟨g, heq⟩
    · rw [heq]
      exact hmetadata.symm
    · rw [heq]
      exact hgroups.symm
    · rw [heq]
      rintro rfl
      rw [toList_group, startsWith_iff.mpr (prefix_append _ _)] at hstart
      cases hstart
  | wildcard start final =>
    obtain ⟨hmetadata, hgroups, hlong, hshort⟩ := h
    rcases extractResource_cases htype data with heq | heq | ⟨g, heq⟩
    · rw [heq]
      exact hmetadata
    · rw [heq]
      exact hgroups
    · rw [heq, CompiledPattern.matches, toList_group]
      -- of two texts that start the same text, one starts the other
      have hno : startsWith (groupStart ++ g.toList) start = false := by
        by_contra hyes
        have hprefix := startsWith_iff.mp (Bool.not_eq_false _ ▸ hyes)
        rcases prefix_or_prefix_of_prefix hprefix (prefix_append groupStart g.toList)
          with hpre | hpre
        · rw [startsWith_iff.mpr hpre] at hshort
          cases hshort
        · rw [startsWith_iff.mpr hpre] at hlong
          cases hlong
      rw [hno, Bool.false_and]
  | regex pattern => exact h type data htype
  | all => exact h.elim

theorem compile_cases (h : CompiledPattern.compile engine pattern = some compiled) :
    compiled = .all ∨
      (∃ start final, pattern.toList = start ++ '*' :: final ∧ compiled = .wildcard start final) ∨
      compiled = .regex pattern ∨ compiled = .exact pattern := by
  rw [CompiledPattern.compile] at h
  by_cases hall : pattern = "*"
  · rw [if_pos hall] at h
    exact .inl (some.inj h).symm
  · rw [if_neg hall] at h
    cases hsides : starSides pattern with
    | some sides =>
      obtain ⟨start, final⟩ := sides
      simp only [hsides] at h
      refine .inr (.inl ⟨start, final, ?_, (some.inj h).symm⟩)
      exact (starSides_eq_some_iff.mp hsides).1
    | none =>
      simp only [hsides] at h
      split_ifs at h with hregex hvalid
      · exact .inr (.inr (.inl (some.inj h).symm))
      · exact .inr (.inr (.inr (some.inj h).symm))

theorem exists_groupResource (hfits : Codec.string.Fits pattern) {name : List Char}
    (hname : name.Sublist pattern.toList) :
    ∃ type data, RequestType.aboutTopic type = false ∧
      extractResource type data = "consumer_group:" ++ String.ofList name := by
  have hsize : (String.ofList name).utf8ByteSize ≤ pattern.utf8ByteSize := by
    rw [String.utf8ByteSize_ofList, ← String.ofList_toList (s := pattern),
      String.utf8ByteSize_ofList]
    exact String.utf8Len_le_of_sublist hname
  have hgroup : Codec.string.Fits (String.ofList name) := Nat.lt_of_le_of_lt hsize hfits
  exact ⟨.findCoordinator, _, rfl, extractResource_findCoordinator hgroup⟩

theorem exists_matches_of_not_staysClear (hfits : Codec.string.Fits pattern)
    (hcompile : CompiledPattern.compile engine pattern = some compiled)
    (h : ¬ StaysClear engine compiled) :
    ∃ type data, RequestType.aboutTopic type = false ∧
      compiled.matches engine (extractResource type data) = true := by
  have hmetadata : extractResource .metadata [] = "cluster:metadata" := rfl
  have hgroups : extractResource .findCoordinator [] = "cluster:consumer_group" := rfl
  rcases compile_cases hcompile with rfl | ⟨start, final, hlist, rfl⟩ | rfl | rfl
  · exact ⟨.metadata, [], rfl, rfl⟩
  · rw [StaysClear] at h
    by_contra hnone
    push Not at hnone
    refine h ⟨?_, ?_, ?_, ?_⟩
    · rw [← hmetadata]
      exact Bool.eq_false_of_not_eq_true (hnone .metadata [] rfl)
    · rw [← hgroups]
      exact Bool.eq_false_of_not_eq_true (hnone .findCoordinator [] rfl)
    · apply Bool.eq_false_of_not_eq_true
      intro hstart
      obtain ⟨rest, rfl⟩ := startsWith_iff.mp hstart
      have hsub : (rest ++ final).Sublist pattern.toList := by
        rw [hlist]
        exact (sublist_append_right _ _).append (sublist_cons_self _ _)
      obtain ⟨type, data, htype, hresource⟩ := exists_groupResource hfits hsub
      apply hnone type data htype
      rw [hresource, CompiledPattern.matches, toList_group, String.toList_ofList, Bool.and_eq_true]
      refine ⟨startsWith_iff.mpr ?_, endsWith_iff.mpr ?_⟩
      · rw [← append_assoc]
        exact prefix_append _ _
      · rw [← append_assoc]
        exact suffix_append _ _
    · apply Bool.eq_false_of_not_eq_true
      intro hstart
      have hsub : final.Sublist pattern.toList := by
        rw [hlist]
        exact (sublist_cons_self _ _).trans (sublist_append_right _ _)
      obtain ⟨type, data, htype, hresource⟩ := exists_groupResource hfits hsub
      apply hnone type data htype
      rw [hresource, CompiledPattern.matches, toList_group, String.toList_ofList, Bool.and_eq_true]
      refine ⟨startsWith_iff.mpr ?_, endsWith_iff.mpr ?_⟩
      · exact (startsWith_iff.mp hstart).trans (prefix_append _ _)
      · exact suffix_append _ _
  · rw [StaysClear] at h
    push Not at h
    obtain ⟨type, data, htype, hmatch⟩ := h
    exact ⟨type, data, htype, Bool.eq_true_of_not_eq_false hmatch⟩
  · rw [StaysClear] at h
    by_contra hnone
    push Not at hnone
    refine h ⟨?_, ?_, ?_⟩
    · rintro rfl
      exact hnone .metadata [] rfl rfl
    · rintro rfl
      exact hnone .findCoordinator [] rfl rfl
    · apply Bool.eq_false_of_not_eq_true
      intro hstart
      obtain ⟨name, hname⟩ := startsWith_iff.mp hstart
      have hsub : name.Sublist pattern.toList := by
        rw [← hname]
        exact sublist_append_right _ _
      obtain ⟨type, data, htype, hresource⟩ := exists_groupResource hfits hsub
      apply hnone type data htype
      apply decide_eq_true
      rw [hresource, ← String.toList_inj, toList_group, String.toList_ofList]
      exact hname

def PatternClear (engine : RegexEngine) (pattern : String) : Prop :=
  ∀ compiled, CompiledPattern.compile engine pattern = some compiled → StaysClear engine compiled

def openRule (pattern : String) (operation : AclOperation) : VersionedAclRule where
  rule := ⟨"open", "*", ⟨.topic, pattern⟩, [operation], .allow, []⟩
  version := 1
  deleted := false

theorem openRule_allows (hcompile : CompiledPattern.compile engine pattern = some compiled)
    (request : Security.Request) (hmatches : compiled.matches engine request.resource = true) :
    (evaluateRules engine [openRule pattern request.operation.operation] request).isAllowed =
      true := by
  rw [evaluateRules_isAllowed_iff]
  constructor
  · refine ⟨_, mem_singleton_self _, applies_iff.mpr ⟨rfl, ?_, ?_, ?_, rfl⟩, rfl⟩
    · exact ⟨.all, rfl, rfl⟩
    · exact ⟨compiled, hcompile, hmatches⟩
    · simp [openRule]
  · intro rule hrule _
    rw [mem_singleton.mp hrule]
    intro h
    cases h

/-- **Rules cross resource types** exactly where a pattern does not stay clear of the resources of
other requests. -/
theorem topic_rules_stay_iff (engine : RegexEngine) (patterns : Set String)
    (hfits : ∀ pattern ∈ patterns, Codec.string.Fits pattern) :
    (∀ rules : List VersionedAclRule, (∀ rule ∈ rules,
        rule.rule.resource.resourceType = .topic ∧ rule.rule.resource.pattern ∈ patterns) →
      ∀ (type : RequestType) (data : List UInt8) (principal : String) (operation : Permission)
        (context : Option (List (String × String))), type.aboutTopic = false →
        (evaluateRules engine rules
          ⟨principal, extractResource type data, operation, context⟩).isAllowed = false) ↔
      ∀ pattern ∈ patterns, PatternClear engine pattern := by
  constructor
  · intro h pattern hpattern compiled hcompile
    by_contra hcrosses
    obtain ⟨type, data, htype, hmatches⟩ :=
      exists_matches_of_not_staysClear (hfits pattern hpattern) hcompile hcrosses
    have hrules : ∀ rule ∈ [openRule pattern .read],
        rule.rule.resource.resourceType = .topic ∧ rule.rule.resource.pattern ∈ patterns := by
      intro rule hrule
      rw [mem_singleton.mp hrule]
      exact ⟨rfl, hpattern⟩
    have hnot := h _ hrules type data "alice" .read none htype
    have hallows :=
      openRule_allows hcompile ⟨"alice", extractResource type data, .read, none⟩ hmatches
    rw [show Permission.operation .read = AclOperation.read from rfl, hnot] at hallows
    cases hallows
  · intro hclear rules hrules type data principal operation context htype
    apply Bool.eq_false_of_not_eq_true
    intro hallowed
    obtain ⟨⟨rule, hrule, happlies, -⟩, -⟩ := evaluateRules_isAllowed_iff.mp hallowed
    obtain ⟨-, -, ⟨compiled, hcompile, hmatches⟩, -⟩ := applies_iff.mp happlies
    have hnot := (hclear _ (hrules rule hrule).2 compiled hcompile).not_matches htype data
    rw [show compiled.matches engine (extractResource type data) = true from hmatches] at hnot
    cases hnot

theorem topic_rules_stay_iff_orders : PatternClear noRegex "orders/*" ∧
      (evaluateRules noRegex [openRule "orders/*" .read]
        ⟨"alice", extractResource .metadata [], .read, none⟩).isAllowed = false := by
  have hclear : PatternClear noRegex "orders/*" := by
    intro compiled hcompile
    have hwildcard : CompiledPattern.compile noRegex "orders/*" =
        some (.wildcard "orders/".toList []) := by
      decide +kernel
    rw [hwildcard] at hcompile
    cases hcompile
    exact ⟨rfl, rfl, rfl, rfl⟩
  have hfits : ∀ pattern ∈ ({"orders/*"} : Set String), Codec.string.Fits pattern := by
    intro pattern hpattern
    rw [Set.mem_singleton_iff.mp hpattern]
    show "orders/*".utf8ByteSize < 256 ^ 8
    decide +kernel
  have hpatterns : ∀ pattern ∈ ({"orders/*"} : Set String), PatternClear noRegex pattern := by
    intro pattern hpattern
    rw [Set.mem_singleton_iff.mp hpattern]
    exact hclear
  have hrules : ∀ rule ∈ [openRule "orders/*" .read], rule.rule.resource.resourceType = .topic ∧
      rule.rule.resource.pattern ∈ ({"orders/*"} : Set String) := by
    intro rule hrule
    rw [mem_singleton.mp hrule]
    exact ⟨rfl, rfl⟩
  exact ⟨hclear, (topic_rules_stay_iff noRegex {"orders/*"} hfits).mpr hpatterns _ hrules
    .metadata [] "alice" .read none rfl⟩

/-- A rule on all topics, which the validator accepts, opens the metadata of the cluster. -/
theorem every_topic_opens_cluster : validateRule (openRule "*" .read).rule = true ∧
      (openRule "*" .read).rule.resource.resourceType = .topic ∧
      extractResource .metadata [] = "cluster:metadata" ∧
      evaluateRules noRegex [openRule "*" .read]
        ⟨"alice", extractResource .metadata [], .read, none⟩ = .allow := by
  decide +kernel

end RustMq.Server
