import RustMq.Security.RuleStorage
import RustMq.Store.SegmentFiles

/-!
# Which rules a principal gets

`get_rules_for_principal` answers from the index, with a wildcard test of its own; the rules
themselves say what they apply to in `applies_to_principal`. This file says exactly where the two
agree: a star strictly inside a pattern is not seen by the index, a principal that is spelled like a
pattern is found twice, and a pattern with several stars is taken literally by the rule and not by
the index.

The index itself misses a rule only if an update brought the rule back from a deletion under the
pattern it had. A restart finds such a rule again.
-/

namespace RustMq.Security

open Lib List Store

/-! ## Patterns with one star -/

variable {start final : List Char} {pattern principal : String} {rule : AclRule}

theorem starSides_eq_some_iff : starSides pattern = some (start, final) ↔
      pattern.toList = start ++ '*' :: final ∧ '*' ∉ start ∧ '*' ∉ final := by
  rw [starSides]
  constructor
  · intro h
    by_cases hstar : '*' ∈ pattern.toList
    · obtain ⟨a, b, hlist, ha⟩ := eq_append_cons_of_mem hstar
      rw [hlist, splitOn_append_cons_self_of_not_mem ha] at h
      by_cases hb : '*' ∈ b
      · -- two stars give three parts
        obtain ⟨c, d, rfl, hc⟩ := eq_append_cons_of_mem hb
        rw [splitOn_append_cons_self_of_not_mem hc] at h
        obtain ⟨e, l, hd⟩ := exists_cons_of_ne_nil (splitOn_ne_nil '*' d)
        simp [hd] at h
      · rw [splitOn_eq_singleton hb] at h
        simp only [Option.some.injEq, Prod.mk.injEq] at h
        obtain ⟨rfl, rfl⟩ := h
        exact ⟨hlist, ha, hb⟩
    · rw [splitOn_eq_singleton hstar] at h
      simp at h
  · rintro ⟨hlist, hstart, hfinal⟩
    rw [hlist, splitOn_append_cons_self_of_not_mem hstart, splitOn_eq_singleton hfinal]

def AclRule.appliesToPrincipal (rule : AclRule) (principal : String) : Bool :=
  if rule.principal = "*" then true
  else
    match starSides rule.principal with
    | some (start, final) =>
      startsWith principal.toList start && endsWith principal.toList final
    | none => rule.principal = principal

/-- The principal lies between the two sides of the star. -/
def Between (start final : List Char) (principal : String) : Prop :=
  start <+: principal.toList ∧ final <:+ principal.toList

theorem starSides_star : starSides "*" = some ([], []) := by decide

theorem appliesToPrincipal_of_sides (h : starSides rule.principal = some (start, final))
    (principal : String) :
    rule.appliesToPrincipal principal = true ↔ Between start final principal := by
  rw [AclRule.appliesToPrincipal]
  split
  · rename_i hall
    rw [hall, starSides_star] at h
    cases h
    simp [Between]
  · simp [h, Between, startsWith, endsWith]

theorem appliesToPrincipal_of_no_sides (h : starSides rule.principal = none) (principal : String) :
    rule.appliesToPrincipal principal = true ↔ rule.principal = principal := by
  rw [AclRule.appliesToPrincipal]
  split
  · rename_i hall
    rw [hall, starSides_star] at h
    cases h
  · simp [h]

theorem eq_star_iff (h : pattern.toList = start ++ '*' :: final) :
    pattern = "*" ↔ start = [] ∧ final = [] := by
  rw [← String.toList_inj, h]
  cases start <;> simp

theorem getLast?_eq_star_iff (h : '*' ∉ final) :
    (start ++ '*' :: final).getLast? = some '*' ↔ final = [] := by
  cases final using reverseRecOn with
  | nil => simp
  | append_singleton l c =>
    have hne : c ≠ '*' := by
      intro hc
      simp [hc] at h
    rw [← cons_append, ← append_assoc, getLast?_concat]
    simp [hne]

theorem head?_eq_star_iff (h : '*' ∉ start) :
    (start ++ '*' :: final).head? = some '*' ↔ start = [] := by
  cases start with
  | nil => simp
  | cons c l =>
    have hne : c ≠ '*' := by
      intro hc
      simp [hc] at h
    simp [hne]

theorem starMatches_of_sides (h : starSides pattern = some (start, final)) (principal : String) :
    AclStorage.starMatches pattern principal = true ↔
      (start = [] ∨ final = []) ∧ Between start final principal := by
  obtain ⟨hlist, hstart, hfinal⟩ := starSides_eq_some_iff.mp h
  rw [AclStorage.starMatches, hlist]
  simp only [Bool.and_eq_true, Bool.or_eq_true, decide_eq_true_eq, eq_star_iff hlist,
    getLast?_eq_star_iff hfinal, head?_eq_star_iff hstart, startsWith, endsWith,
    isPrefixOf_iff_prefix, isSuffixOf_iff_suffix, Between]
  constructor
  · rintro ⟨-, (⟨rfl, rfl⟩ | ⟨rfl, hstarts⟩) | ⟨rfl, hends⟩⟩
    · simp
    · simp_all
    · simp_all
  · rintro ⟨rfl | rfl, hstarts, hends⟩
    · simp_all
    · simp_all

theorem between_self (h : starSides pattern = some (start, final)) :
    Between start final pattern := by
  obtain ⟨hlist, -, -⟩ := starSides_eq_some_iff.mp h
  rw [Between, hlist]
  constructor
  · exact prefix_append _ _
  · exact (suffix_cons _ _).trans (suffix_append _ _)

/-! ## Where index and rule agree -/

/-- The shapes on which the index finds a rule once if the rule applies, and else not at all. -/
def Agrees (pattern principal : String) : Prop :=
  match starSides pattern with
  | some (start, final) =>
    if start = [] ∨ final = [] then principal ≠ pattern
    else principal = pattern ∨ ¬ Between start final principal
  | none => AclStorage.starMatches pattern principal = false

theorem agrees_iff : Agrees rule.principal principal ↔
      ¬ (rule.principal = principal ∧ AclStorage.starMatches rule.principal principal = true) ∧
        ((rule.principal = principal ∨ AclStorage.starMatches rule.principal principal = true) ↔
          rule.appliesToPrincipal principal = true) := by
  rw [Agrees]
  cases h : starSides rule.principal with
  | some sides =>
    obtain ⟨start, final⟩ := sides
    have hself := between_self h
    simp only [starMatches_of_sides h, appliesToPrincipal_of_sides h]
    by_cases hend : start = [] ∨ final = []
    · simp only [hend, if_true, true_and]
      constructor
      · intro hne
        refine ⟨fun heq => hne heq.1.symm, ?_⟩
        exact ⟨fun hor => hor.resolve_left fun heq => hne heq.symm, Or.inr⟩
      · intro hagrees heq
        subst heq
        exact hagrees.1 ⟨rfl, hself⟩
    · simp only [hend, if_false, false_and, and_false, or_false, not_false_iff, true_and]
      constructor
      · rintro (heq | hnot)
        · subst heq
          exact iff_of_true rfl hself
        · refine iff_of_false ?_ hnot
          intro heq
          subst heq
          exact hnot hself
      · intro hiff
        by_cases heq : rule.principal = principal
        · exact Or.inl heq.symm
        · exact Or.inr fun hbetween => heq (hiff.mpr hbetween)
  | none =>
    simp only [appliesToPrincipal_of_no_sides h]
    cases hstar : AclStorage.starMatches rule.principal principal with
    | false | true => simp

/-! ## What the index finds -/

namespace RuleStorage

def Live (s : RuleStorage) (rule : VersionedAclRule) : Prop :=
  rule ∈ s.loadAllRules ∧ rule.deleted = false

section lookup

variable {s : RuleStorage}

variable {rule : VersionedAclRule}

theorem Sound.liveRule_eq_some_iff (h : Sound s) {id : String} :
    s.liveRule id = some rule ↔ s.objects.get? id = some rule ∧ rule.deleted = false := by
  simp [liveRule, h.rule?_eq, Option.filter_eq_some_iff]

theorem Sound.live_iff (h : Sound s) : s.Live rule ↔ s.liveRule rule.rule.id = some rule := by
  rw [Live, h.mem_loadAllRules, h.liveRule_eq_some_iff]

theorem mem_filterMap_liveRule (h : Sound s) (hcomplete : Complete s) :
    rule ∈ (s.principalIndex.ids pattern).filterMap s.liveRule ↔
      s.Live rule ∧ rule.rule.principal = pattern := by
  rw [mem_filterMap, h.live_iff]
  constructor
  · rintro ⟨id, hid, hlive⟩
    obtain ⟨hget, -⟩ := h.liveRule_eq_some_iff.mp hlive
    rw [h.keyed id rule hget]
    exact ⟨hlive, h.pattern_eq ((h.rule?_eq id).trans hget) hid⟩
  · rintro ⟨hlive, rfl⟩
    obtain ⟨hget, hdeleted⟩ := h.liveRule_eq_some_iff.mp hlive
    exact ⟨rule.rule.id, hcomplete _ rule hget hdeleted, hlive⟩

theorem nodup_filterMap_liveRule (h : Sound s) (pattern : String) :
    ((s.principalIndex.ids pattern).filterMap s.liveRule).Nodup := by
  apply Nodup.filterMap ?_ (h.distinct pattern)
  intro id id' rule hrule hrule'
  have hget := (h.liveRule_eq_some_iff.mp hrule).1
  have hget' := (h.liveRule_eq_some_iff.mp hrule').1
  rw [← h.keyed id rule hget, h.keyed id' rule hget']

theorem ids_of_mem_entries {index : PrincipalIndex} {entry : Σ _ : String, List String}
    (h : entry ∈ index.entries) : index.ids entry.1 = entry.2 := by
  rw [PrincipalIndex.ids, AList.mem_lookup_iff.mpr h]
  rfl

def wildcardRules (s : RuleStorage) (principal : String) : List VersionedAclRule :=
  s.principalIndex.entries.flatMap fun entry =>
    if AclStorage.starMatches entry.1 principal then entry.2.filterMap s.liveRule else []

theorem mem_wildcardRules (h : Sound s) (hcomplete : Complete s) :
    rule ∈ s.wildcardRules principal ↔
      s.Live rule ∧ AclStorage.starMatches rule.rule.principal principal = true := by
  rw [wildcardRules, mem_flatMap]
  constructor
  · rintro ⟨entry, hentry, hrule⟩
    split at hrule
    · rename_i hstar
      rw [← ids_of_mem_entries hentry] at hrule
      obtain ⟨hlive, hpattern⟩ := (mem_filterMap_liveRule h hcomplete).mp hrule
      exact ⟨hlive, hpattern ▸ hstar⟩
    · cases hrule
  · rintro ⟨hlive, hstar⟩
    have hmem := (mem_filterMap_liveRule h hcomplete).mpr ⟨hlive, rfl⟩
    cases hlookup : s.principalIndex.lookup rule.rule.principal with
    | none => simp [PrincipalIndex.ids, hlookup] at hmem
    | some ids =>
      refine ⟨⟨rule.rule.principal, ids⟩, AList.mem_lookup_iff.mp hlookup, ?_⟩
      rw [if_pos hstar]
      simpa [PrincipalIndex.ids, hlookup] using hmem

theorem nodup_wildcardRules (h : Sound s) (hcomplete : Complete s) (principal : String) :
    (s.wildcardRules principal).Nodup := by
  rw [wildcardRules, nodup_flatMap]
  constructor
  · intro entry hentry
    split
    · rw [← ids_of_mem_entries hentry]
      exact nodup_filterMap_liveRule h entry.1
    · exact nodup_nil
  · -- two entries have different patterns, and a rule has one
    have hkeys : s.principalIndex.entries.Pairwise fun a b => a.1 ≠ b.1 :=
      pairwise_map.mp s.principalIndex.nodupKeys
    apply (Pairwise.and_mem.mp hkeys).imp
    rintro a b ⟨ha, hb, hne⟩ rule hra hrb
    simp only at hra hrb
    split at hra
    · split at hrb
      · rw [← ids_of_mem_entries ha] at hra
        rw [← ids_of_mem_entries hb] at hrb
        have hpa := ((mem_filterMap_liveRule h hcomplete).mp hra).2
        have hpb := ((mem_filterMap_liveRule h hcomplete).mp hrb).2
        exact hne (hpa.symm.trans hpb)
      · cases hrb
    · cases hra

theorem nodup_loadAllRules (h : Sound s) : s.loadAllRules.Nodup := by
  have hids : s.loadAllRules.map (fun rule => rule.rule.id) = s.objects.keys := by
    rw [loadAllRules, SMap.keys, map_map]
    apply map_congr_left
    intro entry hentry
    exact h.keyed _ _ (SMap.get?_eq_some_iff.mpr hentry)
  apply Nodup.of_map (fun rule : VersionedAclRule => rule.rule.id)
  rw [hids]
  exact s.objects.sorted_keys.imp fun hlt => hlt.ne

theorem mem_getRulesForPrincipal (h : Sound s) (hcomplete : Complete s) :
    rule ∈ s.getRulesForPrincipal principal ↔ s.Live rule ∧ (rule.rule.principal = principal ∨
        AclStorage.starMatches rule.rule.principal principal = true) := by
  rw [getRulesForPrincipal, mem_append, mem_filterMap_liveRule h hcomplete,
    ← wildcardRules, mem_wildcardRules h hcomplete, ← and_or_left]

def applicable (s : RuleStorage) (principal : String) : List VersionedAclRule :=
  s.loadAllRules.filter fun rule => !rule.deleted && rule.rule.appliesToPrincipal principal

theorem perm_applicable_iff (h : Sound s) (hcomplete : Complete s) (principal : String) :
    (s.getRulesForPrincipal principal).Perm (s.applicable principal) ↔
      ∀ rule, s.Live rule → Agrees rule.rule.principal principal := by
  have happlicable : (s.applicable principal).Nodup := (nodup_loadAllRules h).filter _
  have hmem : ∀ rule, rule ∈ s.applicable principal ↔
      s.Live rule ∧ rule.rule.appliesToPrincipal principal = true := by
    intro rule
    simp [applicable, Live, and_assoc]
  constructor
  · intro hperm rule hlive
    have hnodup := hperm.nodup_iff.mpr happlicable
    rw [getRulesForPrincipal, nodup_append'] at hnodup
    rw [agrees_iff]
    constructor
    · rintro ⟨hdirect, hstar⟩
      exact hnodup.2.2 ((mem_filterMap_liveRule h hcomplete).mpr ⟨hlive, hdirect⟩)
        ((mem_wildcardRules h hcomplete).mpr ⟨hlive, hstar⟩)
    · have hsame := hperm.mem_iff.trans (hmem rule)
      rw [mem_getRulesForPrincipal h hcomplete, and_congr_right_iff] at hsame
      exact hsame hlive
  · intro hagrees
    have hnodup : (s.getRulesForPrincipal principal).Nodup := by
      rw [getRulesForPrincipal, nodup_append']
      refine ⟨nodup_filterMap_liveRule h _, nodup_wildcardRules h hcomplete _, ?_⟩
      intro rule hdirect hwild
      obtain ⟨hlive, hpattern⟩ := (mem_filterMap_liveRule h hcomplete).mp hdirect
      obtain ⟨-, hstar⟩ := (mem_wildcardRules h hcomplete).mp hwild
      exact (agrees_iff.mp (hagrees rule hlive)).1 ⟨hpattern, hstar⟩
    apply (perm_ext_iff_of_nodup hnodup happlicable).mpr
    intro rule
    rw [mem_getRulesForPrincipal h hcomplete, hmem, and_congr_right_iff]
    intro hlive
    exact (agrees_iff.mp (hagrees rule hlive)).2

end lookup

/-! ## Files

`LocalObjectStorage` keeps an object in the file `key_to_path` gives for its key: characters are
left out, and `list` does not descend into directories. For ids of the following kind the rules
have files of their own, and all in one directory: the object storage is the map of the model. -/

/-- `key_to_path` keeps every character of the id, and takes its name for no path upwards. -/
def PlainId (table : CharTable) (id : String) : Prop :=
  (id.toList.all fun c => table.keeps c && c ≠ '/') = true ∧
    hasDotDot (id.toList ++ ".json".toList) = false

instance (table : CharTable) (id : String) : Decidable (PlainId table id) :=
  inferInstanceAs (Decidable (_ ∧ _))

/-- `get_rule_object_key`, under the default prefix. -/
def getRuleObjectKey (id : String) : String := "acl/" ++ "rules/" ++ id ++ ".json"

/-- The file of such a rule is in the directory that `list` reads, under the id itself. -/
theorem keyToPath_getRuleObjectKey {table : CharTable} {id : String} (h : PlainId table id)
    (basePath : PathParts) : table.keyToPath basePath (getRuleObjectKey id) =
      .ok (basePath ++ ["acl".toList, "rules".toList, id.toList ++ ".json".toList]) := by
  have htext : (getRuleObjectKey id).toList =
      "acl".toList ++ '/' :: ("rules".toList ++ '/' :: (id.toList ++ ".json".toList)) := by
    simp [getRuleObjectKey]
  obtain ⟨hid, hnoslash⟩ := table.sanitize_of_kept h.1
  have hascii := fun text => @CharTable.sanitize_of_ascii text table
  have hsanitized : table.sanitize (getRuleObjectKey id).toList = (getRuleObjectKey id).toList := by
    rw [htext, table.sanitize_append, table.sanitize_cons (by decide) (by decide),
      table.sanitize_append, table.sanitize_cons (by decide) (by decide), table.sanitize_append,
      hid, hascii "acl".toList (by simp), hascii "rules".toList (by simp),
      hascii ".json".toList (by simp)]
  have hdots : hasDotDot (getRuleObjectKey id).toList = false := by
    rw [htext, hasDotDot_append_slash, hasDotDot_append_slash, h.2]
    decide
  have hparts : components (getRuleObjectKey id).toList =
      ["acl".toList, "rules".toList, id.toList ++ ".json".toList] := by
    have hslash : '/' ∉ id.toList ++ ".json".toList := by
      intro hmem
      rcases mem_append.mp hmem with hmem | hmem
      · exact hnoslash hmem
      · exact absurd hmem (by decide)
    rw [htext, components_append_slash, components_append_slash,
      components_eq_singleton hslash (by simp) (by simp [append_eq_cons_iff])]
    rfl
  have hhead : (getRuleObjectKey id).toList.head? = some 'a' := by rw [htext]; rfl
  have hempty : (getRuleObjectKey id).toList.isEmpty = false := by rw [htext]; rfl
  simp only [CharTable.keyToPath, hsanitized, hdots, hparts, hhead, hempty]
  simp

theorem getRuleObjectKey_inj {table : CharTable} {id id' : String} (h : PlainId table id)
    (h' : PlainId table id') (basePath : PathParts)
    (hsame : table.keyToPath basePath (getRuleObjectKey id) =
      table.keyToPath basePath (getRuleObjectKey id')) :
    id = id' := by
  rw [keyToPath_getRuleObjectKey h, keyToPath_getRuleObjectKey h'] at hsame
  have hparts := append_cancel_left (Except.ok.inj hsame)
  simp only [cons.injEq, true_and, and_true] at hparts
  exact String.toList_inj.mp (append_cancel_right hparts)

/-- The object a call reads or writes has a file of its own. -/
def Call.Plain (table : CharTable) : Call → Prop
  | .create rule uuid _ => PlainId table (if rule.id = "" then uuid else rule.id)
  | .update id _ _ => PlainId table id
  | .delete id _ => PlainId table id
  | .read id => PlainId table id
  | .evict _ => True
  | .restart => True

instance (table : CharTable) (call : Call) : Decidable (call.Plain table) := by
  induction call using Call.casesOn <;> dsimp only [Call.Plain] <;> infer_instance

/-- The call is about an object with a file of its own, and loses no rule from the index. -/
def Indexed (table : CharTable) (s : RuleStorage) (call : Call) : Prop :=
  call.Plain table ∧ Reindexed s call

instance (table : CharTable) (s : RuleStorage) (call : Call) : Decidable (Indexed table s call) :=
  inferInstanceAs (Decidable (_ ∧ _))

def readRule (id principal : String) (effect : Effect) : AclRule :=
  ⟨id, principal, ⟨.topic, "orders"⟩, [.read], effect, []⟩

/-- A rule for all names that begin with `svc-`, changed twice, and one that was deleted. -/
def wildcardCalls : List Call :=
  [.create (readRule "a" "svc-1" .allow) "" .stored, .create (readRule "b" "svc-*" .deny) "" .stored,
    .update "a" (readRule "" "svc-*" .allow) .stored, .restart, .delete "b" .stored,
    .update "b" (readRule "" "*-1" .deny) .stored]

theorem plain_wildcardCalls :
    Along step (Indexed CharTable.asciiTable) empty wildcardCalls := by
  have ha : PlainId CharTable.asciiTable "a" := by decide +kernel
  have hb : PlainId CharTable.asciiTable "b" := by decide +kernel
  refine Along.and (along_of_forall_mem (fun call hcall _ => ?_) _) (by decide +kernel)
  simp only [wildcardCalls, mem_cons, not_mem_nil, or_false] at hcall
  rcases hcall with rfl | rfl | rfl | rfl | rfl | rfl <;> first | exact trivial | assumption

/-- The two storages give the same answers: to every lookup by id, to every listing, and, up to
the order, to every lookup by principal. -/
structure SameAnswers (s s' : RuleStorage) : Prop where
  rule : ∀ id, (s'.getRule id).1 = (s.getRule id).1
  principal : ∀ principal rule,
    rule ∈ s'.getRulesForPrincipal principal ↔ rule ∈ s.getRulesForPrincipal principal
  list : ∀ filter, s'.listRules filter = s.listRules filter

theorem Sound.getRule_fst {s : RuleStorage} (h : Sound s) (id : String) :
    (s.getRule id).1 = match s.objects.get? id with
      | some rule => .ok rule
      | none => .error (.notFound id) := by
  have hrule := RuleStorage.getRule_fst s id
  rw [h.rule?_eq] at hrule
  exact hrule

end RuleStorage
end RustMq.Security
