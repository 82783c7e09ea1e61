import RustMq.Security.RuleStorage

/-!
# ACL operations from the Raft log

`AclStateMachine` and `RaftAclManager::apply_log_entry` (`src/security/acl/raft.rs`). Every node
applies the same entries to its own storage. What a node draws on its own is the stream of its
UUIDs: one for each operation, which goes into the result only, and one for each rule that comes
without an id, which becomes the id of the rule. The second kind is what makes two nodes differ.

The entries are bytes, and what they deserialize to is a parameter. An entry that does not
deserialize is an error, and changes nothing on any node.
-/

namespace RustMq.Security

open Lib List

/-! ## Operations -/

inductive AclRaftOperation where
  | createRule (rule : AclRule)
  | updateRule (ruleId : String) (rule : AclRule)
  | deleteRule (ruleId : String)
  | batchOperation (operations : List AclRaftOperation) (batchId : String)

inductive RaftError where
  | storage (error : StorageError)
  | nestedBatch
  deriving DecidableEq

inductive AclRaftResult where
  | success (operationId : String) (ruleId : Option String) (version : Nat)
  | failure (operationId : String) (error : RaftError)
  | batchResult (batchId : String) (results : List AclRaftResult)

structure AclNode where
  storage : RuleStorage
  drawn : Nat

namespace AclNode

def new : AclNode := ⟨.empty, 0⟩

variable (uuid : Nat → String)

def result (operationId : String) (ruleId : String) (storage : RuleStorage) :
    Except StorageError Unit → AclRaftResult
  | .ok _ => .success operationId (some ruleId) storage.getVersion
  | .error e => .failure operationId (.storage e)

/-- One operation, alone or as a part of a batch. The operation id is drawn first, the id of a rule
without one when the storage needs it. -/
def applySingle (node : AclNode) : AclRaftOperation → AclRaftResult × AclNode
  | .createRule rule =>
    let (created, storage) := node.storage.createRule rule (uuid (node.drawn + 1)) .stored
    let ruleId := if rule.id = "" then uuid (node.drawn + 1) else rule.id
    (result (uuid node.drawn) ruleId storage (created.map fun _ => ()),
      ⟨storage, node.drawn + if rule.id = "" then 2 else 1⟩)
  | .updateRule ruleId rule =>
    let (updated, storage) := node.storage.updateRule ruleId rule .stored
    (result (uuid node.drawn) ruleId storage updated, ⟨storage, node.drawn + 1⟩)
  | .deleteRule ruleId =>
    let (deleted, storage) := node.storage.deleteRule ruleId .stored
    (result (uuid node.drawn) ruleId storage deleted, ⟨storage, node.drawn + 1⟩)
  | .batchOperation _ _ =>
    (.failure (uuid node.drawn) .nestedBatch, { node with drawn := node.drawn + 1 })

def applyBatch (node : AclNode) : List AclRaftOperation → List AclRaftResult × AclNode
  | [] => ([], node)
  | op :: ops =>
    let (result, node) := node.applySingle uuid op
    let (results, node) := node.applyBatch ops
    (result :: results, node)

def applyOperation (node : AclNode) : AclRaftOperation → AclRaftResult × AclNode
  | .batchOperation operations batchId =>
    let (results, node) := node.applyBatch uuid operations
    (.batchResult batchId results, node)
  | op => node.applySingle uuid op

/-- `apply_log_entry`; `none` is the serialization error. -/
def applyLogEntry (decode : List UInt8 → Option AclRaftOperation) (node : AclNode)
    (entry : List UInt8) : Option AclRaftResult × AclNode :=
  match decode entry with
  | some op =>
    let (result, node) := node.applyOperation uuid op
    (some result, node)
  | none => (none, node)

def applyLog (decode : List UInt8 → Option AclRaftOperation) (entries : List (List UInt8)) :
    AclNode :=
  entries.foldl (fun node entry => (node.applyLogEntry uuid decode entry).2) new

end AclNode

/-! ## What an operation does to the storage -/

variable {op : AclRaftOperation} {id : String} {ops : List AclRaftOperation} {s : RuleStorage}

namespace AclRaftOperation

def parts : AclRaftOperation → List AclRaftOperation
  | .batchOperation operations _ => operations
  | op => [op]

/-- The storage after one operation, with the id a rule without one gets. -/
def effect (s : RuleStorage) (id : String) : AclRaftOperation → RuleStorage
  | .createRule rule => (s.createRule rule id .stored).2
  | .updateRule ruleId rule => (s.updateRule ruleId rule .stored).2
  | .deleteRule ruleId => (s.deleteRule ruleId .stored).2
  | .batchOperation _ _ => s

def Unnamed : AclRaftOperation → Prop
  | .createRule rule => rule.id = ""
  | _ => False

instance (op) : Decidable (Unnamed op) := by
  unfold Unnamed
  split <;> infer_instance

theorem effect_eq_of_named (h : ¬ op.Unnamed) (s : RuleStorage) (id id' : String) :
    op.effect s id = op.effect s id' := by
  cases op with
  | createRule rule =>
    have hid : rule.id ≠ "" := h
    simp [effect, RuleStorage.createRule, hid]
  | updateRule | deleteRule | batchOperation => rfl

end AclRaftOperation

namespace AclNode

variable {uuid : Nat → String} {decode : List UInt8 → Option AclRaftOperation}

theorem storage_applySingle (node : AclNode) (op : AclRaftOperation) :
    (node.applySingle uuid op).2.storage = op.effect node.storage (uuid (node.drawn + 1)) := by
  cases op <;> rfl

theorem storage_applyBatch (h : ∀ op ∈ ops, ∀ s n, op.effect s (uuid n) = op.effect s id)
    (node : AclNode) :
    (node.applyBatch uuid ops).2.storage = ops.foldl (fun s op => op.effect s id) node.storage := by
  induction ops generalizing node with
  | nil => rfl
  | cons op ops ih =>
    rw [applyBatch, foldl_cons, ← h op mem_cons_self, ← storage_applySingle]
    exact ih (fun o ho => h o (mem_cons_of_mem _ ho)) _

theorem storage_applyOperation
    (h : ∀ part ∈ op.parts, ∀ s n, part.effect s (uuid n) = part.effect s id) (node : AclNode) :
    (node.applyOperation uuid op).2.storage =
      op.parts.foldl (fun s part => part.effect s id) node.storage := by
  cases op with
  | batchOperation operations batchId => exact storage_applyBatch h node
  | createRule rule =>
    apply (storage_applySingle node _).trans
    exact h _ (mem_singleton_self _) _ _
  | updateRule | deleteRule => rfl

def operations (decode : List UInt8 → Option AclRaftOperation) (entries : List (List UInt8)) :
    List AclRaftOperation :=
  (entries.filterMap decode).flatMap AclRaftOperation.parts

theorem storage_applyLog {entries : List (List UInt8)}
    (h : ∀ part ∈ operations decode entries, ∀ s n, part.effect s (uuid n) = part.effect s id) :
    (applyLog uuid decode entries).storage =
      (operations decode entries).foldl (fun s part => part.effect s id) .empty := by
  have hgen : ∀ (entries : List (List UInt8)) (node : AclNode),
      (∀ part ∈ operations decode entries, ∀ s n, part.effect s (uuid n) = part.effect s id) →
      (entries.foldl (fun node entry => (node.applyLogEntry uuid decode entry).2) node).storage =
        (operations decode entries).foldl (fun s part => part.effect s id) node.storage := by
    intro entries
    induction entries with
    | nil => exact fun _ _ => rfl
    | cons entry entries ih =>
      intro node hparts
      cases hdecode : decode entry with
      | none =>
        have hops : operations decode (entry :: entries) = operations decode entries := by
          simp [operations, hdecode]
        rw [foldl_cons, applyLogEntry, hdecode, hops]
        rw [hops] at hparts
        exact ih node hparts
      | some op =>
        have hops : operations decode (entry :: entries) =
            op.parts ++ operations decode entries := by
          simp [operations, hdecode]
        rw [hops] at hparts
        rw [foldl_cons, applyLogEntry, hdecode, hops, foldl_append,
          ← storage_applyOperation fun part hpart => hparts part (mem_append_left _ hpart)]
        exact ih _ fun part hpart => hparts part (mem_append_right _ hpart)
  exact hgen entries new h

end AclNode

/-! ## The ids of the stored rules -/

namespace RuleStorage

def Known (s : RuleStorage) (id : String) : Prop := (s.objects.get? id).isSome = true

/-- Every id that is taken has a stored rule. -/
def Taken (s : RuleStorage) : Prop := ∀ id ∈ s.ruleIndex, s.Known id

section known

variable {s' : RuleStorage} {call : Call}

theorem Writes.known_iff {rule : VersionedAclRule} (h : Writes s s' id rule) (i : String) :
    s'.Known i ↔ i = id ∨ s.Known i := by
  rw [Known, Known, h.objects, SMap.get?_insert]
  split
  · rename_i hi
    simp [hi]
  · rename_i hi
    simp [hi]

theorem Untouched.known_iff (h : Untouched s s') (i : String) : s'.Known i ↔ s.Known i := by
  rw [Known, Known, h.objects]

theorem Known.change (hid : s.Known id) (h : Change s call s') : s'.Known id := by
  cases h with
  | untouched h _ => exact (h.known_iff id).mpr hid
  | consumed h _ _ => exact (h.known_iff id).mpr hid
  | unreported _ h _ _ => exact (h.known_iff id).mpr (.inr hid)
  | created _ _ h _ _ _ => exact (h.known_iff id).mpr (.inr hid)
  | updated _ h _ _ _ => exact (h.known_iff id).mpr (.inr hid)
  | deleted _ h _ _ _ => exact (h.known_iff id).mpr (.inr hid)
  | restarted => exact hid

theorem known_of_change (hs : Sound s) (h : Change s call s') (hput : call.put ≠ some .unreported)
    (hid : s'.Known id) :
    s.Known id ∨ ∃ rule uuid put, call = .create rule uuid put ∧
      id = if rule.id = "" then uuid else rule.id := by
  have hexists : ∀ {i existing}, s.rule? i = some existing → s.Known i := by
    intro i existing hi
    rw [hs.rule?_eq] at hi
    rw [Known, hi]
    rfl
  cases h with
  | untouched h _ => exact .inl ((h.known_iff id).mp hid)
  | consumed h _ _ => exact .inl ((h.known_iff id).mp hid)
  | unreported put _ _ _ => exact absurd put hput
  | created hnew _ h _ _ _ =>
    rcases (h.known_iff id).mp hid with rfl | hold
    · exact .inr ⟨_, _, _, rfl, hnew⟩
    · exact .inl hold
  | updated exists_ h _ _ _ =>
    rcases (h.known_iff id).mp hid with rfl | hold
    · exact .inl (hexists exists_)
    · exact .inl hold
  | deleted exists_ h _ _ _ =>
    rcases (h.known_iff id).mp hid with rfl | hold
    · exact .inl (hexists exists_)
    · exact .inl hold
  | restarted => exact .inl hid

theorem Taken.change (htaken : Taken s) (hs : Sound s) (h : Change s call s')
    (hput : call.put ≠ some .unreported) : Taken s' := by
  intro id hid
  cases h with
  | untouched h _ =>
    rw [h.ruleIndex] at hid
    exact (h.known_iff id).mpr (htaken id hid)
  | consumed h _ _ =>
    rw [h.ruleIndex] at hid
    exact (h.known_iff id).mpr (htaken id hid)
  | unreported put _ _ _ => exact absurd put hput
  | created _ _ h _ ruleIndex _ =>
    rw [ruleIndex] at hid
    exact (h.known_iff id).mpr ((mem_cons.mp hid).imp_right (htaken id))
  | updated _ h _ ruleIndex _ =>
    rw [ruleIndex] at hid
    exact (h.known_iff id).mpr (.inr (htaken id hid))
  | deleted _ h _ ruleIndex _ =>
    rw [ruleIndex] at hid
    exact (h.known_iff id).mpr (.inr (htaken id hid))
  | restarted =>
    obtain ⟨rule, hmem, rfl⟩ := mem_map.mp hid
    have hget : s.objects.get? rule.rule.id = some rule := hs.mem_loadAllRules.mp hmem
    rw [Known]
    show (s.objects.get? rule.rule.id).isSome = true
    rw [hget]
    rfl

end known
end RuleStorage

namespace AclRaftOperation

open RuleStorage (Known Registered Taken)

def call (id : String) : AclRaftOperation → Option RuleStorage.Call
  | .createRule rule => some (.create rule id .stored)
  | .updateRule ruleId rule => some (.update ruleId rule .stored)
  | .deleteRule ruleId => some (.delete ruleId .stored)
  | .batchOperation _ _ => none

variable {i : String}

theorem effect_of_call {c : RuleStorage.Call} (h : op.call id = some c) (s : RuleStorage) :
    RuleStorage.Change s c (op.effect s id) ∧ c.put ≠ some .unreported := by
  cases op with
  | createRule rule =>
    cases h
    exact ⟨RuleStorage.change_create s rule id .stored, by simp [RuleStorage.Call.put]⟩
  | updateRule ruleId rule =>
    cases h
    exact ⟨RuleStorage.change_update s ruleId rule .stored, by simp [RuleStorage.Call.put]⟩
  | deleteRule ruleId =>
    cases h
    exact ⟨RuleStorage.change_delete s ruleId .stored, by simp [RuleStorage.Call.put]⟩
  | batchOperation operations batchId => cases h

theorem effect_of_no_call (h : op.call id = none) (s : RuleStorage) : op.effect s id = s := by
  cases op with
  | batchOperation operations batchId => rfl
  | createRule | updateRule | deleteRule => cases h

theorem keeps_effect (hs : Registered s ∧ Taken s) (op : AclRaftOperation) (id : String) :
    Registered (op.effect s id) ∧ Taken (op.effect s id) := by
  cases hcall : op.call id with
  | none =>
    rw [effect_of_no_call hcall]
    exact hs
  | some c =>
    obtain ⟨hchange, hput⟩ := effect_of_call hcall s
    exact ⟨hs.1.change hchange hput, hs.2.change hs.1.toSound hchange hput⟩

theorem known_effect (hi : s.Known i) (op : AclRaftOperation) (id : String) :
    (op.effect s id).Known i := by
  cases hcall : op.call id with
  | none =>
    rw [effect_of_no_call hcall]
    exact hi
  | some c => exact hi.change (effect_of_call hcall s).1

theorem known_of_unnamed (hs : Taken s) (h : op.Unnamed) (id : String) :
    (op.effect s id).Known id := by
  cases op with
  | createRule rule =>
    have hid : rule.id = "" := h
    simp only [effect, RuleStorage.createRule, hid, if_true]
    split
    · rename_i htaken
      exact hs id htaken
    · show ((s.objects.insert id _).get? id).isSome = true
      rw [SMap.get?_insert_self]
      rfl
  | updateRule | deleteRule | batchOperation => cases h

def givenId : AclRaftOperation → Option String
  | .createRule rule => some rule.id
  | _ => none

theorem known_of_known_effect (hs : Registered s) (h : (op.effect s id).Known i) :
    s.Known i ∨ i = id ∨ op.givenId = some i := by
  cases hcall : op.call id with
  | none =>
    rw [effect_of_no_call hcall] at h
    exact .inl h
  | some c =>
    obtain ⟨hchange, hput⟩ := effect_of_call hcall s
    refine (RuleStorage.known_of_change hs.toSound hchange hput h).imp_right ?_
    rintro ⟨rule, uuid, put, rfl, hnew⟩
    cases op with
    | createRule r =>
      cases hcall
      split at hnew
      · exact .inl hnew
      · exact .inr (congrArg some hnew.symm)
    | updateRule | deleteRule | batchOperation => cases hcall

/-! ### Lists of operations -/

theorem known_foldl_of_known (ops : List AclRaftOperation) (id : String) (hi : s.Known i) :
    (ops.foldl (fun s op => op.effect s id) s).Known i := by
  induction ops generalizing s with
  | nil => exact hi
  | cons op ops ih => exact ih (known_effect hi op id)

theorem known_foldl_of_unnamed (id : String) (hs : Registered s ∧ Taken s)
    (h : ∃ op ∈ ops, op.Unnamed) : (ops.foldl (fun s op => op.effect s id) s).Known id := by
  induction ops generalizing s with
  | nil => simp at h
  | cons op ops ih =>
    rw [foldl_cons]
    by_cases hop : op.Unnamed
    · exact known_foldl_of_known ops id (known_of_unnamed hs.2 hop id)
    · apply ih (keeps_effect hs op id)
      obtain ⟨o, ho, hunnamed⟩ := h
      rcases mem_cons.mp ho with rfl | ho
      · exact absurd hunnamed hop
      · exact ⟨o, ho, hunnamed⟩

theorem of_known_foldl (hs : Registered s ∧ Taken s)
    (h : (ops.foldl (fun s op => op.effect s id) s).Known i) :
    s.Known i ∨ i = id ∨ ∃ op ∈ ops, op.givenId = some i := by
  induction ops generalizing s with
  | nil => exact .inl h
  | cons op ops ih =>
    rcases ih (keeps_effect hs op id) h with hknown | hid | ⟨o, ho, hgiven⟩
    · rcases known_of_known_effect hs.1 hknown with hold | hid | hgiven
      · exact .inl hold
      · exact .inr (.inl hid)
      · exact .inr (.inr ⟨op, mem_cons_self, hgiven⟩)
    · exact .inr (.inl hid)
    · exact .inr (.inr ⟨o, mem_cons_of_mem _ ho, hgiven⟩)

end AclRaftOperation

/-! ## Convergence -/

namespace AclNode

open AclRaftOperation

instance : Infinite String :=
  Infinite.of_injective (fun n : Nat => String.ofList (List.replicate n 'a')) (by
    intro m n h
    have hlist := congrArg (fun s : String => s.toList.length) h
    simpa using hlist)

theorem keeps_empty : RuleStorage.Registered .empty ∧ RuleStorage.Taken .empty := by
  refine ⟨RuleStorage.registered_empty, ?_⟩
  intro id hid
  cases hid

end AclNode
end RustMq.Security
