import Mathlib

/-!
# Ordered maps

A finite map over a linear order, kept as its list of entries in key order. The order is a
field of the structure, so every value of the type enumerates in key order and holds at most
one entry per key, and no operation has to re-establish either.
-/

namespace RustMq.Lib

open List

/-- A finite map as its entries in strictly increasing key order. -/
structure SMap (K V : Type) [LinearOrder K] where
  entries : List (K × V)
  sorted : entries.Pairwise fun a b => a.1 < b.1

namespace SMap

variable {K V : Type} [LinearOrder K]

def empty : SMap K V := ⟨[], List.Pairwise.nil⟩

def get? (m : SMap K V) (k : K) : Option V := (m.entries.find? (fun e => e.1 = k)).map Prod.snd

def insert (m : SMap K V) (k : K) (v : V) : SMap K V where
  entries := m.entries.filter (fun e => e.1 < k) ++ (k, v) :: m.entries.filter (fun e => k < e.1)
  sorted := by
    refine List.pairwise_append.mpr ⟨m.sorted.filter _, List.pairwise_cons.mpr
      ⟨?_, m.sorted.filter _⟩, ?_⟩
    · intro e he
      simpa using (List.mem_filter.mp he).2
    · intro a ha b hb
      have hak : a.1 < k := by simpa using (List.mem_filter.mp ha).2
      rcases List.mem_cons.mp hb with rfl | hb
      · exact hak
      · exact lt_trans hak (by simpa using (List.mem_filter.mp hb).2)

/-- Keep the entries whose key satisfies `p`. -/
def filterKeys (m : SMap K V) (p : K → Bool) : SMap K V where
  entries := m.entries.filter fun e => p e.1
  sorted := m.sorted.filter _

/-- Keep the entries whose value satisfies `p`. -/
def filterVals (m : SMap K V) (p : V → Bool) : SMap K V where
  entries := m.entries.filter fun e => p e.2
  sorted := m.sorted.filter _

def erase (m : SMap K V) (k : K) : SMap K V := m.filterKeys fun a => a ≠ k

/-- The entry with the greatest key at or below `k`. -/
def floor? (m : SMap K V) (k : K) : Option (K × V) :=
  (m.entries.filter fun e => e.1 ≤ k).getLast?

def keys (m : SMap K V) : List K := m.entries.map Prod.fst

/-- Apply `f` to every value. -/
def mapVals {W : Type} (f : V → W) (m : SMap K V) : SMap K W where
  entries := m.entries.map fun e => (e.1, f e.2)
  sorted := List.pairwise_map.mpr m.sorted

/-- Insert all entries of `m'`. -/
def insertAll (m m' : SMap K V) : SMap K V := m'.entries.foldl (fun a e => a.insert e.1 e.2) m

/-! ## Entries and lookup -/

variable {m m' : SMap K V} {k a : K} {v w : V}

theorem nodup_keys (m : SMap K V) : m.keys.Nodup :=
  pairwise_map.mpr (m.sorted.imp fun h => h.ne)

theorem eq_of_mem_of_mem (hv : (k, v) ∈ m.entries) (hw : (k, w) ∈ m.entries) : v = w :=
  congrArg Prod.snd (inj_on_of_nodup_map m.nodup_keys hv hw rfl)

theorem get?_eq_some_iff : m.get? k = some v ↔ (k, v) ∈ m.entries := by
  constructor
  · intro h
    obtain ⟨e, he, hv⟩ := Option.map_eq_some_iff.mp h
    have hk : e.1 = k := by simpa using find?_some he
    have hmem := mem_of_find?_eq_some he
    rw [← hk, ← hv]
    exact hmem
  · intro h
    cases hf : m.entries.find? (fun e => e.1 = k) with
    | none => exact absurd (find?_eq_none.mp hf _ h) (by simp)
    | some e =>
      have hk : e.1 = k := by simpa using find?_some hf
      have hmem : (k, e.2) ∈ m.entries := by
        rw [← hk]; exact mem_of_find?_eq_some hf
      rw [get?, hf, Option.map_some, eq_of_mem_of_mem hmem h]

theorem get?_eq_none_iff : m.get? k = none ↔ ∀ v, (k, v) ∉ m.entries := by
  constructor
  · intro h v hv
    rw [get?_eq_some_iff.mpr hv] at h
    exact absurd h (by simp)
  · intro h
    cases hg : m.get? k with
    | none => rfl
    | some v => exact absurd (get?_eq_some_iff.mp hg) (h v)

@[simp] theorem get?_empty (k : K) : (empty : SMap K V).get? k = none := rfl

theorem mem_keys : k ∈ m.keys ↔ ∃ v, m.get? k = some v := by
  simp only [keys, mem_map, get?_eq_some_iff]
  constructor
  · rintro ⟨e, he, rfl⟩
    exact ⟨e.2, he⟩
  · rintro ⟨v, hv⟩
    exact ⟨(k, v), hv, rfl⟩

theorem sorted_keys (m : SMap K V) : m.keys.Pairwise (· < ·) :=
  pairwise_map.mpr m.sorted

/-! ## What each operation does to lookup -/

theorem mem_insert {b : V} :
    (a, b) ∈ (m.insert k v).entries ↔ (a = k ∧ b = v) ∨ (a ≠ k ∧ (a, b) ∈ m.entries) := by
  simp only [insert, mem_append, mem_cons, mem_filter, decide_eq_true_eq, Prod.mk.injEq]
  constructor
  · rintro (⟨hm, hlt⟩ | h | ⟨hm, hlt⟩)
    · exact .inr ⟨hlt.ne, hm⟩
    · exact .inl h
    · exact .inr ⟨hlt.ne', hm⟩
  · rintro (h | ⟨hne, hm⟩)
    · exact .inr (.inl h)
    · rcases lt_or_gt_of_ne hne with hlt | hlt
      · exact .inl ⟨hm, hlt⟩
      · exact .inr (.inr ⟨hm, hlt⟩)

theorem get?_insert (m : SMap K V) (k a : K) (v : V) :
    (m.insert k v).get? a = if a = k then some v else m.get? a := by
  split
  · rename_i h
    exact get?_eq_some_iff.mpr (mem_insert.mpr (.inl ⟨h, rfl⟩))
  · rename_i h
    cases hg : m.get? a with
    | some b => exact get?_eq_some_iff.mpr (mem_insert.mpr (.inr ⟨h, get?_eq_some_iff.mp hg⟩))
    | none =>
      refine get?_eq_none_iff.mpr fun b hb => ?_
      rcases mem_insert.mp hb with ⟨rfl, _⟩ | ⟨_, hb⟩
      · exact h rfl
      · exact get?_eq_none_iff.mp hg b hb

@[simp] theorem get?_insert_self (m : SMap K V) (k : K) (v : V) :
    (m.insert k v).get? k = some v := by
  rw [get?_insert, if_pos rfl]

theorem get?_filterKeys (m : SMap K V) (p : K → Bool) (a : K) :
    (m.filterKeys p).get? a = if p a then m.get? a else none := by
  have hmem : ∀ b, (a, b) ∈ (m.filterKeys p).entries ↔ (a, b) ∈ m.entries ∧ p a = true := by
    intro b
    simp only [filterKeys, mem_filter]
  split
  · rename_i h
    cases hg : m.get? a with
    | some b => exact get?_eq_some_iff.mpr ((hmem b).mpr ⟨get?_eq_some_iff.mp hg, h⟩)
    | none => exact get?_eq_none_iff.mpr fun b hb => get?_eq_none_iff.mp hg b ((hmem b).mp hb).1
  · rename_i h
    exact get?_eq_none_iff.mpr fun b hb => h ((hmem b).mp hb).2

theorem get?_erase (m : SMap K V) (k a : K) :
    (m.erase k).get? a = if a = k then none else m.get? a := by
  rw [erase, get?_filterKeys]
  by_cases h : a = k
  · rw [if_pos h, if_neg (by simpa using h)]
  · rw [if_neg h, if_pos (by simpa using h)]

/-- Where an entry of the longer map comes from. -/
theorem of_get?_insert (h : (m.insert k v).get? a = some w) :
    a = k ∧ w = v ∨ a ≠ k ∧ m.get? a = some w := by
  rw [get?_insert] at h
  split at h
  · rename_i ha
    exact .inl ⟨ha, (Option.some.inj h).symm⟩
  · rename_i ha
    exact .inr ⟨ha, h⟩

theorem of_get?_filterKeys {p : K → Bool} (h : (m.filterKeys p).get? a = some w) :
    m.get? a = some w := by
  rw [get?_filterKeys] at h
  split at h
  · exact h
  · cases h

theorem of_get?_erase (h : (m.erase k).get? a = some w) : m.get? a = some w :=
  of_get?_filterKeys h

theorem get?_filterVals (m : SMap K V) (p : V → Bool) (k : K) :
    (m.filterVals p).get? k = (m.get? k).filter p := by
  apply Option.ext
  intro v
  rw [get?_eq_some_iff, Option.filter_eq_some_iff, get?_eq_some_iff]
  exact mem_filter

theorem get?_mapVals {W : Type} (f : V → W) (m : SMap K V) (k : K) :
    (m.mapVals f).get? k = (m.get? k).map f := by
  rw [get?, get?, mapVals, find?_map, Option.map_map, Option.map_map]
  rfl

theorem get?_foldl_insert {l : List (K × V)} (hl : l.Pairwise fun a b => a.1 < b.1)
    (m : SMap K V) (k : K) : (l.foldl (fun a e => a.insert e.1 e.2) m).get? k =
      ((l.find? fun e => e.1 = k).map Prod.snd).or (m.get? k) := by
  induction l generalizing m with
  | nil => rfl
  | cons e l ih =>
    obtain ⟨hlt, hl⟩ := pairwise_cons.mp hl
    rw [foldl_cons, ih hl, get?_insert]
    by_cases hk : k = e.1
    · have hnone : (l.find? fun e => e.1 = k) = none :=
        find?_eq_none.mpr fun a ha => by simpa [hk] using (hlt a ha).ne'
      rw [hnone, if_pos hk, find?_cons_of_pos (by simpa using hk.symm)]
      rfl
    · rw [if_neg hk, find?_cons_of_neg (by simpa using Ne.symm hk)]

theorem get?_insertAll (m m' : SMap K V) (k : K) :
    (m.insertAll m').get? k = (m'.get? k).or (m.get? k) :=
  get?_foldl_insert m'.sorted m k

/-- The entries with one key are the one entry. -/
theorem filter_entries_of_get? (h : m.get? k = some v) :
    m.entries.filter (fun e => decide (e.1 = k)) = [(k, v)] := by
  classical
  have hmem := get?_eq_some_iff.mp h
  have hsame : ∀ e ∈ m.entries, decide (e.1 = k) = decide (e = (k, v)) := fun e he =>
    decide_eq_decide.mpr ⟨inj_on_of_nodup_map m.nodup_keys he hmem, congrArg Prod.fst⟩
  rw [filter_congr hsame, filter_eq, count_eq_one_of_mem (Nodup.of_map _ m.nodup_keys) hmem]
  rfl

/-- Two maps related key by key are related entry by entry. -/
theorem forall₂_entries {W : Type} {R : K → V → W → Prop} {m' : SMap K W}
    (h : ∀ k, Option.Rel (R k) (m.get? k) (m'.get? k)) :
    List.Forall₂ (fun e e' => e.1 = e'.1 ∧ R e.1 e.2 e'.2) m.entries m'.entries := by
  have hkeys : m.keys = m'.keys := by
    refine m.sorted_keys.eq_of_mem_iff m'.sorted_keys fun k => ?_
    rw [mem_keys, mem_keys, ← Option.isSome_iff_exists, ← Option.isSome_iff_exists]
    have hrel := h k
    generalize m.get? k = x, m'.get? k = y at hrel
    cases hrel with
    | none | some => simp
  have hfst : Forall₂ (fun e e' => e.1 = e'.1) m.entries m'.entries := by
    rw [keys, keys, ← forall₂_eq_eq_eq, forall₂_map_left_iff, forall₂_map_right_iff] at hkeys
    exact hkeys
  refine forall₂_iff_zip.mpr ⟨hfst.length_eq, fun {e e'} hzip => ?_⟩
  have hkey : e.1 = e'.1 := forall₂_zip hfst hzip
  obtain ⟨he, he'⟩ := of_mem_zip hzip
  have hrel := h e.1
  rw [get?_eq_some_iff.mpr he, hkey, get?_eq_some_iff.mpr he'] at hrel
  cases hrel with
  | some hR => exact ⟨hkey, hkey ▸ hR⟩

theorem ext_entries (h : m.entries = m'.entries) : m = m' := by
  obtain ⟨l, hl⟩ := m
  obtain ⟨l', hl'⟩ := m'
  cases h
  rfl

instance [DecidableEq V] : DecidableEq (SMap K V) := fun m m' =>
  decidable_of_iff (m.entries = m'.entries) ⟨ext_entries, congrArg entries⟩

/-- A map is what its lookups give. -/
theorem ext_get? (h : ∀ k, m.get? k = m'.get? k) : m = m' := by
  have hrel : ∀ k, Option.Rel Eq (m.get? k) (m'.get? k) := by
    intro k
    rw [h]
    cases m'.get? k with
    | none => exact .none
    | some b => exact .some rfl
  refine ext_entries (forall₂_eq_eq_eq ▸ (forall₂_entries hrel).imp fun e e' he => ?_)
  exact Prod.ext he.1 he.2

/-- The second insert under a key replaces the first. -/
theorem insert_insert (m : SMap K V) (k : K) (v w : V) :
    (m.insert k v).insert k w = m.insert k w := by
  refine ext_get? fun a => ?_
  simp only [get?_insert]
  split
  · rfl
  · rfl

/-- Inserting what is there changes nothing. -/
theorem insert_of_get? (h : m.get? k = some v) : m.insert k v = m := by
  apply ext_get?
  intro a
  rw [get?_insert]
  split
  · rename_i ha
    rw [ha, h]
  · rfl

/-- The floor entry is the entry at or below `k` that no other such entry exceeds. -/
theorem floor?_eq_some_iff : m.floor? k = some (a, v) ↔
      m.get? a = some v ∧ a ≤ k ∧ ∀ b w, m.get? b = some w → b ≤ k → b ≤ a := by
  have hsorted := m.sorted.filter (fun e : K × V => decide (e.1 ≤ k))
  have hmem : ∀ b w, (b, w) ∈ m.entries.filter (fun e => decide (e.1 ≤ k)) ↔
      m.get? b = some w ∧ b ≤ k := by
    intro b w
    simp [mem_filter, get?_eq_some_iff]
  constructor
  · intro h
    obtain ⟨ys, hys⟩ := getLast?_eq_some_iff.mp h
    have hav := (hmem a v).mp (by rw [hys]; simp)
    refine ⟨hav.1, hav.2, fun b w hb hbk => ?_⟩
    have hbw := (hmem b w).mpr ⟨hb, hbk⟩
    rw [hys] at hbw hsorted
    rcases mem_append.mp hbw with hbw | hbw
    · exact ((pairwise_append.mp hsorted).2.2 _ hbw (a, v) (by simp)).le
    · have : (b, w) = (a, v) := by simpa using hbw
      exact (congrArg Prod.fst this).le
  · rintro ⟨hav, hak, hmax⟩
    have hin := (hmem a v).mpr ⟨hav, hak⟩
    rw [floor?]
    cases hl : (m.entries.filter fun e => decide (e.1 ≤ k)).getLast? with
    | none => rw [getLast?_eq_none_iff.mp hl] at hin; exact absurd hin (by simp)
    | some e =>
      obtain ⟨b, w⟩ := e
      obtain ⟨ys, hys⟩ := getLast?_eq_some_iff.mp hl
      have hbw := (hmem b w).mp (by rw [hys]; simp)
      have hba : b ≤ a := hmax b w hbw.1 hbw.2
      rw [hys] at hin hsorted
      rcases mem_append.mp hin with hin | hin
      · exact absurd ((pairwise_append.mp hsorted).2.2 _ hin (b, w) (by simp)) (not_lt.mpr hba)
      · have : (a, v) = (b, w) := by simpa using hin
        rw [this]

end SMap

/-! ## Folds that overwrite -/

/-- What a view shows after a fold whose steps overwrite it or leave it: the last value written. -/
theorem view_foldl {S A B : Type} {step : S → A → S} (view : S → Option B) (hit : A → Option B)
    (h : ∀ s a, view (step s a) = (hit a).or (view s)) (l : List A) (s : S) :
    view (l.foldl step s) = (l.reverse.findSome? hit).or (view s) := by
  induction l generalizing s with
  | nil => rfl
  | cons a l ih =>
    rw [foldl_cons, ih, h, reverse_cons, findSome?_append, Option.or_assoc, findSome?_singleton]

/-! ## The greatest of a list -/

section maxima

variable {A : Type} [LinearOrder A] {l : List A} {a b : A}

theorem foldl_max_le (ha : a ≤ b) (hl : ∀ x ∈ l, x ≤ b) : l.foldl max a ≤ b := by
  induction l generalizing a with
  | nil => exact ha
  | cons x l ih =>
    exact ih (max_le ha (hl x mem_cons_self)) fun y hy => hl y (mem_cons_of_mem x hy)

theorem le_foldl_max (h : b ≤ a ∨ ∃ x ∈ l, b ≤ x) : b ≤ l.foldl max a := by
  induction l generalizing a with
  | nil => exact h.resolve_right fun ⟨x, hx, _⟩ => (nomatch hx)
  | cons x l ih =>
    refine ih ?_
    rcases h with h | ⟨y, hy, hle⟩
    · exact .inl (le_max_of_le_left h)
    · rcases mem_cons.mp hy with rfl | hy
      · exact .inl (le_max_of_le_right hle)
      · exact .inr ⟨y, hy, hle⟩

end maxima

end RustMq.Lib
