import RustMq.Lib.SortedMap

/-!
# Tables of half-open intervals

An index that maps the start of an interval to a value that knows where the interval ends
denotes a set of half-open intervals of natural numbers. The invariant that makes lookups by
"greatest start at or below" correct is that the set is a *tiling*: no interval is empty and two
different ones do not overlap.

Two updates keep a tiling: inserting an interval that is *compatible* with the set (equal to a
member or apart from every member), and *merging*, by which a chain of adjacent members is replaced
by the one interval it spans. A member of the chain then lies *inside* the merged interval, and an
interval that lies inside a member is not itself a member.
-/

namespace RustMq.Lib

open List SMap

/-- `(a, b)` is the interval from `a` up to and without `b`. -/
abbrev Extent := Nat × Nat

variable {T : Set Extent}

namespace Extent

def Apart (I J : Extent) : Prop := I.2 ≤ J.1 ∨ J.2 ≤ I.1

/-- Part of `J` and not all of it. -/
def Inside (I J : Extent) : Prop := J.1 ≤ I.1 ∧ I.2 ≤ J.2 ∧ I ≠ J

def Contains (I : Extent) (k : Nat) : Prop := I.1 ≤ k ∧ k < I.2

instance (I : Extent) (k : Nat) : Decidable (Contains I k) := inferInstanceAs (Decidable (_ ∧ _))

variable {I J : Extent} {S : Set Extent}

theorem Inside.trans_le {M : Extent} (h : Inside I J) (hlo : M.1 ≤ J.1) (hhi : J.2 ≤ M.2) :
    Inside I M := by
  obtain ⟨h₁, h₂, hne⟩ := h
  refine ⟨hlo.trans h₁, h₂.trans hhi, fun heq => hne ?_⟩
  subst heq
  exact Prod.ext (le_antisymm hlo h₁) (le_antisymm h₂ hhi)

end Extent

open Extent

/-- No interval is empty and different ones do not overlap. -/
structure Tiling (T : Set Extent) : Prop where
  nonempty : ∀ I ∈ T, I.1 < I.2
  apart : ∀ I ∈ T, ∀ J ∈ T, I = J ∨ Apart I J

/-- Not empty, and equal to or apart from every member. -/
def Compatible (T : Set Extent) (I : Extent) : Prop :=
  I.1 < I.2 ∧ ∀ J ∈ T, J = I ∨ Apart J I

/-- Some member has `I` inside. -/
def Swallowed (T : Set Extent) (I : Extent) : Prop := ∃ J ∈ T, Inside I J

/-- `J` is part of `I`, or apart from it. -/
def Nested (J I : Extent) : Prop := (I.1 ≤ J.1 ∧ J.2 ≤ I.2) ∨ Apart I J

/-- `l` runs from `a` to `b` without gaps, and none of it is empty. -/
def Chain : List Extent → Nat → Nat → Prop
  | [], a, b => a = b
  | I :: l, a, b => I.1 = a ∧ I.1 < I.2 ∧ Chain l I.2 b

/-- Drop what starts inside `M`, then put `M` in. -/
def mergeInto (T : Set Extent) (M : Extent) : Set Extent :=
  {J | J = M ∨ (J ∈ T ∧ (J.1 < M.1 ∨ M.2 ≤ J.1))}

/-! ## Tilings -/

/-- An interval that lies inside a member overlaps it, so it is neither a member nor compatible. -/
theorem Swallowed.not_compatible (h : Swallowed T I) : ¬ Compatible T I := by
  obtain ⟨J, hJ, hlo, hhi, hne⟩ := h
  intro hcomp
  have := hcomp.1
  rcases hcomp.2 J hJ with heq | happ | happ
  · exact hne heq.symm
  · omega
  · omega

namespace Tiling

variable (hT : Tiling T)
include hT

theorem mem_compatible (hI : I ∈ T) : Compatible T I :=
  ⟨hT.nonempty I hI, fun J hJ => hT.apart J hJ I hI⟩

theorem insert (hI : Compatible T I) : Tiling (Insert.insert I T) := by
  refine ⟨?_, ?_⟩
  · rintro J (rfl | hJ)
    · exact hI.1
    · exact hT.nonempty J hJ
  · rintro J (rfl | hJ) K (rfl | hK)
    · exact .inl rfl
    · exact (hI.2 K hK).imp Eq.symm Or.symm
    · exact hI.2 J hJ
    · exact hT.apart J hJ K hK

theorem subset (h : S ⊆ T) : Tiling S :=
  ⟨fun I hI => hT.nonempty I (h hI), fun I hI J hJ => hT.apart I (h hI) J (h hJ)⟩

theorem not_mem_of_swallowed (h : Swallowed T I) : I ∉ T :=
  fun hI => h.not_compatible (hT.mem_compatible hI)

end Tiling

theorem Swallowed.mono (h : S ⊆ T) (hI : Swallowed S I) : Swallowed T I := by
  obtain ⟨J, hJ, hin⟩ := hI
  exact ⟨J, h hJ, hin⟩

/-! ## Nesting -/

theorem Nested.of_apart (h : I = J ∨ Apart I J) : Nested J I := by
  rcases h with rfl | h
  · exact .inl ⟨le_rfl, le_rfl⟩
  · exact .inr h

/-- An interval that is nested in every member is compatible, unless a member has it inside. -/
theorem compatible_of_nested (hlt : J.1 < J.2) (hT : ∀ I ∈ T, Nested J I) (hnot : ¬ Swallowed T J) :
    Compatible T J := by
  refine ⟨hlt, fun I hI => ?_⟩
  rcases hT I hI with ⟨hlo, hhi⟩ | happ
  · left
    by_contra hne
    exact hnot ⟨I, hI, hlo, hhi, Ne.symm hne⟩
  · exact .inr happ

/-! ## Chains -/

variable {l : List Extent}

namespace Chain

variable {a b : Nat}

theorem bounds (h : Chain l a b) : a ≤ b ∧ ∀ I ∈ l, a ≤ I.1 ∧ I.1 < I.2 ∧ I.2 ≤ b := by
  induction l generalizing a with
  | nil => exact ⟨le_of_eq h, fun I hI => nomatch hI⟩
  | cons J l ih =>
    obtain ⟨rfl, hlt, hl⟩ := h
    obtain ⟨hle, hall⟩ := ih hl
    refine ⟨by omega, fun I hI => ?_⟩
    rcases mem_cons.mp hI with rfl | hI
    · exact ⟨le_refl _, hlt, hle⟩
    · have := hall I hI
      omega

theorem lt (h : Chain l a b) (hne : l ≠ []) : a < b := by
  obtain ⟨I, hI⟩ := exists_mem_of_ne_nil l hne
  have := h.bounds.2 I hI
  omega

/-- With at least two intervals in it, each is a proper part of the span. -/
theorem inside (h : Chain l a b) (h2 : 2 ≤ l.length) (hI : I ∈ l) : Inside I (a, b) := by
  refine ⟨(h.bounds.2 I hI).1, (h.bounds.2 I hI).2.2, ?_⟩
  match l, h, h2 with
  | J :: K :: l, h, _ =>
    obtain ⟨hJ, hJlt, hK, hKlt, hl⟩ := h
    have hend := hl.bounds.1
    rintro rfl
    rcases mem_cons.mp hI with heq | hI
    · have := congrArg Prod.snd heq
      simp only at this
      omega
    · have hlo := (bounds (l := K :: l) ⟨hK, hKlt, hl⟩).2 _ hI
      simp only at hlo
      omega

theorem covers (h : Chain l a b) {k : Nat} (hk : Contains (a, b) k) : ∃ I ∈ l, Contains I k := by
  induction l generalizing a with
  | nil =>
    obtain ⟨h₁, h₂⟩ := hk
    have : a = b := h
    simp only at h₁ h₂
    omega
  | cons J l ih =>
    obtain ⟨rfl, hlt, hl⟩ := h
    by_cases hJ : k < J.2
    · exact ⟨J, mem_cons_self, hk.1, hJ⟩
    · obtain ⟨I, hI, hin⟩ := ih hl ⟨not_lt.mp hJ, hk.2⟩
      exact ⟨I, mem_cons_of_mem J hI, hin⟩

theorem last (h : Chain l a b) (hne : l ≠ []) : ∃ I ∈ l, I.2 = b := by
  induction l generalizing a with
  | nil => exact absurd rfl hne
  | cons J l ih =>
    obtain ⟨-, -, hl⟩ := h
    cases l with
    | nil => exact ⟨J, mem_cons_self, hl⟩
    | cons K l =>
      obtain ⟨I, hI, hend⟩ := ih hl (cons_ne_nil K l)
      exact ⟨I, mem_cons_of_mem J hI, hend⟩

/-- A member of the tiling is in the chain, before it or after it. -/
theorem mem_or_apart (hT : Tiling T) (h : Chain l a b) (hl : ∀ I ∈ l, I ∈ T) (hJ : J ∈ T)
    (hne : l ≠ []) : J ∈ l ∨ Apart J (a, b) := by
  -- at or after the start of the chain, `J` is a member or after its end
  have hafter : ∀ l a, Chain l a b → (∀ I ∈ l, I ∈ T) → a ≤ J.1 → J ∈ l ∨ b ≤ J.1 := by
    intro l
    induction l with
    | nil =>
      intro a h _ ha
      exact .inr (h ▸ ha)
    | cons I l ih =>
      intro a h hl ha
      obtain ⟨rfl, hlt, hrest⟩ := h
      rcases hT.apart J hJ I (hl I mem_cons_self) with rfl | happ | happ
      · exact .inl mem_cons_self
      · have := hT.nonempty J hJ
        omega
      · exact (ih I.2 hrest (fun K hK => hl K (mem_cons_of_mem I hK)) happ).imp_left
          (mem_cons_of_mem I)
  by_cases ha : a ≤ J.1
  · exact (hafter l a h hl ha).imp_right .inr
  · refine .inr (.inl ?_)
    match l, h, hne with
    | I :: l, h, _ =>
      have hI : I.1 = a := h.1
      have hlt : I.1 < I.2 := h.2.1
      rcases hT.apart J hJ I (hl I mem_cons_self) with rfl | happ | happ
      · omega
      · exact hI ▸ happ
      · omega

/-- What is nested in every interval of a chain is nested in its span. -/
theorem nested (h : Chain l a b) (hne : l ≠ []) (hlt : J.1 < J.2) (hl : ∀ I ∈ l, Nested J I) :
    Nested J (a, b) := by
  by_cases hpart : ∃ I ∈ l, I.1 ≤ J.1 ∧ J.2 ≤ I.2
  · obtain ⟨I, hI, hlo, hhi⟩ := hpart
    have hb := h.bounds.2 I hI
    exact .inl ⟨hb.1.trans hlo, hhi.trans hb.2.2⟩
  · right
    by_contra happ
    have hab := h.lt hne
    obtain ⟨hlo, hhi⟩ := not_or.mp happ
    -- a key of both lies in an interval of the chain
    have hk : Contains (a, b) (max a J.1) := ⟨le_max_left _ _, max_lt hab (not_le.mp hlo)⟩
    obtain ⟨I, hI, hin⟩ := h.covers hk
    rcases hl I hI with hp | hleft | hright
    · exact hpart ⟨I, hI, hp⟩
    · exact absurd (hin.2.trans_le hleft) (not_lt.mpr (le_max_right _ _))
    · have hstart := hright.trans hin.1
      exact absurd (max_lt (not_le.mp hhi) hlt) (not_lt.mpr hstart)

end Chain

/-! ## Merging -/

/-- The keys of a set of intervals. -/
def covered (T : Set Extent) : Set Nat := {k | ∃ I ∈ T, Contains I k}

/-- `M` is covered, and what overlaps it is part of it. -/
structure Spanned (T : Set Extent) (M : Extent) : Prop where
  lt : M.1 < M.2
  nested : ∀ I ∈ T, I.1 < I.2 → Nested I M
  covered : ∀ k, Contains M k → k ∈ covered T

variable {M : Extent}

namespace Spanned

variable {N : Extent} (h : Spanned T M) (hT : Tiling T)
include h hT

theorem tiling : Tiling (mergeInto T M) := by
  -- what is kept starts outside, so it is not part of `M`
  have hkept : ∀ J ∈ T, (J.1 < M.1 ∨ M.2 ≤ J.1) → Apart J M := by
    intro J hJ hout
    have hlt := hT.nonempty J hJ
    rcases h.nested J hJ hlt with hin | happ
    · omega
    · exact happ.symm
  refine ⟨?_, ?_⟩
  · rintro J (rfl | ⟨hJ, -⟩)
    · exact h.lt
    · exact hT.nonempty J hJ
  · rintro J (rfl | ⟨hJ, hJo⟩) K (rfl | ⟨hK, hKo⟩)
    · exact .inl rfl
    · exact .inr (hkept K hK hKo).symm
    · exact .inr (hkept J hJ hJo)
    · exact hT.apart J hJ K hK

theorem covered_merge : Lib.covered (mergeInto T M) = Lib.covered T := by
  ext k
  constructor
  · rintro ⟨I, rfl | ⟨hI, -⟩, hk⟩
    · exact h.covered k hk
    · exact ⟨I, hI, hk⟩
  · rintro ⟨I, hI, hk⟩
    by_cases hout : I.1 < M.1 ∨ M.2 ≤ I.1
    · exact ⟨I, .inr ⟨hI, hout⟩, hk⟩
    · -- it starts inside `M`, so it is part of it
      refine ⟨M, .inl rfl, ?_⟩
      have hlt := hT.nonempty I hI
      obtain ⟨hlo, hhi⟩ := hk
      rcases h.nested I hI hlt with ⟨hM, hM'⟩ | happ | happ
      · exact ⟨hM.trans hlo, hhi.trans_le hM'⟩
      · exact absurd (.inr happ) hout
      · omega

theorem merge (hN : Spanned T N) (hMN : Nested M N) : Spanned (mergeInto T M) N where
  lt := hN.lt
  nested := by
    rintro I (rfl | ⟨hI, -⟩) hlt
    · exact hMN
    · exact hN.nested I hI hlt
  covered k hk := by
    rw [h.covered_merge hT]
    exact hN.covered k hk

end Spanned

section merge

variable (hT : Tiling T) (hl : ∀ I ∈ l, I ∈ T) (hchain : Chain l M.1 M.2) (hne : l ≠ [])
include hT hl hchain hne

theorem Spanned.of_chain : Spanned T M where
  lt := hchain.lt hne
  nested I hI _ := by
    rcases hchain.mem_or_apart hT hl hI hne with hmem | happ
    · have hb := hchain.bounds.2 I hmem
      exact .inl ⟨hb.1, hb.2.2⟩
    · exact .inr happ.symm
  covered k hk := by
    obtain ⟨I, hI, hin⟩ := hchain.covers hk
    exact ⟨I, hl I hI, hin⟩

theorem Tiling.merge : Tiling (mergeInto T M) := (Spanned.of_chain hT hl hchain hne).tiling hT

/-- What is not in the chain stays. -/
theorem Tiling.mem_merge_of_not_mem (hJ : J ∈ T) (hout : J ∉ l) : J ∈ mergeInto T M := by
  refine .inr ⟨hJ, ?_⟩
  rcases hchain.mem_or_apart hT hl hJ hne with hin | happ | happ
  · exact absurd hin hout
  · have := hT.nonempty J hJ
    exact .inl (by simp only at happ; omega)
  · exact .inr happ

/-- What lay inside a member still does. -/
theorem Swallowed.merge (h : Swallowed T I) : Swallowed (mergeInto T M) I := by
  obtain ⟨J, hJ, hin⟩ := h
  by_cases hJl : J ∈ l
  · have hb := hchain.bounds.2 J hJl
    exact ⟨M, .inl rfl, hin.trans_le hb.1 hb.2.2⟩
  · exact ⟨J, hT.mem_merge_of_not_mem hl hchain hne hJ hJl, hin⟩

end merge

/-! ## Tables -/

section table

variable {V : Type} (stop : V → Nat)

/-- The intervals of a table from starts to values that know their end. -/
def intervals (m : SMap Nat V) : Set Extent := {I | ∃ v, m.get? I.1 = some v ∧ stop v = I.2}

variable {stop} {m : SMap Nat V} {v : V}

theorem intervals_empty : intervals stop (SMap.empty : SMap Nat V) = ∅ :=
  Set.eq_empty_of_forall_notMem fun _ ⟨_, hv, _⟩ => nomatch hv

theorem intervals_insert (hT : Tiling (intervals stop m)) {a : Nat}
    (hcomp : Compatible (intervals stop m) (a, stop v)) :
    intervals stop (m.insert a v) = insert (a, stop v) (intervals stop m) := by
  ext J
  unfold intervals
  simp only [get?_insert, Set.mem_ofPred_eq, Set.mem_insert_iff]
  by_cases ha : J.1 = a
  · simp only [ha, if_true, Option.some.injEq]
    constructor
    · rintro ⟨w, rfl, hw⟩
      exact .inl (Prod.ext ha hw.symm)
    · rintro (rfl | ⟨w, hget, hw⟩)
      · exact ⟨v, rfl, rfl⟩
      · -- an entry at the same start is the same interval
        have hJ : J ∈ intervals stop m := ⟨w, ha ▸ hget, hw⟩
        have hJlt := hT.nonempty J hJ
        rcases hcomp.2 J hJ with rfl | happ | happ
        · exact ⟨v, rfl, rfl⟩
        · simp only at happ
          omega
        · have := hcomp.1
          simp only at happ this
          omega
  · simp only [ha, if_false]
    constructor
    · exact .inr
    · rintro (rfl | h)
      · exact absurd rfl ha
      · exact h

theorem intervals_merge {a : Nat} (hlt : a < stop v) {p : Nat → Bool}
    (hp : ∀ k, p k = true ↔ k < a ∨ stop v ≤ k) :
    intervals stop ((m.filterKeys p).insert a v) = mergeInto (intervals stop m) (a, stop v) := by
  ext J
  unfold intervals mergeInto
  simp only [get?_insert, get?_filterKeys, Set.mem_ofPred_eq, hp]
  by_cases ha : J.1 = a
  · simp only [ha, if_true, Option.some.injEq]
    constructor
    · rintro ⟨w, rfl, hw⟩
      exact .inl (Prod.ext ha hw.symm)
    · rintro (rfl | ⟨-, h | h⟩)
      · exact ⟨v, rfl, rfl⟩
      · omega
      · omega
  · simp only [ha, if_false]
    constructor
    · rintro ⟨w, hw, hstop⟩
      split at hw
      · rename_i hout
        exact .inr ⟨⟨w, hw, hstop⟩, hout⟩
      · cases hw
    · rintro (rfl | ⟨⟨w, hw, hstop⟩, hout⟩)
      · exact absurd rfl ha
      · exact ⟨w, by rw [if_pos hout]; exact hw, hstop⟩

theorem compatible_intervals_iff : Compatible (intervals stop m) I ↔
      I.1 < I.2 ∧ ∀ e ∈ m.entries, (e.1, stop e.2) = I ∨ Apart (e.1, stop e.2) I := by
  refine and_congr_right fun _ => ⟨?_, ?_⟩
  · intro h e he
    exact h _ ⟨e.2, get?_eq_some_iff.mpr he, rfl⟩
  · rintro h ⟨a, b⟩ ⟨v, hv, rfl⟩
    exact h (a, v) (get?_eq_some_iff.mp hv)

theorem tiling_intervals_iff : Tiling (intervals stop m) ↔
    ∀ e ∈ m.entries, Compatible (intervals stop m) (e.1, stop e.2) := by
  constructor
  · intro h e he
    exact h.mem_compatible ⟨e.2, get?_eq_some_iff.mpr he, rfl⟩
  · intro h
    have hmem : ∀ I ∈ intervals stop m, Compatible (intervals stop m) I := by
      rintro ⟨a, b⟩ ⟨v, hv, rfl⟩
      exact h (a, v) (get?_eq_some_iff.mp hv)
    exact ⟨fun I hI => (hmem I hI).1, fun I hI J hJ => (hmem J hJ).2 I hI⟩

theorem swallowed_intervals_iff :
    Swallowed (intervals stop m) I ↔ ∃ e ∈ m.entries, Inside I (e.1, stop e.2) := by
  constructor
  · rintro ⟨⟨a, b⟩, ⟨v, hv, rfl⟩, hin⟩
    exact ⟨(a, v), get?_eq_some_iff.mp hv, hin⟩
  · rintro ⟨⟨a, v⟩, he, hin⟩
    exact ⟨(a, stop v), ⟨v, get?_eq_some_iff.mpr he, rfl⟩, hin⟩

theorem forall_mem_intervals_iff {n : Nat} :
    (∀ I ∈ intervals stop m, I.2 ≤ n) ↔ ∀ e ∈ m.entries, stop e.2 ≤ n := by
  constructor
  · intro h e he
    exact h (e.1, stop e.2) ⟨e.2, get?_eq_some_iff.mpr he, rfl⟩
  · rintro h ⟨a, b⟩ ⟨v, hv, rfl⟩
    exact h (a, v) (get?_eq_some_iff.mp hv)

instance (I J : Extent) : Decidable (Apart I J) := inferInstanceAs (Decidable (_ ∨ _))

instance (I J : Extent) : Decidable (Inside I J) := inferInstanceAs (Decidable (_ ∧ _ ∧ _))

instance (stop : V → Nat) (m : SMap Nat V) (I : Extent) :
    Decidable (Compatible (intervals stop m) I) :=
  decidable_of_iff _ compatible_intervals_iff.symm

instance (stop : V → Nat) (m : SMap Nat V) : Decidable (Tiling (intervals stop m)) :=
  decidable_of_iff _ tiling_intervals_iff.symm

instance (stop : V → Nat) (m : SMap Nat V) (I : Extent) :
    Decidable (Swallowed (intervals stop m) I) :=
  decidable_of_iff _ swallowed_intervals_iff.symm

/-- The greatest start at or below a covered key is the start of the interval that covers it. -/
theorem floor?_of_contains (hT : Tiling (intervals stop m)) (hv : m.get? I.1 = some v)
    (hstop : stop v = I.2) {k : Nat} (hk : Contains I k) : m.floor? k = some (I.1, v) := by
  refine floor?_eq_some_iff.mpr ⟨hv, hk.1, ?_⟩
  intro b w hw hbk
  by_contra hlt
  have hI : I ∈ intervals stop m := ⟨v, hv, hstop⟩
  have hJ : (b, stop w) ∈ intervals stop m := ⟨w, hw, rfl⟩
  have hJlt := hT.nonempty _ hJ
  have := hk.2
  rcases hT.apart I hI _ hJ with rfl | happ | happ
  · exact hlt (le_refl _)
  · simp only at happ
    omega
  · simp only at happ hJlt
    omega

end table

end RustMq.Lib
