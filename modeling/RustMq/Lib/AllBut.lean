import Mathlib.Data.List.Basic

/-!
# All entries of a list but one

A system whose parties run one at a time keeps its parties in a list: a new one is appended when
all others have ended, and a step replaces one entry. `AllBut P l` is the invariant, with
`P` for "has ended". An entry that does not satisfy `P` is then the only one, which is what
`AllBut.of_mem_set` gives to the proof of a step.
-/

namespace RustMq.Lib

open List

variable {α : Type} {P : α → Prop} {l : List α} {a b x : α} {i j : Nat}

/-- All entries satisfy `P`, with one exception at most. -/
def AllBut (P : α → Prop) (l : List α) : Prop :=
  ∃ i, ∀ (j : Nat) (a : α), l[j]? = some a → j ≠ i → P a

namespace AllBut

theorem nil : AllBut P [] := ⟨0, fun j a ha => by simp at ha⟩

theorem concat (h : ∀ a ∈ l, P a) (x : α) : AllBut P (l ++ [x]) := by
  refine ⟨l.length, fun j a ha hj => ?_⟩
  rw [getElem?_append] at ha
  split_ifs at ha with hlt
  · exact h a (mem_of_getElem? ha)
  · have hzero := (List.getElem?_eq_some_iff.mp ha).1
    simp only [length_singleton] at hzero
    omega

variable (h : AllBut P l) (hi : l[i]? = some a) (hnot : ¬ P a)
include h hi hnot

/-- The exception is the only one. -/
theorem others (hj : l[j]? = some b) (hne : j ≠ i) : P b := by
  obtain ⟨k, hk⟩ := h
  obtain rfl : i = k := by
    by_contra hik
    exact hnot (hk i a hi hik)
  exact hk j b hj hne

/-- After a step of the exception every other entry is an old one that satisfies `P`. -/
theorem of_mem_set (hb : b ∈ l.set i x) : b = x ∨ b ∈ l ∧ P b := by
  obtain ⟨j, hj⟩ := mem_iff_getElem?.mp hb
  rw [getElem?_set] at hj
  split_ifs at hj with hij hlt
  · exact .inl (Option.some.inj hj).symm
  · exact .inr ⟨mem_of_getElem? hj, h.others hi hnot hj (Ne.symm hij)⟩

theorem set (x : α) : AllBut P (l.set i x) := by
  refine ⟨i, fun j b hj hne => ?_⟩
  rw [getElem?_set_ne (Ne.symm hne)] at hj
  exact h.others hi hnot hj hne

end AllBut

end RustMq.Lib
