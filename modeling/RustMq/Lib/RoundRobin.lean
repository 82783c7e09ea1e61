import RustMq.Lib.SortedMap

/-!
# Dealing a list round the table

The items of a list are dealt in turn to `n` places: the item at index `j` goes to place `j % n`.
What place `i` gets is `dealt n i l`. Each item goes to one place, and two places differ by at most
one item; the second is Mathlib's count of the numbers below a bound in a residue class.
-/

namespace RustMq.Lib

open List

section dealing

variable {A : Type} {n i j : Nat} {l : List A} {x : A}

/-- What place `i` of `n` gets. -/
def dealt (n i : Nat) (l : List A) : List A :=
  (l.zipIdx.filter fun e => e.2 % n = i).map Prod.fst

theorem mem_dealt : x ∈ dealt n i l ↔ ∃ j, l[j]? = some x ∧ j % n = i := by
  simp only [dealt, mem_map, mem_filter, mem_zipIdx_iff_getElem?, decide_eq_true_eq,
    Prod.exists, exists_and_right, exists_eq_right]

/-- The indices below the length that are in the residue class of the place. -/
theorem length_dealt (hn : 0 < n) (hi : i < n) :
    (dealt n i l).length = l.length / n + if i < l.length % n then 1 else 0 := by
  have hindices : (dealt n i l).length = ((range l.length).filter fun j => j % n = i).length := by
    rw [range_eq_range', ← zipIdx_map_snd, filter_map, length_map, dealt, length_map]
    rfl
  have hcount : l.length.count (· ≡ i [MOD n]) = (dealt n i l).length := by
    rw [hindices, Nat.count_eq_card_filter_range]
    simp only [Nat.ModEq, Nat.mod_eq_of_lt hi]
    rfl
  rw [← hcount, Nat.count_modEq_card _ hn, Nat.mod_eq_of_lt hi]

/-- **Dealing is fair.** -/
theorem length_dealt_le (hi : i < n) (hj : j < n) :
    (dealt n i l).length ≤ (dealt n j l).length + 1 := by
  have hn : 0 < n := Nat.zero_lt_of_lt hi
  rw [length_dealt hn hi, length_dealt hn hj]
  split
  · omega
  · omega

theorem nodup_dealt (hl : l.Nodup) : (dealt n i l).Nodup := by
  have hsub : (dealt n i l).Sublist (l.zipIdx.map Prod.fst) := filter_sublist.map Prod.fst
  rw [zipIdx_map_fst] at hsub
  exact hl.sublist hsub

/-- **Each item goes to one place.** -/
theorem existsUnique_dealt (hn : 0 < n) (hl : l.Nodup) (hx : x ∈ l) :
    ∃! i, i < n ∧ x ∈ dealt n i l := by
  obtain ⟨k, hk⟩ := mem_iff_getElem?.mp hx
  refine ⟨k % n, ⟨Nat.mod_lt k hn, mem_dealt.mpr ⟨k, hk, rfl⟩⟩, ?_⟩
  rintro i ⟨-, hi⟩
  obtain ⟨k', hk', rfl⟩ := mem_dealt.mp hi
  have hlt : k' < l.length := (List.getElem?_eq_some_iff.mp hk').1
  rw [(getElem?_inj hlt hl).mp (hk'.trans hk.symm)]

end dealing

section filing

variable {K A V : Type} [LinearOrder K] (key : A → K) (val : A → V)

/-- File the value of an item under its key, behind those that are there. -/
def SMap.file (m : SMap K (List V)) (a : A) : SMap K (List V) :=
  m.insert (key a) ((m.get? (key a)).getD [] ++ [val a])

theorem SMap.get?_file (m : SMap K (List V)) (a : A) (k : K) : ((m.file key val a).get? k).getD [] =
      (m.get? k).getD [] ++ if key a = k then [val a] else [] := by
  rw [SMap.file, SMap.get?_insert]
  by_cases hk : k = key a
  · rw [if_pos hk, if_pos hk.symm, hk]
    rfl
  · rw [if_neg hk, if_neg fun h => hk h.symm, append_nil]

/-- **What is filed under a key**: the values of the items with this key, in their order. -/
theorem SMap.get?_foldl_file (l : List A) (m : SMap K (List V)) (k : K) :
    ((l.foldl (SMap.file key val) m).get? k).getD [] =
      (m.get? k).getD [] ++ (l.filter fun a => key a = k).map val := by
  induction l generalizing m with
  | nil => exact (append_nil _).symm
  | cons a l ih =>
    rw [foldl_cons, ih, SMap.get?_file, append_assoc, filter_cons]
    by_cases hk : key a = k
    · rw [if_pos hk, if_pos (decide_eq_true hk)]
      rfl
    · rw [if_neg hk, if_neg fun h => hk (of_decide_eq_true h)]
      rfl

/-- Only keys of items are added. -/
theorem SMap.mem_keys_foldl_file {l : List A} {m : SMap K (List V)} {k : K}
    (h : k ∈ (l.foldl (SMap.file key val) m).keys) : k ∈ m.keys ∨ ∃ a ∈ l, key a = k := by
  induction l generalizing m with
  | nil => exact .inl h
  | cons a l ih =>
    rcases ih h with hm | ⟨b, hb, hk⟩
    · obtain ⟨v, hv⟩ := SMap.mem_keys.mp hm
      rcases SMap.of_get?_insert hv with ⟨heq, -⟩ | ⟨-, hget⟩
      · exact .inr ⟨a, mem_cons_self, heq.symm⟩
      · exact .inl (SMap.mem_keys.mpr ⟨v, hget⟩)
    · exact .inr ⟨b, mem_cons_of_mem a hb, hk⟩

end filing

end RustMq.Lib
