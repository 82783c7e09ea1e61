import RustMq.Lib.Codec
import RustMq.Lib.SortedMap

/-!
# Ordered maps on the wire

A serialized ordered map is the sequence of its entries in key order. A reader inserts what it
reads one entry after another, so it rebuilds the map whatever the order; on the sequence a
writer produced the insertions only append, and the map that comes back is the one written.
-/

namespace RustMq.Lib

open List

namespace SMap

variable {K V : Type} [LinearOrder K] {m : SMap K V}

/-- Insert the entries of a list from the left. -/
def ofEntries (l : List (K × V)) : SMap K V := l.foldl (fun m e => m.insert e.1 e.2) empty

/-- Inserting above every key appends. -/
theorem entries_insert_of_lt {k : K} (v : V) (h : ∀ e ∈ m.entries, e.1 < k) :
    (m.insert k v).entries = m.entries ++ [(k, v)] := by
  have hbelow : m.entries.filter (fun e => e.1 < k) = m.entries :=
    filter_eq_self.mpr fun e he => by simpa using h e he
  have habove : m.entries.filter (fun e => k < e.1) = [] :=
    filter_eq_nil_iff.mpr fun e he => by simpa using (h e he).le
  show m.entries.filter (fun e => e.1 < k) ++ (k, v) :: m.entries.filter (fun e => k < e.1) = _
  rw [hbelow, habove]

theorem entries_foldl_insert {l : List (K × V)} (hl : l.Pairwise fun a b => a.1 < b.1)
    (hm : ∀ a ∈ m.entries, ∀ b ∈ l, a.1 < b.1) :
    (l.foldl (fun m e => m.insert e.1 e.2) m).entries = m.entries ++ l := by
  induction l generalizing m with
  | nil => simp
  | cons e l ih =>
    obtain ⟨hlt, hl⟩ := pairwise_cons.mp hl
    have hins := entries_insert_of_lt e.2 fun a ha => hm a ha e mem_cons_self
    rw [foldl_cons, ih hl, hins, append_assoc, singleton_append]
    intro a ha b hb
    rw [hins] at ha
    rcases mem_append.mp ha with ha | ha
    · exact hm a ha b (mem_cons_of_mem _ hb)
    · rw [mem_singleton.mp ha]
      exact hlt b hb

theorem ofEntries_entries (m : SMap K V) : ofEntries m.entries = m := by
  apply ext_entries
  rw [ofEntries, entries_foldl_insert m.sorted (by simp [empty])]
  rfl

end SMap

namespace Codec

variable {K V : Type} [LinearOrder K]

/-- An ordered map: the sequence of its entries behind a 64-bit count. -/
def map (c : Codec K) (d : Codec V) : Codec (SMap K V) :=
  (Codec.list (c.pair d)).iso SMap.ofEntries SMap.entries SMap.ofEntries_entries

end Codec
end RustMq.Lib
