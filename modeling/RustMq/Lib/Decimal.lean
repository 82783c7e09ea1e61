import Mathlib.Data.List.Basic

/-!
# Decimal numbers in text

Names that a program builds from numbers and separators (`a/12/7_9`) are told apart by reading
them back: a maximal run of digits is delimited by whatever non-digit follows it. This module
has that one fact in the form the name formats need (`append_cons_inj`), and the parser a
language's standard library offers for an unsigned number of a given width, with its round trip.
-/

namespace RustMq.Lib.Decimal

open List

theorem toList_toString (n : Nat) : (toString n).toList = Nat.toDigits 10 n := by
  rw [Nat.toString_eq_ofList_toDigits, String.toList_ofList]

variable {n : Nat} {c : Char} {x y : List Char}

theorem isDigit_of_mem (h : c ∈ Nat.toDigits 10 n) : c.isDigit = true :=
  Nat.isDigit_of_mem_toDigits (by omega) (by omega) h

theorem not_mem (h : c.isDigit = false) : c ∉ Nat.toDigits 10 n := by
  intro hc
  rw [isDigit_of_mem hc] at h
  cases h

theorem toDigits_inj {m : Nat} (h : Nat.toDigits 10 m = Nat.toDigits 10 n) : m = n := by
  have := congrArg (fun ds => Nat.ofDigitChars 10 ds 0) h
  simpa only [Nat.ofDigitChars_ten_toDigits] using this

/-- Two texts that each begin with digits and a non-digit agree piece by piece. -/
theorem append_cons_inj {a b : List Char} {d : Char} (ha : ∀ e ∈ a, e.isDigit = true)
    (hb : ∀ e ∈ b, e.isDigit = true) (hc : c.isDigit = false) (hd : d.isDigit = false)
    (h : a ++ c :: x = b ++ d :: y) : a = b ∧ c = d ∧ x = y := by
  induction a generalizing b with
  | nil =>
    cases b with
    | nil => exact ⟨rfl, (cons.inj h).1, (cons.inj h).2⟩
    | cons e b =>
      have hce : c = e := (cons.inj h).1
      rw [hce, hb e mem_cons_self] at hc
      cases hc
  | cons e a ih =>
    cases b with
    | nil =>
      have hed : e = d := (cons.inj h).1
      rw [← hed, ha e mem_cons_self] at hd
      cases hd
    | cons f b =>
      obtain ⟨hef, htail⟩ := cons.inj h
      obtain ⟨hab, hcd, hxy⟩ := ih (fun e he => ha e (mem_cons_of_mem _ he))
        (fun e he => hb e (mem_cons_of_mem _ he)) htail
      exact ⟨by rw [hef, hab], hcd, hxy⟩

/-- The same read from the right end, where a number stands before what has been read. -/
theorem reverse_append_cons_inj {m : Nat} {d : Char} (hc : c.isDigit = false)
    (hd : d.isDigit = false)
    (h : (Nat.toDigits 10 m).reverse ++ c :: x = (Nat.toDigits 10 n).reverse ++ d :: y) :
    m = n ∧ c = d ∧ x = y := by
  obtain ⟨hmn, hcd, hxy⟩ := append_cons_inj (fun e he => isDigit_of_mem (mem_reverse.mp he))
    (fun e he => isDigit_of_mem (mem_reverse.mp he)) hc hd h
  exact ⟨toDigits_inj (reverse_injective hmn), hcd, hxy⟩

/-- The number a text denotes, if it is one below `bound`: an optional plus sign and at least
one digit. -/
def parseUnsigned (bound : Nat) (text : List Char) : Option Nat :=
  let digits := if text.head? = some '+' then text.tail else text
  let n := Nat.ofDigitChars 10 digits 0
  if digits ≠ [] ∧ digits.all Char.isDigit ∧ n < bound then some n else none

theorem parseUnsigned_toDigits {bound : Nat} (h : n < bound) :
    parseUnsigned bound (Nat.toDigits 10 n) = some n := by
  have hhead : (Nat.toDigits 10 n).head? ≠ some '+' := by
    intro hplus
    exact not_mem (by decide) (mem_of_mem_head? hplus)
  have hall : (Nat.toDigits 10 n).all Char.isDigit = true :=
    all_eq_true.mpr fun c hc => isDigit_of_mem hc
  unfold parseUnsigned
  simp only [if_neg hhead, Nat.ofDigitChars_ten_toDigits]
  exact if_pos ⟨Nat.toDigits_ne_nil, hall, h⟩

end RustMq.Lib.Decimal
