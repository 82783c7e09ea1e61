import Mathlib.Data.List.Basic

/-!
# Fallible conversions

Functions into `Except` that are composed with the early return of `?`. A composition that returns
has returned at every step (`bind_eq_ok`), and two conversions of a list after each other convert
each element by both (`mapM_mapM_eq_ok`).
-/

namespace RustMq.Lib

variable {ε α β : Type} {f : α → Except ε β}

theorem bind_eq_ok {x : Except ε α} {b : β} : (x >>= f) = .ok b ↔ ∃ a, x = .ok a ∧ f a = .ok b := by
  cases x with
  | error e =>
    constructor
    · intro h
      cases h
    · rintro ⟨a, h, -⟩
      cases h
  | ok a =>
    constructor
    · intro h
      exact ⟨a, rfl, h⟩
    · rintro ⟨a', h, hf⟩
      cases h
      exact hf

/-- A conversion forth and another one back, which never fail on the elements of the list. -/
theorem mapM_mapM_eq_ok {γ : Type} {g : β → Except ε γ} {k : α → γ} {l : List α}
    (h : ∀ a ∈ l, (f a >>= g) = .ok (k a)) :
    ∃ bs, l.mapM f = .ok bs ∧ bs.mapM g = .ok (l.map k) := by
  induction l with
  | nil => exact ⟨[], rfl, rfl⟩
  | cons a l ih =>
    obtain ⟨b, hb, hg⟩ := bind_eq_ok.mp (h a List.mem_cons_self)
    obtain ⟨bs, hbs, hgs⟩ := ih fun c hc => h c (List.mem_cons_of_mem a hc)
    refine ⟨b :: bs, ?_, ?_⟩
    · rw [List.mapM_cons, hb, hbs]
      rfl
    · rw [List.mapM_cons, hg, hgs]
      rfl

end RustMq.Lib
