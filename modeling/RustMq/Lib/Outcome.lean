import Mathlib

/-!
# Postconditions of fallible stateful methods

A method that mutates its receiver and may return early with an error is an `EStateM` computation:
an error keeps the state reached so far. `Ensures m s Q` says that running `m` from `s` establishes
`Q`, whichever way it returns. The postcondition takes the result as an `Except`, so the rule for
sequencing has one premise: at every outcome of the first half, either it failed and `Q` holds
already, or the second half goes on to establish `Q`.
-/

namespace RustMq.Lib

variable {ε σ α β : Type}

/-- The result of a method and the state it leaves, whether it returned or failed. -/
def outcome (m : EStateM ε σ α) (s : σ) : Except ε α × σ :=
  match m.run s with
  | .ok a s => (.ok a, s)
  | .error e s => (.error e, s)

/-- Running `m` from `s` establishes `Q`. -/
def Ensures (m : EStateM ε σ α) (s : σ) (Q : Except ε α → σ → Prop) : Prop :=
  Q (outcome m s).1 (outcome m s).2

variable {s s' : σ} {Q P : Except ε α → σ → Prop} {m : EStateM ε σ α} {f : PUnit → EStateM ε σ α}
  {g : σ → σ}

theorem Ensures.of_outcome {r : Except ε α} (h : outcome m s = (r, s')) (hQ : Q r s') :
    Ensures m s Q := by
  rw [Ensures, h]
  exact hQ

theorem Ensures.imp (h : Ensures m s P) (himp : ∀ r s', P r s' → Q r s') : Ensures m s Q :=
  himp _ _ h

/-- Sequencing: an error of the first half is an error of the whole. -/
theorem Ensures.bind {f : α → EStateM ε σ β} {Q : Except ε β → σ → Prop} (h : Ensures m s P)
    (hok : ∀ a s', P (.ok a) s' → Ensures (f a) s' Q)
    (herr : ∀ e s', P (.error e) s' → Q (.error e) s') : Ensures (m >>= f) s Q := by
  have hrun : (m >>= f).run s = match m.run s with
      | .ok a s => (f a).run s
      | .error e s => .error e s := rfl
  unfold Ensures outcome at *
  rw [hrun]
  cases hm : m.run s with
  | ok a s' =>
    rw [hm] at h
    exact hok a s' h
  | error e s' =>
    rw [hm] at h
    exact herr e s' h

theorem Ensures.pure {a : α} (h : Q (.ok a) s) : Ensures (Pure.pure a) s Q := h

theorem Ensures.get_bind {f : σ → EStateM ε σ α} (h : Ensures (f s) s Q) :
    Ensures (get >>= f) s Q := h

theorem Ensures.set_bind (h : Ensures (f ⟨⟩) s' Q) :
    Ensures (set s' >>= f) s Q := h

theorem Ensures.modify_bind (h : Ensures (f ⟨⟩) (g s) Q) :
    Ensures (modify g >>= f) s Q := h

theorem Ensures.modify {Q : Except ε PUnit → σ → Prop} (h : Q (.ok ⟨⟩) (g s)) :
    Ensures (modify g) s Q := h

end RustMq.Lib
