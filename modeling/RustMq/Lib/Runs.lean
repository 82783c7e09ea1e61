import Mathlib.Data.Option.Basic

/-!
# Runs of a labelled step function

A system of concurrent parties is a partial step function: the label says which party moves and
what its environment answered, and the step is `none` where the move is not possible. A run is
a list of labels executed from a state. Every interleaving of the parties is some list of
labels, so a statement about all lists is a statement about all interleavings.

An assumption on a run is an assumption on its steps: a predicate on the state before the step
and the label. `Along` says that every step the run takes satisfies it. The one induction is
`exec_induction`; it carries the labels executed so far, so an invariant may speak about the
history without the state keeping any.
-/

namespace RustMq.Lib

open List

variable {S L : Type}

/-- Execute the labels from the left; `none` as soon as one is not possible. -/
def exec (step : S → L → Option S) : S → List L → Option S
  | s, [] => some s
  | s, l :: ls => (step s l).bind fun s' => exec step s' ls

/-- Every step of the run is taken from a state in which `P` holds of its label. -/
def Along (step : S → L → Option S) (P : S → L → Prop) : S → List L → Prop
  | _, [] => True
  | s, l :: ls => P s l ∧ ∀ s', step s l = some s' → Along step P s' ls

/-- On a concrete run the assumption can be evaluated. -/
instance decidableAlong (step : S → L → Option S) (P : S → L → Prop)
    [∀ s l, Decidable (P s l)] : ∀ s ls, Decidable (Along step P s ls)
  | _, [] => .isTrue trivial
  | s, l :: ls =>
    have : Decidable (∀ s', step s l = some s' → Along step P s' ls) :=
      match step s l with
      | none => .isTrue fun _ h => nomatch h
      | some s' =>
        @decidable_of_iff _ (Along step P s' ls)
          ⟨fun ha _ h => Option.some.inj h ▸ ha, fun ha => ha s' rfl⟩
          (decidableAlong step P s' ls)
    inferInstanceAs (Decidable (_ ∧ _))

variable {step : S → L → Option S} {P : S → L → Prop}

variable {s t : S} {ls : List L} {I : S → Prop} {l : L}

theorem exec_cons_eq_some (h : exec step s (l :: ls) = some t) :
    ∃ s', step s l = some s' ∧ exec step s' ls = some t :=
  Option.bind_eq_some_iff.mp h

theorem exec_append (s : S) (ls ms : List L) :
    exec step s (ls ++ ms) = (exec step s ls).bind fun t => exec step t ms := by
  induction ls generalizing s with
  | nil => rfl
  | cons l ls ih =>
    rw [cons_append, exec, exec, Option.bind_assoc]
    exact Option.bind_congr fun s' _ => ih s'

/-- The assumption on a run that is known step by step. -/
theorem along_cons {s' : S} (hP : P s l) (hs : step s l = some s') (h : Along step P s' ls) :
    Along step P s (l :: ls) :=
  ⟨hP, fun _ hr => Option.some.inj (hs.symm.trans hr) ▸ h⟩

/-- An assumption on the labels alone holds along every run of such labels. -/
theorem along_of_forall_mem (h : ∀ l ∈ ls, ∀ s, P s l) (s : S) : Along step P s ls := by
  induction ls generalizing s with
  | nil => exact trivial
  | cons l ls ih =>
    obtain ⟨hl, hls⟩ := forall_mem_cons.mp h
    exact ⟨hl s, fun s' _ => ih hls s'⟩

/-- An assumption that always holds holds along every run. -/
theorem along_of_forall (h : ∀ s l, P s l) (s : S) (ls : List L) : Along step P s ls :=
  along_of_forall_mem (fun l _ s => h s l) s

theorem Along.imp {Q : S → L → Prop} (h : ∀ s l, P s l → Q s l) (hP : Along step P s ls) :
    Along step Q s ls := by
  induction ls generalizing s with
  | nil => exact trivial
  | cons l ls ih => exact ⟨h s l hP.1, fun s' hs => ih (hP.2 s' hs)⟩

/-- Two assumptions on a run are one. -/
theorem Along.and {Q : S → L → Prop} (hP : Along step P s ls) (hQ : Along step Q s ls) :
    Along step (fun s l => P s l ∧ Q s l) s ls := by
  induction ls generalizing s with
  | nil => exact trivial
  | cons l ls ih => exact ⟨⟨hP.1, hQ.1⟩, fun s' hs => ih (hP.2 s' hs) (hQ.2 s' hs)⟩

/-- The assumption on a run in two parts. -/
theorem along_append {ms : List L} (h : exec step s ls = some t) :
    Along step P s (ls ++ ms) ↔ Along step P s ls ∧ Along step P t ms := by
  induction ls generalizing s with
  | nil =>
    cases h
    simp [Along]
  | cons l ls ih =>
    obtain ⟨s', hs', ht⟩ := exec_cons_eq_some h
    have hall : ∀ {Q : S → Prop}, (∀ r, step s l = some r → Q r) ↔ Q s' := by
      intro Q
      rw [hs']
      exact ⟨fun hQ => hQ s' rfl, fun hQ r hr => by cases hr; exact hQ⟩
    rw [cons_append, Along, Along, hall, hall, ih ht, and_assoc]

/-- **An invariant of the steps is an invariant of the runs.** `I hist s` speaks about the
state and the labels executed so far. -/
theorem exec_induction {I : List L → S → Prop}
    (hstep : ∀ hist s l s', I hist s → P s l → step s l = some s' → I (hist ++ [l]) s')
    (hist : List L) (hinit : I hist s) (halong : Along step P s ls)
    (hexec : exec step s ls = some t) : I (hist ++ ls) t := by
  induction ls generalizing hist s with
  | nil =>
    rw [append_nil]
    cases hexec
    exact hinit
  | cons l ls ih =>
    obtain ⟨hP, hrest⟩ := halong
    obtain ⟨s', hs', ht⟩ := exec_cons_eq_some hexec
    have := ih _ (hstep hist s l s' hinit hP hs') (hrest s' hs') ht
    rwa [append_assoc] at this

/-- The same without the history. -/
theorem exec_invariant (hstep : ∀ s l s', I s → P s l → step s l = some s' → I s') (hinit : I s)
    (halong : Along step P s ls) (hexec : exec step s ls = some t) : I t :=
  exec_induction (I := fun _ s => I s) (fun _ => hstep) [] hinit halong hexec

/-- **A simulation of the steps is a simulation of the runs.** The other side, `perform`, is a total
function. -/
theorem exec_simulation {A : Type} {R : S → A → Prop} {perform : A → L → A}
    (hstep : ∀ s a l s', R s a → P s l → step s l = some s' → R s' (perform a l)) {a : A}
    (hinit : R s a) (halong : Along step P s ls) (hexec : exec step s ls = some t) :
    R t (ls.foldl perform a) := by
  have hrun := exec_induction (I := fun hist s => R s (hist.foldl perform a)) ?_ [] hinit halong
    hexec
  · exact hrun
  · intro hist s l s' h hP hs
    rw [foldl_append]
    exact hstep s _ l s' h hP hs

/-- An invariant that every step keeps. -/
theorem exec_invariant_of_step (hstep : ∀ s l s', I s → step s l = some s' → I s') (hinit : I s)
    (hexec : exec step s ls = some t) : I t :=
  exec_invariant (P := fun _ _ => True) (fun s l s' h _ hs => hstep s l s' h hs) hinit
    (along_of_forall (fun _ _ => trivial) s ls) hexec

/-- **A property that each step keeps exactly under an assumption** is kept by a run exactly when
the assumption holds along it. -/
theorem exec_iff_along (hstep : ∀ s l s', step s l = some s' → (I s' ↔ I s ∧ P s l))
    (hexec : exec step s ls = some t) : I t ↔ I s ∧ Along step P s ls := by
  induction ls generalizing s with
  | nil =>
    cases hexec
    exact ⟨fun h => ⟨h, trivial⟩, fun h => h.1⟩
  | cons l ls ih =>
    obtain ⟨s', hs', ht⟩ := exec_cons_eq_some hexec
    have halong : Along step P s (l :: ls) ↔ P s l ∧ Along step P s' ls := by
      refine and_congr_right fun _ => ⟨fun h => h s' hs', fun h r hr => ?_⟩
      rw [hs'] at hr
      cases hr
      exact h
    rw [ih ht, hstep s l s' hs', halong, and_assoc]

/-- **A run and the same run without some of its labels.** What is related stays so, whether a label
is taken by both or by the first only. -/
theorem exec_filter {R : S → S → Prop} {keep : L → Bool}
    (hkeep : ∀ s a l s', R s a → P s l → keep l = true → step s l = some s' →
      ∃ a', step a l = some a' ∧ R s' a')
    (hdrop : ∀ s a l s', R s a → P s l → keep l = false → step s l = some s' → R s' a) {a : S}
    (hinit : R s a) (halong : Along step P s ls) (hexec : exec step s ls = some t) :
    ∃ b, exec step a (ls.filter keep) = some b ∧ R t b := by
  induction ls generalizing s a with
  | nil =>
    cases hexec
    exact ⟨a, rfl, hinit⟩
  | cons l ls ih =>
    obtain ⟨hP, hrest⟩ := halong
    obtain ⟨s', hs', ht⟩ := exec_cons_eq_some hexec
    cases hl : keep l with
    | true =>
      obtain ⟨a', ha', hR⟩ := hkeep s a l s' hinit hP hl hs'
      rw [filter_cons_of_pos hl, exec, ha']
      exact ih hR (hrest s' hs') ht
    | false =>
      rw [filter_cons_of_neg (by rw [hl]; decide)]
      exact ih (hdrop s a l s' hinit hP hl hs') (hrest s' hs') ht

/-- An entry of a table after one has been set. -/
theorem of_update_eq_some {K V : Type} [DecidableEq K] {f : K → Option V} {k k' : K} {v v' : V}
    (h : Function.update f k (some v) k' = some v') :
    (k' = k ∧ v' = v) ∨ (k' ≠ k ∧ f k' = some v') := by
  by_cases heq : k' = k
  · rw [heq, Function.update_self] at h
    exact .inl ⟨heq, (Option.some.inj h).symm⟩
  · rw [Function.update_of_ne heq] at h
    exact .inr ⟨heq, h⟩

/-- The same label again and again, along the states `f k`, `f (k + 1)`, and so on. -/
theorem exec_replicate {f : Nat → S} {k n : Nat}
    (h : ∀ j, k ≤ j → j < k + n → P (f j) l ∧ step (f j) l = some (f (j + 1))) :
    Along step P (f k) (List.replicate n l) ∧
      exec step (f k) (List.replicate n l) = some (f (k + n)) := by
  induction n generalizing k with
  | zero => exact ⟨trivial, rfl⟩
  | succ n ih =>
    obtain ⟨hP, hstep⟩ := h k (Nat.le_refl k) (by omega)
    have hrest : ∀ j, k + 1 ≤ j → j < k + 1 + n → P (f j) l ∧ step (f j) l = some (f (j + 1)) :=
      fun j hj hlt => h j (by omega) (by omega)
    obtain ⟨halong, hexec⟩ := ih hrest
    rw [replicate_succ, Along, exec, hstep, Option.bind_some, hexec, Nat.add_right_comm]
    refine ⟨⟨hP, fun s' hs' => ?_⟩, rfl⟩
    cases hs'
    exact halong

end RustMq.Lib
