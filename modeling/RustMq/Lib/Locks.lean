import RustMq.Lib.Runs

/-!
# Threads that take exclusive locks

A thread executes a program of acquisitions, releases and pieces of work on shared data, and
waits at an acquisition until the lock is free. Locks are exclusive and released in the reverse
order of their acquisition, as guards that are dropped at the end of a scope are.

What may be acquired while what is held is a relation `allowed`, a discipline that the programs
follow. The invariant of all runs is that the locks of a thread were taken one after the other in
accordance with it, and that nobody else has them. Whether there can be a deadlock is then a
question about `allowed` alone.
-/

namespace RustMq.Lib.Locks

open Function

variable {K W D O : Type}

inductive Instr (K W : Type) where
  | acquire (lock : K)
  | release (lock : K)
  | work (w : W)
  deriving DecidableEq

/-- The locks a thread holds, last taken first, and the rest of its program. -/
structure Thread (K W : Type) where
  held : List K
  rest : List (Instr K W)

structure State (K W D : Type) where
  data : D
  holder : K → Option Nat
  threads : Nat → Option (Thread K W)

/-- A thread begins an operation, or executes its next instruction. -/
inductive Label (O : Type) where
  | start (id : Nat) (op : O)
  | run (id : Nat)
  deriving DecidableEq

def State.init (data : D) : State K W D := ⟨data, fun _ => none, fun _ => none⟩

def State.set (s : State K W D) (id : Nat) (t : Thread K W) : State K W D :=
  { s with threads := Function.update s.threads id (some t) }

/-- The next instruction of a thread; `none` where it has to wait or has returned. -/
def runThread [DecidableEq K] (perform : D → W → D) (s : State K W D) (id : Nat)
    (t : Thread K W) : Option (State K W D) :=
  match t.rest with
  | [] => none
  | .acquire k :: rest =>
    if s.holder k = none then
      some { s.set id ⟨k :: t.held, rest⟩ with holder := Function.update s.holder k (some id) }
    else none
  | .release k :: rest =>
    match t.held with
    | [] => none
    | k' :: held =>
      if k' = k then
        some { s.set id ⟨held, rest⟩ with holder := Function.update s.holder k none }
      else none
  | .work w :: rest => some { s.set id ⟨t.held, rest⟩ with data := perform s.data w }

def step [DecidableEq K] (program : O → List (Instr K W)) (perform : D → W → D)
    (s : State K W D) : Label O → Option (State K W D)
  | .start id op =>
    match s.threads id with
    | some _ => none
    | none => some (s.set id ⟨[], program op⟩)
  | .run id => (s.threads id).bind (runThread perform s id)

/-- The thread's next instruction is to acquire the lock. -/
def Waits (s : State K W D) (id : Nat) (k : K) : Prop :=
  ∃ t rest, s.threads id = some t ∧ t.rest = .acquire k :: rest

def Holds (s : State K W D) (id : Nat) (k : K) : Prop := s.holder k = some id

/-- Each of the threads waits for a lock that another one of them holds. -/
def Deadlocked (s : State K W D) (ids : Set Nat) : Prop :=
  ids.Nonempty ∧ ∀ id ∈ ids, ∃ k, Waits s id k ∧ ∃ id' ∈ ids, id' ≠ id ∧ Holds s id' k

variable {s s' : State K W D} {allowed : List K → K → Prop} {id : Nat} {k : K} {held : List K}
  {rest : List (Instr K W)} {perform : D → W → D}

/-- Two threads do not hold the same lock. -/
theorem holds_unique {id' : Nat} (h : Holds s id k) (h' : Holds s id' k) : id = id' := by
  rw [Holds] at h h'
  rw [h, Option.some.injEq] at h'
  exact h'

/-- In a deadlock the lock that a thread waits for is held by another thread of it. -/
theorem Deadlocked.blocked {ids : Set Nat} (hdead : Deadlocked s ids) (hid : id ∈ ids)
    (hwaits : Waits s id k) : ∃ id' ∈ ids, id' ≠ id ∧ Holds s id' k := by
  obtain ⟨k', ⟨t, rest, ht, hrest⟩, hheld⟩ := hdead.2 id hid
  obtain ⟨t', rest', ht', hrest'⟩ := hwaits
  rw [ht, Option.some.injEq] at ht'
  subst ht'
  rw [hrest, List.cons.injEq, Instr.acquire.injEq] at hrest'
  exact hrest'.1 ▸ hheld

/-! ## Disciplines -/

/-- The program acquires only what is allowed beside what it holds, releases in reverse order, and
returns with nothing. -/
def Follows (allowed : List K → K → Prop) : List K → List (Instr K W) → Prop
  | held, [] => held = []
  | held, .acquire k :: rest => allowed held k ∧ Follows allowed (k :: held) rest
  | [], .release _ :: _ => False
  | k' :: held, .release k :: rest => k' = k ∧ Follows allowed held rest
  | held, .work _ :: rest => Follows allowed held rest

theorem follows_acquire :
    Follows allowed held (.acquire k :: rest) ↔
      allowed held k ∧ Follows allowed (k :: held) rest := by
  cases held <;> rfl

theorem follows_work {w : W} :
    Follows allowed held (.work w :: rest) ↔ Follows allowed held rest := by
  cases held <;> rfl

/-- Locks taken one after the other as allowed. -/
inductive Built (allowed : List K → K → Prop) : List K → Prop
  | nil : Built allowed []
  | cons {held : List K} {k : K} (h : Built allowed held) (hk : allowed held k) :
      Built allowed (k :: held)

/-- Programs one after the other. -/
theorem Follows.append {p q : List (Instr K W)} (hp : Follows allowed held p)
    (hq : Follows allowed [] q) : Follows allowed held (p ++ q) := by
  induction p generalizing held with
  | nil =>
    cases hp
    exact hq
  | cons i p ih =>
    cases i with
    | acquire k =>
      obtain ⟨hk, hp⟩ := follows_acquire.mp hp
      exact follows_acquire.mpr ⟨hk, ih hp⟩
    | release k =>
      cases held with
      | nil => exact hp.elim
      | cons k' held => exact ⟨hp.1, ih hp.2⟩
    | work w => exact follows_work.mpr (ih (follows_work.mp hp))

theorem Follows.flatMap {α : Type} {f : α → List (Instr K W)} (h : ∀ a, Follows allowed [] (f a))
    (as : List α) : Follows allowed [] (as.flatMap f) := by
  induction as with
  | nil => exact rfl
  | cons a as ih => exact (h a).append ih

/-! ## The invariant -/

structure Inv (allowed : List K → K → Prop) (s : State K W D) : Prop where
  holder_iff : ∀ k id, s.holder k = some id ↔ ∃ t, s.threads id = some t ∧ k ∈ t.held
  nodup : ∀ id t, s.threads id = some t → t.held.Nodup
  built : ∀ id t, s.threads id = some t → Built allowed t.held
  follows : ∀ id t, s.threads id = some t → Follows allowed t.held t.rest

variable {allowed : List K → K → Prop} {s : State K W D}

theorem Inv.init (data : D) : Inv allowed (State.init data : State K W D) where
  holder_iff k id := by simp [State.init]
  nodup id t h := by cases h
  built id t h := by cases h
  follows id t h := by cases h

/-- What is left to show when one thread moves and the holders change with what it holds. -/
theorem Inv.move (h : Inv allowed s) {t' : Thread K W}
    (hthreads : s'.threads = Function.update s.threads id (some t'))
    (hholder : ∀ k id', s'.holder k = some id' ↔
      if id' = id then k ∈ t'.held else s.holder k = some id') (hnodup : t'.held.Nodup)
    (hbuilt : Built allowed t'.held) (hfollows : Follows allowed t'.held t'.rest) :
    Inv allowed s' := by
  have hlook : ∀ id' t, s'.threads id' = some t →
      (id' = id ∧ t = t') ∨ (id' ≠ id ∧ s.threads id' = some t) := by
    intro id' t ht
    rw [hthreads] at ht
    exact of_update_eq_some ht
  refine ⟨fun k id' => ?_, fun id' t ht => ?_, fun id' t ht => ?_, fun id' t ht => ?_⟩
  · rw [hholder]
    by_cases hid : id' = id
    · subst hid
      simp [hthreads]
    · rw [if_neg hid, hthreads, update_of_ne hid, h.holder_iff]
  · rcases hlook id' t ht with ⟨-, rfl⟩ | ⟨-, ht⟩
    · exact hnodup
    · exact h.nodup id' t ht
  · rcases hlook id' t ht with ⟨-, rfl⟩ | ⟨-, ht⟩
    · exact hbuilt
    · exact h.built id' t ht
  · rcases hlook id' t ht with ⟨-, rfl⟩ | ⟨-, ht⟩
    · exact hfollows
    · exact h.follows id' t ht

theorem Inv.runThread [DecidableEq K] {t : Thread K W} (h : Inv allowed s)
    (ht : s.threads id = some t) (hrun : Locks.runThread perform s id t = some s') :
    Inv allowed s' := by
  have hmine : ∀ k, s.holder k = some id ↔ k ∈ t.held := by
    intro k
    rw [h.holder_iff, ht]
    simp
  have hfollows := h.follows id t ht
  unfold Locks.runThread at hrun
  split at hrun
  · cases hrun
  · rename_i k rest hrest
    obtain ⟨hfree, heq⟩ := Option.ite_none_right_eq_some.mp hrun
    cases heq
    rw [hrest, follows_acquire] at hfollows
    have hnew : k ∉ t.held := by
      rw [← hmine, hfree]
      exact fun h => by cases h
    refine h.move rfl (fun k' id' => ?_) (List.nodup_cons.mpr ⟨hnew, h.nodup id t ht⟩)
      ((h.built id t ht).cons hfollows.1) hfollows.2
    show update s.holder k (some id) k' = some id' ↔ _
    rw [update_apply]
    by_cases hk : k' = k
    · subst hk
      by_cases hid : id' = id
      · simp [hid]
      · simp [hid, hfree, Ne.symm hid]
    · by_cases hid : id' = id
      · simp [hk, hid, hmine]
      · simp [hk, hid]
  · rename_i k rest hrest
    split at hrun
    · cases hrun
    · rename_i k' held hheld
      obtain ⟨rfl, heq⟩ := Option.ite_none_right_eq_some.mp hrun
      cases heq
      have hnodup := h.nodup id t ht
      have hbuilt := h.built id t ht
      rw [hheld] at hnodup hbuilt hfollows
      rw [hrest] at hfollows
      obtain ⟨hnotin, hnodup⟩ := List.nodup_cons.mp hnodup
      cases hbuilt with
      | cons hbuilt _ =>
        refine h.move rfl (fun j id' => ?_) hnodup hbuilt hfollows.2
        show update s.holder k' none j = some id' ↔ _
        rw [update_apply]
        have hk' : s.holder k' = some id := by
          rw [hmine, hheld]
          exact List.mem_cons_self
        by_cases hj : j = k'
        · subst hj
          by_cases hid : id' = id
          · simp [hid, hnotin]
          · simp [hid, hk', Ne.symm hid]
        · by_cases hid : id' = id
          · simp [hj, hid, hmine, hheld]
          · simp [hj, hid]
  · rename_i w rest hrest
    cases hrun
    rw [hrest, follows_work] at hfollows
    refine h.move rfl (fun k id' => ?_) (h.nodup id t ht) (h.built id t ht) hfollows
    by_cases hid : id' = id
    · rw [if_pos hid, hid]
      exact hmine k
    · rw [if_neg hid]
      rfl

/-- **Every run of programs that follow the discipline keeps it.** -/
theorem Inv.step [DecidableEq K] {program : O → List (Instr K W)}
    (hprogram : ∀ op, Follows allowed [] (program op)) {l : Label O} (h : Inv allowed s)
    (hstep : Locks.step program perform s l = some s') : Inv allowed s' := by
  cases l with
  | start id op =>
    simp only [Locks.step] at hstep
    split at hstep
    · cases hstep
    · rename_i hfree
      cases hstep
      refine h.move rfl (fun k id' => ?_) List.nodup_nil .nil (hprogram op)
      by_cases hid : id' = id
      · rw [if_pos hid, hid]
        refine iff_of_false (fun hk => ?_) List.not_mem_nil
        obtain ⟨t, ht, -⟩ := (h.holder_iff k id).mp hk
        rw [hfree] at ht
        cases ht
      · rw [if_neg hid]
        rfl
  | run id =>
    obtain ⟨t, ht, hrun⟩ := Option.bind_eq_some_iff.mp hstep
    exact h.runThread ht hrun

/-- The locks of a waiting thread and the one it waits for are in accordance with the discipline. -/
theorem Inv.waits (h : Inv allowed s) (hwaits : Waits s id k) :
    ∃ held, Built allowed held ∧ allowed held k ∧ ∀ k', Holds s id k' ↔ k' ∈ held := by
  obtain ⟨t, rest, ht, hrest⟩ := hwaits
  have hfollows := h.follows id t ht
  rw [hrest, follows_acquire] at hfollows
  refine ⟨t.held, h.built id t ht, hfollows.1, fun k' => ?_⟩
  rw [Holds, h.holder_iff, ht]
  simp

/-! ## Threads beside each other -/

/-- What the next instruction does to the thread that executes it. -/
inductive Moves : Thread K W → Thread K W → Prop
  | acquire {k : K} {held : List K} {rest : List (Instr K W)} :
      Moves ⟨held, .acquire k :: rest⟩ ⟨k :: held, rest⟩
  | release {k : K} {held : List K} {rest : List (Instr K W)} :
      Moves ⟨k :: held, .release k :: rest⟩ ⟨held, rest⟩
  | work {w : W} {held : List K} {rest : List (Instr K W)} :
      Moves ⟨held, .work w :: rest⟩ ⟨held, rest⟩

/-- A thread after a step has just begun, has moved, or is as it was. -/
theorem thread_cases [DecidableEq K] {program : O → List (Instr K W)} {l : Label O}
    (hstep : step program perform s l = some s') {t' : Thread K W}
    (ht' : s'.threads id = some t') :
    (∃ op, l = .start id op ∧ t' = ⟨[], program op⟩) ∨
      ∃ t, s.threads id = some t ∧ (t' = t ∨ Moves t t') := by
  cases l with
  | start id' op =>
    simp only [step] at hstep
    split at hstep
    · cases hstep
    · cases hstep
      rcases of_update_eq_some ht' with ⟨rfl, rfl⟩ | ⟨-, ht'⟩
      · exact .inl ⟨op, rfl, rfl⟩
      · exact .inr ⟨t', ht', .inl rfl⟩
  | run id' =>
    obtain ⟨⟨held, rest⟩, ht, hrun⟩ := Option.bind_eq_some_iff.mp hstep
    -- the thread that runs has moved, and the others are as they were
    have hmoved : ∀ u, Moves ⟨held, rest⟩ u →
        Function.update s.threads id' (some u) id = some t' →
        ∃ t, s.threads id = some t ∧ (t' = t ∨ Moves t t') := by
      intro u hmoves hu
      rcases of_update_eq_some hu with ⟨rfl, rfl⟩ | ⟨-, ht'⟩
      · exact ⟨_, ht, .inr hmoves⟩
      · exact ⟨t', ht', .inl rfl⟩
    unfold runThread at hrun
    split at hrun
    · cases hrun
    · rename_i k rest' hrest
      obtain ⟨-, heq⟩ := Option.ite_none_right_eq_some.mp hrun
      cases heq
      cases hrest
      exact .inr (hmoved _ .acquire ht')
    · rename_i k rest' hrest
      split at hrun
      · cases hrun
      · rename_i k' held' hheld
        obtain ⟨rfl, heq⟩ := Option.ite_none_right_eq_some.mp hrun
        cases heq
        cases hrest
        cases hheld
        exact .inr (hmoved _ .release ht')
    · rename_i w rest' hrest
      cases hrun
      cases hrest
      exact .inr (hmoved _ .work ht')

/-- The relation holds between any two of the threads. -/
def Beside (R : Thread K W → Thread K W → Prop) (s : State K W D) : Prop :=
  ∀ ⦃id id' t t'⦄, id ≠ id' → s.threads id = some t → s.threads id' = some t' → R t t'

/-- **What moves keep between two threads holds between any two**, if it holds between a thread
that begins and those that are there. -/
theorem Beside.step [DecidableEq K] {program : O → List (Instr K W)} {l : Label O}
    {R : Thread K W → Thread K W → Prop} (hsymm : ∀ t u, R t u → R u t)
    (hmoves : ∀ t t' u, Moves t t' → R t u → R t' u)
    (hstart : ∀ id op, l = .start id op → ∀ id' t, s.threads id' = some t →
      R ⟨[], program op⟩ t)
    (h : Beside R s) (hstep : Locks.step program perform s l = some s') : Beside R s' := by
  have hmove : ∀ t t' u, t' = t ∨ Moves t t' → R t u → R t' u := by
    rintro t t' u (rfl | hmove) hR
    · exact hR
    · exact hmoves t t' u hmove hR
  intro id id' t t' hne ht ht'
  rcases thread_cases hstep ht with ⟨op, hl, rfl⟩ | ⟨u, hu, hmoved⟩
  · rcases thread_cases hstep ht' with ⟨op', hl', -⟩ | ⟨u', hu', hmoved'⟩
    · rw [hl, Label.start.injEq] at hl'
      exact absurd hl'.1 hne
    · exact hsymm _ _ (hmove u' t' _ hmoved' (hsymm _ _ (hstart id op hl id' u' hu')))
  · rcases thread_cases hstep ht' with ⟨op', hl', rfl⟩ | ⟨u', hu', hmoved'⟩
    · exact hmove u t _ hmoved (hsymm _ _ (hstart id' op' hl' id u hu))
    · exact hmove u t _ hmoved (hsymm _ _ (hmove u' t' u hmoved' (hsymm _ _ (h hne hu hu'))))

/-- What every piece of work keeps of the data is kept by every step. -/
theorem data_step [DecidableEq K] {program : O → List (Instr K W)} {I : D → Prop}
    (hwork : ∀ d w, I d → I (perform d w)) {label : Label O} (h : I s.data)
    (hstep : step program perform s label = some s') : I s'.data := by
  cases label with
  | start id op =>
    simp only [step] at hstep
    split at hstep
    · cases hstep
    · cases hstep
      exact h
  | run id =>
    obtain ⟨t, -, hrun⟩ := Option.bind_eq_some_iff.mp hstep
    unfold runThread at hrun
    split at hrun
    · cases hrun
    · obtain ⟨-, heq⟩ := Option.ite_none_right_eq_some.mp hrun
      cases heq
      exact h
    · split at hrun
      · cases hrun
      · obtain ⟨-, heq⟩ := Option.ite_none_right_eq_some.mp hrun
        cases heq
        exact h
    · cases hrun
      exact hwork _ _ h

end RustMq.Lib.Locks
