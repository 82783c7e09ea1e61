import RustMq.Lib.Locks
import RustMq.Lib.SortedMap

/-!
# The read cache and its locks

`LruCache` (`src/storage/cache.rs`) is sixteen shards, each with a map of entries, a queue of keys
in the order of their use and a size, under three locks of their own. Every call takes the lock of
the entries first, except that `put` makes room before it stores, and `evict_if_needed` takes the
lock of the size first. So a `put` that evicts and any call that stores or removes can each have
what the other one waits for, and that is the only way to a deadlock (`crossing_of_deadlocked`).
Calls that begin only where they cannot come to that never deadlock
(`no_deadlock_of_startsApart`).
-/

namespace RustMq.Store.LruCache

open Lib Lib.Locks List

/-! ## The shards -/

/-- `LruCacheShard` without the locks; of an entry only the data is ever read. -/
structure LruCacheShard where
  entries : SMap String (List UInt8)
  order : List String
  currentSize : Nat
  maxSizeBytes : Nat

namespace LruCacheShard

def new (maxSizeBytes : Nat) : LruCacheShard := ⟨.empty, [], 0, maxSizeBytes⟩

/-- The loop of `evict_if_needed` over the queue. -/
def evictLoop (newEntrySize maxSizeBytes : Nat) :
    List String → SMap String (List UInt8) → Nat → LruCacheShard
  | [], entries, currentSize => ⟨entries, [], currentSize, maxSizeBytes⟩
  | key :: order, entries, currentSize =>
    if maxSizeBytes < currentSize + newEntrySize then
      match entries.get? key with
      | some data =>
        evictLoop newEntrySize maxSizeBytes order (entries.erase key) (currentSize - data.length)
      | none => evictLoop newEntrySize maxSizeBytes order entries currentSize
    else ⟨entries, key :: order, currentSize, maxSizeBytes⟩

def evictIfNeeded (shard : LruCacheShard) (newEntrySize : Nat) : LruCacheShard :=
  evictLoop newEntrySize shard.maxSizeBytes shard.order shard.entries shard.currentSize

/-- A hit moves the key to the end of the queue. -/
def get (shard : LruCacheShard) (key : String) : LruCacheShard × Option (List UInt8) :=
  match shard.entries.get? key with
  | some data => ({ shard with order := shard.order.erase key ++ [key] }, some data)
  | none => (shard, none)

def put (shard : LruCacheShard) (key : String) (value : List UInt8) : LruCacheShard :=
  let old := shard.entries.get? key
  { shard with
    entries := shard.entries.insert key value
    order := if old.isSome then shard.order else shard.order ++ [key]
    currentSize := shard.currentSize - (old.map List.length).getD 0 + value.length }

/-- The key stays in the queue. -/
def remove (shard : LruCacheShard) (key : String) : LruCacheShard :=
  match shard.entries.get? key with
  | some data =>
    { shard with
      entries := shard.entries.erase key
      currentSize := shard.currentSize - data.length }
  | none => shard

def clear (shard : LruCacheShard) : LruCacheShard :=
  { shard with entries := .empty, order := [], currentSize := 0 }

end LruCacheShard

def shardCount : Nat := 16

def new (maxSizeBytes : Nat) (_ : Nat) : LruCacheShard := .new (maxSizeBytes / shardCount)

/-! ## The operations -/

inductive LockKind where
  | entries
  | order
  | currentSize
  deriving DecidableEq

structure Lock where
  shard : Nat
  kind : LockKind
  deriving DecidableEq

inductive Work where
  | get (key : String)
  | evict (newEntrySize : Nat)
  | put (key : String) (value : List UInt8)
  | remove (key : String)
  | clear
  deriving DecidableEq

def Work.apply (shard : LruCacheShard) : Work → LruCacheShard
  | .get key => (shard.get key).1
  | .evict newEntrySize => shard.evictIfNeeded newEntrySize
  | .put key value => shard.put key value
  | .remove key => shard.remove key
  | .clear => shard.clear

def perform (shards : Nat → LruCacheShard) (w : Nat × Work) : Nat → LruCacheShard :=
  Function.update shards w.1 (w.2.apply (shards w.1))

inductive Op where
  | get (key : String)
  | put (key : String) (value : List UInt8)
  | remove (key : String)
  | clear
  deriving DecidableEq

/-- The locks are taken in the given order, the work is done, and the guards are dropped in
reverse. -/
def critical (shard : Nat) (kinds : List LockKind) (w : Work) : List (Instr Lock (Nat × Work)) :=
  kinds.map (fun kind => .acquire ⟨shard, kind⟩) ++ .work (shard, w) ::
    kinds.reverse.map fun kind => .release ⟨shard, kind⟩

def getShard (hash : String → Nat) (key : String) : Nat := hash key % shardCount

def program (hash : String → Nat) : Op → List (Instr Lock (Nat × Work))
  | .get key => critical (getShard hash key) [.entries, .order] (.get key)
  | .put key value =>
    critical (getShard hash key) [.currentSize, .entries, .order] (.evict value.length) ++
      critical (getShard hash key) [.entries, .order, .currentSize] (.put key value)
  | .remove key => critical (getShard hash key) [.entries, .currentSize] (.remove key)
  | .clear => (List.range shardCount).flatMap fun shard =>
      critical shard [.entries, .currentSize, .order] .clear

abbrev Calls := Locks.State Lock (Nat × Work) (Nat → LruCacheShard)

def step (hash : String → Nat) : Calls → Locks.Label Op → Option Calls :=
  Locks.step (program hash) perform

def start (maxSizeBytes : Nat) : Calls := .init (new maxSizeBytes)

/-! ## What is acquired while what is held -/

/-- The acquisitions of the code, all within one shard. -/
inductive Acquires : List Lock → Lock → Prop
  | entries (shard : Nat) : Acquires [] ⟨shard, .entries⟩
  | size (shard : Nat) : Acquires [] ⟨shard, .currentSize⟩
  /-- In `evict_if_needed`. -/
  | entriesAfterSize (shard : Nat) : Acquires [⟨shard, .currentSize⟩] ⟨shard, .entries⟩
  | order {shard : Nat} {held : List Lock} (h : ⟨shard, .entries⟩ ∈ held)
      (hsame : ∀ lock ∈ held, lock.shard = shard) : Acquires held ⟨shard, .order⟩
  | sizeAfterEntries {shard : Nat} {held : List Lock} (h : ⟨shard, .entries⟩ ∈ held)
      (hsame : ∀ lock ∈ held, lock.shard = shard) : Acquires held ⟨shard, .currentSize⟩

theorem follows_program (hash : String → Nat) (op : Op) :
    Follows Acquires [] (program hash op) := by
  have hentries : ∀ (shard : Nat) (held : List Lock), ⟨shard, .entries⟩ ∈ held →
      (∀ lock ∈ held, lock.shard = shard) →
      Acquires held ⟨shard, .order⟩ ∧ Acquires held ⟨shard, .currentSize⟩ :=
    fun shard held h hsame => ⟨.order h hsame, .sizeAfterEntries h hsame⟩
  cases op with
  | get key =>
    exact ⟨.entries _, (hentries _ _ (by simp) (by simp)).1, rfl, rfl, rfl⟩
  | put key value =>
    refine Follows.append ?_ ?_
    · exact ⟨.size _, .entriesAfterSize _, (hentries _ _ (by simp) (by simp)).1, rfl, rfl, rfl, rfl⟩
    · exact ⟨.entries _, (hentries _ _ (by simp) (by simp)).1,
        (hentries _ _ (by simp) (by simp)).2, rfl, rfl, rfl, rfl⟩
  | remove key =>
    exact ⟨.entries _, (hentries _ _ (by simp) (by simp)).2, rfl, rfl, rfl⟩
  | clear =>
    refine Follows.flatMap (fun shard => ?_) _
    exact ⟨.entries _, (hentries _ _ (by simp) (by simp)).2,
      (hentries _ _ (by simp) (by simp)).1, rfl, rfl, rfl, rfl⟩

theorem built_order {held : List Lock} (h : Built Acquires held) {shard : Nat}
    (hmem : (⟨shard, .order⟩ : Lock) ∈ held) : (⟨shard, .entries⟩ : Lock) ∈ held := by
  induction h with
  | nil => cases hmem
  | @cons held k _ hk ih =>
    rcases mem_cons.mp hmem with rfl | hmem
    · cases hk with
      | order h _ => exact mem_cons_of_mem _ h
    · exact mem_cons_of_mem _ (ih hmem)

/-! ## Deadlocks -/

/-- One call has the size of the shard and waits for its entries, as `put` does when it evicts;
the other has the entries and waits for the size. -/
structure Crossing (s : Calls) (shard evicting other : Nat) : Prop where
  hasSize : Holds s evicting ⟨shard, .currentSize⟩
  waitsEntries : Waits s evicting ⟨shard, .entries⟩
  hasEntries : Holds s other ⟨shard, .entries⟩
  waitsSize : Waits s other ⟨shard, .currentSize⟩
  ne : evicting ≠ other

theorem Crossing.deadlocked {s : Calls} {shard evicting other : Nat}
    (h : Crossing s shard evicting other) : Deadlocked s {evicting, other} := by
  refine ⟨⟨evicting, .inl rfl⟩, ?_⟩
  rintro id (rfl | rfl)
  · exact ⟨_, h.waitsEntries, other, .inr rfl, h.ne.symm, h.hasEntries⟩
  · exact ⟨_, h.waitsSize, evicting, .inl rfl, h.ne, h.hasSize⟩

theorem waits_in_deadlock {s : Calls} (hinv : Inv Acquires s) {ids : Set Nat}
    (hdead : Deadlocked s ids) {id : Nat} (hid : id ∈ ids) {lock : Lock} (hlock : Holds s id lock) :
    (Waits s id ⟨lock.shard, .entries⟩ ∧ lock.kind = .currentSize ∧
      ¬ Holds s id ⟨lock.shard, .entries⟩) ∨
    (Waits s id ⟨lock.shard, .currentSize⟩ ∧ Holds s id ⟨lock.shard, .entries⟩) := by
  obtain ⟨k, hwaits, id', hid', hne, hholds⟩ := hdead.2 id hid
  obtain ⟨held, hbuilt, hacquires, hheld⟩ := hinv.waits hwaits
  have hmem := (hheld lock).mp hlock
  cases hacquires with
  | entries | size => cases hmem
  | entriesAfterSize shard =>
    rw [mem_singleton] at hmem
    subst hmem
    refine .inl ⟨hwaits, rfl, fun h => ?_⟩
    have := (hheld _).mp h
    simp at this
  | @order shard _ h hsame =>
    -- the holder of the queue has the entries, which this call has
    obtain ⟨_, hwaits', -⟩ := hdead.2 id' hid'
    obtain ⟨held', hbuilt', -, hheld'⟩ := hinv.waits hwaits'
    have hentries := (hheld' _).mpr (built_order hbuilt' ((hheld' _).mp hholds))
    have hmine := (hheld _).mpr h
    rw [Holds] at hentries hmine
    rw [hentries, Option.some.injEq] at hmine
    exact absurd hmine hne
  | @sizeAfterEntries shard _ h hsame =>
    have hshard := hsame lock hmem
    subst hshard
    exact .inr ⟨hwaits, (hheld _).mpr h⟩

theorem crossing_of_deadlocked {s : Calls} (hinv : Inv Acquires s) {ids : Set Nat}
    (hdead : Deadlocked s ids) : ∃ shard evicting other, Crossing s shard evicting other := by
  obtain ⟨first, hfirst⟩ := hdead.1
  obtain ⟨⟨shard, kind⟩, -, a, ha, -, hlock⟩ := hdead.2 first hfirst
  rcases waits_in_deadlock hinv hdead ha hlock with ⟨hwaits, rfl, -⟩ | ⟨hwaits, hentries⟩
  · -- `a` evicts, and whoever has the entries waits for the size
    obtain ⟨b, hb, hne, hholds⟩ := hdead.blocked ha hwaits
    rcases waits_in_deadlock hinv hdead hb hholds with ⟨-, hkind, -⟩ | ⟨hwaits', -⟩
    · cases hkind
    · exact ⟨shard, a, b, hlock, hwaits, hholds, hwaits', hne.symm⟩
  · -- `a` has the entries, so whoever has the size still waits for them
    obtain ⟨b, hb, hne, hholds⟩ := hdead.blocked ha hwaits
    rcases waits_in_deadlock hinv hdead hb hholds with ⟨hwaits', -, -⟩ | ⟨-, hentries'⟩
    · exact ⟨shard, b, a, hholds, hwaits', hentries, hwaits, hne⟩
    · exact absurd (holds_unique hentries' hentries) hne

/-! ## Calls that keep apart -/

abbrev CallThread := Locks.Thread Lock (Nat × Work)

/-- The call has the size of the shard, or has to take it yet. -/
def UsesSize (t : CallThread) (shard : Nat) : Prop :=
  ⟨shard, .currentSize⟩ ∈ t.held ∨ .acquire ⟨shard, .currentSize⟩ ∈ t.rest

/-- The call has to take the entries of the shard with its size in hand: a `put` that has not made
room yet. -/
def MakesRoom (t : CallThread) (shard : Nat) : Prop :=
  (⟨shard, .currentSize⟩ ∈ t.held ∧ .acquire ⟨shard, .entries⟩ ∈ t.rest) ∨
    [.acquire ⟨shard, .currentSize⟩, .acquire ⟨shard, .entries⟩] <+ t.rest

/-- On no shard does one of the calls make room while the other uses the size. -/
def Apart (t u : CallThread) : Prop :=
  ∀ shard, ¬ (MakesRoom t shard ∧ UsesSize u shard) ∧ ¬ (MakesRoom u shard ∧ UsesSize t shard)

theorem Apart.symm {t u : CallThread} (h : Apart t u) : Apart u t :=
  fun shard => ⟨(h shard).2, (h shard).1⟩

theorem usesSize_of_moves {t t' : CallThread} {shard : Nat} (hmoves : Moves t t')
    (h : UsesSize t' shard) : UsesSize t shard := by
  cases hmoves with
  | acquire =>
    rcases h with h | h
    · rcases mem_cons.mp h with rfl | h
      · exact .inr mem_cons_self
      · exact .inl h
    · exact .inr (mem_cons_of_mem _ h)
  | release => exact h.imp (mem_cons_of_mem _) (mem_cons_of_mem _)
  | work => exact h.imp id (mem_cons_of_mem _)

theorem makesRoom_of_moves {t t' : CallThread} {shard : Nat} (hmoves : Moves t t')
    (h : MakesRoom t' shard) : MakesRoom t shard := by
  cases hmoves with
  | acquire =>
    rcases h with ⟨hsize, hentries⟩ | h
    · rcases mem_cons.mp hsize with rfl | hsize
      · exact .inr ((singleton_sublist.mpr hentries).cons_cons _)
      · exact .inl ⟨hsize, mem_cons_of_mem _ hentries⟩
    · exact .inr (h.cons _)
  | release =>
    exact h.imp (fun h => ⟨mem_cons_of_mem _ h.1, mem_cons_of_mem _ h.2⟩) (fun h => h.cons _)
  | work => exact h.imp (fun h => ⟨h.1, mem_cons_of_mem _ h.2⟩) (fun h => h.cons _)

theorem Apart.moves {t t' u : CallThread} (h : Apart t u) (hmoves : Moves t t') : Apart t' u :=
  fun shard => ⟨fun hboth => (h shard).1 ⟨makesRoom_of_moves hmoves hboth.1, hboth.2⟩,
    fun hboth => (h shard).2 ⟨hboth.1, usesSize_of_moves hmoves hboth.2⟩⟩

/-- A call begins only beside calls it keeps apart from. -/
def StartsApart (hash : String → Nat) (s : Calls) : Locks.Label Op → Prop
  | .start _ op => ∀ id t, s.threads id = some t → Apart ⟨[], program hash op⟩ t
  | .run _ => True

theorem Crossing.not_apart {s : Calls} {shard evicting other : Nat} (hinv : Inv Acquires s)
    (h : Crossing s shard evicting other) : ¬ Beside Apart s := by
  intro hbeside
  obtain ⟨t, rest, ht, hrest⟩ := h.waitsEntries
  obtain ⟨u, rest', hu, hrest'⟩ := h.waitsSize
  obtain ⟨t', ht', hsize⟩ := (hinv.holder_iff _ _).mp h.hasSize
  rw [ht, Option.some.injEq] at ht'
  subst ht'
  refine (hbeside h.ne ht hu shard).1 ⟨.inl ⟨hsize, ?_⟩, .inr ?_⟩
  · rw [hrest]
    exact mem_cons_self
  · rw [hrest']
    exact mem_cons_self

/-- **No deadlock among calls that keep apart**: in every state of a run in which no `put` begins
beside a call that uses the size of its shard, and no such call beside a `put` that makes room. -/
theorem no_deadlock_of_startsApart (hash : String → Nat) (maxSizeBytes : Nat)
    {labels : List (Locks.Label Op)} {s : Calls}
    (hapart : Along (step hash) (StartsApart hash) (start maxSizeBytes) labels)
    (hexec : exec (step hash) (start maxSizeBytes) labels = some s) :
    ¬ ∃ ids, Deadlocked s ids := by
  rintro ⟨ids, hdead⟩
  have hinv : Inv Acquires s :=
    exec_invariant_of_step (fun _ _ _ h hs => h.step (follows_program hash) hs)
      (Inv.init (new maxSizeBytes)) hexec
  have hbeside : Beside Apart s := by
    refine exec_invariant (I := Beside Apart) (fun s l s' h hl hstep => ?_)
      (fun _ _ _ _ _ ht => by cases ht) hapart hexec
    refine h.step (fun _ _ h => h.symm) (fun _ _ _ hmoves h => h.moves hmoves) (fun id op heq id' t ht => ?_) hstep
    subst heq
    exact hl id' t ht
  obtain ⟨shard, evicting, other, hcross⟩ := crossing_of_deadlocked hinv hdead
  exact hcross.not_apart hinv hbeside

theorem apart_idle (t : CallThread) : Apart t ⟨[], []⟩ := by
  intro shard
  simp [MakesRoom, UsesSize]

/-- A `get` never uses the size. -/
theorem apart_get (hash : String → Nat) (key : String) (t : CallThread) :
    Apart ⟨[], program hash (.get key)⟩ t := by
  intro shard
  have huses : ¬ UsesSize ⟨[], program hash (.get key)⟩ shard := by
    simp [UsesSize, program, critical]
  refine ⟨fun h => huses ?_, fun h => huses h.2⟩
  exact h.1.imp (fun h => h.1) fun h => h.subset mem_cons_self

def putReturned : List (Locks.Label Op) :=
  .start 0 (.put "a" [1]) :: List.replicate 14 (.run 0)

/-- A `put` has returned; another one has the size and waits for the entries, which a `get` has. -/
def putBesideGet : List (Locks.Label Op) :=
  putReturned ++ [.start 1 (.get "a"), .run 1, .start 2 (.put "b" [2]), .run 2]

theorem startsApart_putBesideGet :
    Along (step fun _ => 0) (StartsApart fun _ => 0) (start 16) putBesideGet := by
  have hreturned : ∃ s, exec (step fun _ => 0) (start 16) putReturned = some s ∧
      s.threads 0 = some ⟨[], []⟩ ∧ (∀ id, s.threads (id + 1) = none) :=
    ⟨_, rfl, rfl, fun _ => rfl⟩
  obtain ⟨s, hs, hzero, hnone⟩ := hreturned
  refine (along_append hs).mpr ⟨⟨fun id t ht => (by cases ht), fun s' _ =>
    along_of_forall_mem (fun l hl _ => ?_) s'⟩, ?_⟩
  · rw [eq_of_mem_replicate hl]
    trivial
  · refine ⟨fun id t _ => apart_get _ _ t, fun s₁ hs₁ => ⟨trivial, fun s₂ hs₂ =>
      ⟨fun id t ht => ?_, fun _ _ => ⟨trivial, fun _ _ => trivial⟩⟩⟩⟩
    rcases thread_cases hs₂ ht with ⟨op, hop, -⟩ | ⟨u, hu, hmoved⟩
    · cases hop
    · have hbeside : Apart ⟨[], program (fun _ => 0) (.put "b" [2])⟩ u := by
        rcases thread_cases hs₁ hu with ⟨op, hop, rfl⟩ | ⟨v, hv, hmoved'⟩
        · cases hop
          exact (apart_get _ _ _).symm
        · have hidle : v = ⟨[], []⟩ := by
            cases id with
            | zero => exact Option.some.inj (hv.symm.trans hzero)
            | succ id => rw [hnone] at hv; cases hv
          subst hidle
          rcases hmoved' with rfl | hmoved'
          · exact apart_idle _
          · cases hmoved'
      rcases hmoved with rfl | hmoved
      · exact hbeside
      · exact (hbeside.symm.moves hmoved).symm

theorem putBesideGet_no_deadlock :
    ∃ s, exec (step fun _ => 0) (start 16) putBesideGet = some s ∧
      Waits s 2 ⟨0, .entries⟩ ∧ Holds s 1 ⟨0, .entries⟩ ∧ ¬ ∃ ids, Deadlocked s ids := by
  have hrun : ∃ s, exec (step fun _ => 0) (start 16) putBesideGet = some s ∧
      Waits s 2 ⟨0, .entries⟩ ∧ Holds s 1 ⟨0, .entries⟩ := ⟨_, rfl, ⟨_, _, rfl, rfl⟩, rfl⟩
  obtain ⟨s, hs, hwaits, hholds⟩ := hrun
  exact ⟨s, hs, hwaits, hholds,
    no_deadlock_of_startsApart (fun _ => 0) 16 startsApart_putBesideGet hs⟩

/-- Two `put`s into one shard. The first has made room and takes the entries to store its value;
the second takes the size to make room. -/
def twoPuts : List (Locks.Label Op) :=
  .start 0 (.put "a" [1]) :: .start 1 (.put "b" [2]) :: List.replicate 9 (.run 0) ++ [.run 1]

theorem twoPuts_deadlock :
    ∃ s, exec (step fun _ => 0) (start 1024) twoPuts = some s ∧ Deadlocked s {1, 0} := by
  refine ⟨_, rfl, @Crossing.deadlocked _ 0 1 0 ⟨rfl, ?_, rfl, ?_, Nat.one_ne_zero⟩⟩
  · exact ⟨_, _, rfl, rfl⟩
  · exact ⟨_, _, rfl, rfl⟩

/-! ## What the shards hold -/

def stored (entries : SMap String (List UInt8)) : Nat :=
  (entries.entries.map fun e => e.2.length).sum

variable {entries : SMap String (List UInt8)} {key : String} {data : List UInt8}

theorem stored_erase (h : entries.get? key = some data) :
    stored (entries.erase key) + data.length = stored entries := by
  have hperm := (filter_append_perm (fun e => decide (e.1 = key)) entries.entries).map
    fun e => e.2.length
  have hsum := hperm.sum_eq
  rw [SMap.filter_entries_of_get? h, map_append, sum_append] at hsum
  have hrest : (entries.erase key).entries =
      entries.entries.filter fun e => !decide (e.1 = key) := by
    simp [SMap.erase, SMap.filterKeys]
  rw [stored, hrest, stored, ← hsum, Nat.add_comm]
  rfl

theorem stored_insert (entries : SMap String (List UInt8)) (key : String) (data : List UInt8) :
    stored (entries.insert key data) = stored (entries.erase key) + data.length := by
  have hsame : (entries.insert key data).erase key = entries.erase key := by
    refine SMap.ext_get? fun k => ?_
    rw [SMap.get?_erase, SMap.get?_erase, SMap.get?_insert]
    split
    · rfl
    · rfl
  rw [← stored_erase (SMap.get?_insert_self entries key data), hsame]

theorem erase_of_get?_eq_none (h : entries.get? key = none) : entries.erase key = entries := by
  refine SMap.ext_get? fun k => ?_
  rw [SMap.get?_erase]
  split
  · rename_i hk
    rw [hk, h]
  · rfl

/-- The size of a shard is that of its entries, and each of them can be evicted. -/
structure Sized (shard : LruCacheShard) : Prop where
  size : shard.currentSize = stored shard.entries
  queued : ∀ key data, shard.entries.get? key = some data → key ∈ shard.order

variable {shard : LruCacheShard}

theorem Sized.evictIfNeeded (h : Sized shard) (newEntrySize : Nat) :
    Sized (shard.evictIfNeeded newEntrySize) ∧ (newEntrySize ≤ shard.maxSizeBytes →
      (shard.evictIfNeeded newEntrySize).currentSize + newEntrySize ≤ shard.maxSizeBytes) := by
  obtain ⟨entries, order, currentSize, limit⟩ := shard
  obtain ⟨hsize, hqueued⟩ := h
  dsimp only [LruCacheShard.evictIfNeeded] at *
  induction order generalizing entries currentSize with
  | nil =>
    have hempty : entries.entries = [] := eq_nil_iff_forall_not_mem.mpr fun e he =>
      not_mem_nil (hqueued e.1 e.2 (SMap.get?_eq_some_iff.mpr he))
    have hzero : currentSize = 0 := by rw [hsize, stored, hempty]; rfl
    exact ⟨⟨hsize, hqueued⟩, fun hle => by rw [LruCacheShard.evictLoop, hzero]; simpa using hle⟩
  | cons first order ih =>
    rw [LruCacheShard.evictLoop]
    split
    · cases hget : entries.get? first with
      | none =>
        refine ih _ _ hsize fun k d hk => ?_
        refine (mem_cons.mp (hqueued k d hk)).resolve_left fun heq => ?_
        rw [heq, hget] at hk
        cases hk
      | some data =>
        have hsum := stored_erase hget
        refine ih _ _ (by omega) fun k d hk => ?_
        rw [SMap.get?_erase] at hk
        split at hk
        · cases hk
        · exact (mem_cons.mp (hqueued k d hk)).resolve_left ‹_›
    · exact ⟨⟨hsize, hqueued⟩, fun _ => by dsimp only; omega⟩

theorem Sized.apply (h : Sized shard) (w : Work) : Sized (w.apply shard) := by
  obtain ⟨hsize, hqueued⟩ := h
  cases w with
  | get key =>
    rw [Work.apply, LruCacheShard.get]
    split
    · refine ⟨hsize, fun k d hk => ?_⟩
      by_cases heq : k = key
      · exact mem_append_right _ (mem_singleton.mpr heq)
      · exact mem_append_left _ ((mem_erase_of_ne heq).mpr (hqueued k d hk))
    · exact ⟨hsize, hqueued⟩
  | evict newEntrySize => exact (Sized.evictIfNeeded ⟨hsize, hqueued⟩ newEntrySize).1
  | put key value =>
    cases hget : shard.entries.get? key with
    | none =>
      simp only [Work.apply, LruCacheShard.put, hget]
      refine ⟨?_, fun k d hk => ?_⟩
      · rw [stored_insert, erase_of_get?_eq_none hget, ← hsize]
        rfl
      · rcases SMap.of_get?_insert hk with ⟨rfl, -⟩ | ⟨-, hk⟩
        · exact mem_append_right _ (mem_singleton_self _)
        · exact mem_append_left _ (hqueued k d hk)
    | some data =>
      have hsum := stored_erase hget
      simp only [Work.apply, LruCacheShard.put, hget]
      refine ⟨?_, fun k d hk => ?_⟩
      · rw [stored_insert, Option.map_some, Option.getD_some]
        dsimp only
        omega
      · rcases SMap.of_get?_insert hk with ⟨rfl, -⟩ | ⟨-, hk⟩
        · exact hqueued _ _ hget
        · exact hqueued k d hk
  | remove key =>
    rw [Work.apply, LruCacheShard.remove]
    split
    · rename_i data hget
      have hsum := stored_erase hget
      exact ⟨by dsimp only; omega, fun k d hk => hqueued k d (SMap.of_get?_erase hk)⟩
    · exact ⟨hsize, hqueued⟩
  | clear => exact ⟨rfl, fun _ _ hk => by cases hk⟩

/-- **The size of a shard is that of its entries**, whatever calls run at the same time, so no
subtraction from it wraps around; every entry is in the queue; and a `put` between whose halves no
other call comes leaves the shard within its limit. -/
theorem shards_sized (hash : String → Nat) (maxSizeBytes : Nat) {labels : List (Locks.Label Op)}
    {s : Calls} (hexec : exec (step hash) (start maxSizeBytes) labels = some s) (i : Nat) :
    let shard := s.data i
    shard.currentSize = stored shard.entries ∧
    (∀ key data, shard.entries.get? key = some data → key ∈ shard.order) ∧
    ∀ key value, value.length ≤ shard.maxSizeBytes →
      ((shard.evictIfNeeded value.length).put key value).currentSize ≤ shard.maxSizeBytes := by
  have hsized : ∀ i, Sized (s.data i) := by
    refine exec_invariant_of_step (I := fun s : Calls => ∀ i, Sized (s.data i)) ?_
      (fun _ => ⟨rfl, fun _ _ hk => by cases hk⟩) hexec
    intro s label s' h hstep
    refine data_step (I := fun d => ∀ i, Sized (d i)) (fun d w hd => ?_) h hstep
    exact (Function.forall_update_iff d fun _ shard => Sized shard).mpr
      ⟨(hd _).apply _, fun i _ => hd i⟩
  refine ⟨(hsized i).size, (hsized i).queued, fun key value hle => ?_⟩
  have hroom := ((hsized i).evictIfNeeded value.length).2 hle
  rw [LruCacheShard.put]
  dsimp only
  omega

/-- A shard with room for one byte: the second `put` evicts the entry of the first. -/
def putsInTurn : List (Locks.Label Op) :=
  .start 0 (.put "a" [1]) :: List.replicate 14 (.run 0) ++
    .start 1 (.put "b" [2]) :: List.replicate 14 (.run 1)

theorem shards_sized_putsInTurn : ∃ s, exec (step fun _ => 0) (start 16) putsInTurn = some s ∧
    (s.data 0).entries.entries = [("b", [2])] ∧
    (s.data 0).currentSize = stored (s.data 0).entries ∧
    ((s.data 0).evictIfNeeded 1).currentSize + 1 ≤ 1 ∧
    (((s.data 0).evictIfNeeded 1).put "c" [3]).currentSize ≤ 1 := by
  have hrun : ∃ s, exec (step fun _ => 0) (start 16) putsInTurn = some s ∧
      (s.data 0).entries.entries = [("b", [2])] ∧ (s.data 0).maxSizeBytes = 1 ∧
      ((s.data 0).evictIfNeeded 1).currentSize + 1 ≤ 1 := ⟨_, rfl, rfl, rfl, by decide⟩
  obtain ⟨s, hs, hentries, hlimit, hroom⟩ := hrun
  obtain ⟨hsize, -, hput⟩ := shards_sized (fun _ => 0) 16 hs 0
  rw [hlimit] at hput
  exact ⟨s, hs, hentries, hsize, hroom, hput "c" [3] le_rfl⟩

end RustMq.Store.LruCache
