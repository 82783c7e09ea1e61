import RustMq.Lib.MapCodec
import RustMq.Controller.StateMachine

/-!
# The raft log store

`RustMqLogStorage` (`src/controller/openraft_storage.rs`). Entries are appended to a file of the
write-ahead log and kept in a cache, from which all reads are served; the log state lives in
memory only. `save_vote` and `save_committed` keep nothing, `truncate` and `purge` change the cache
and the log state but no file, and a restart rebuilds the cache from the files and starts with an
empty log state.

A line of a file is a JSON text. It is modelled by the record it serializes; what is checked when
it is read back is the checksum over the JSON of the entry, and `crc` stands for the composition
of the two. `BufWriter` holds lines back until it is flushed: `restart` says how many of them
reached the file.
-/

namespace RustMq.Controller

open Lib List SMap Option

/-! ## The store -/

structure LogState where
  lastPurgedLogId : Option LogId
  lastLogId : Option LogId
  deriving DecidableEq

def LogState.default : LogState := ⟨none, none⟩

structure Vote where
  leaderId : LeaderId
  committed : Bool
  deriving DecidableEq

structure LogEntryWithMeta where
  logId : LogId
  payload : Entry
  checksum : Nat
  timestamp : Nat
  deriving DecidableEq

structure RustMqStorageConfig where
  syncWrite : Bool
  cacheSize : Nat
  deriving DecidableEq

structure WalWriter where
  file : String
  buffer : List LogEntryWithMeta

structure RustMqLogStorage where
  logState : LogState
  walWriter : Option WalWriter
  entriesCache : SMap Nat Entry

abbrev WalDir := SMap String (List LogEntryWithMeta)

section Store

variable (crc : Entry → Nat)

/-- `load_entries_from_file`: a line whose checksum does not match is skipped. -/
def loadEntriesFromFile (lines : List LogEntryWithMeta) : List Entry :=
  lines.filterMap fun line => if crc line.payload = line.checksum then some line.payload else none

/-- `load_wal_entries`: the files in the order of their names, each entry into the cache under
its index. -/
def loadWalEntries (dir : WalDir) : SMap Nat Entry :=
  (dir.entries.flatMap fun file => loadEntriesFromFile crc file.2).foldl
    (fun cache entry => cache.insert entry.logId.index entry) .empty

def RustMqLogStorage.new (dir : WalDir) : RustMqLogStorage :=
  ⟨.default, none, loadWalEntries crc dir⟩

def WalDir.write (dir : WalDir) (file : String) (lines : List LogEntryWithMeta) : WalDir :=
  dir.insert file ((dir.get? file).getD [] ++ lines)

def logEntryWithMeta (now : Nat) (entry : Entry) : LogEntryWithMeta :=
  ⟨entry.logId, entry, crc entry, now⟩

def RustMqLogStorage.getWalWriter (s : RustMqLogStorage) (now : Nat) : WalWriter :=
  s.walWriter.getD ⟨"wal_" ++ toString now ++ ".log", []⟩

def writeToWal (cfg : RustMqStorageConfig) (now : Nat) (s : RustMqLogStorage) (dir : WalDir)
    (entries : List Entry) : RustMqLogStorage × WalDir :=
  let writer := s.getWalWriter now
  let buffer := writer.buffer ++ entries.map (logEntryWithMeta crc now)
  if cfg.syncWrite then
    ({ s with walWriter := some { writer with buffer := [] } }, dir.write writer.file buffer)
  else
    ({ s with walWriter := some { writer with buffer := buffer } }, dir.write writer.file [])

def appendEntries (cache : SMap Nat Entry) (lastLogId : Option LogId) :
    List Entry → SMap Nat Entry × Option LogId
  | [] => (cache, lastLogId)
  | e :: es => appendEntries (cache.insert e.logId.index e) (some e.logId) es

def manageCacheSize (cacheSize : Nat) (cache : SMap Nat Entry) : SMap Nat Entry :=
  if cacheSize < cache.entries.length then
    (cache.keys.take (cache.entries.length - cacheSize)).foldl SMap.erase cache
  else cache

structure Storage where
  store : RustMqLogStorage
  dir : WalDir

namespace Storage

def start : Storage := ⟨.new crc .empty, .empty⟩

def append (cfg : RustMqStorageConfig) (now : Nat) (s : Storage) (entries : List Entry) :
    Storage :=
  if entries = [] then s
  else
    let (store, dir) := writeToWal crc cfg now s.store s.dir entries
    let (cache, lastLogId) := appendEntries store.entriesCache store.logState.lastLogId entries
    ⟨{ store with
        entriesCache := manageCacheSize cfg.cacheSize cache
        logState := { store.logState with lastLogId := lastLogId } }, dir⟩

def lastCached (cache : SMap Nat Entry) : Option LogId :=
  cache.entries.getLast?.map fun e => e.2.logId

def truncate (s : Storage) (logId : LogId) : Storage :=
  let cache := s.store.entriesCache.filterKeys fun k => k < logId.index
  let lastLogId :=
    match s.store.logState.lastLogId with
    | some last => if logId.index ≤ last.index then lastCached cache else some last
    | none => none
  { s with store := { s.store with
      entriesCache := cache
      logState := { s.store.logState with lastLogId := lastLogId } } }

def purge (s : Storage) (logId : LogId) : Storage :=
  { s with store := { s.store with
      entriesCache := s.store.entriesCache.filterKeys fun k => logId.index < k
      logState := { s.store.logState with lastPurgedLogId := some logId } } }

/-- `save_vote` and `save_committed` log their argument and return. -/
def saveVote (s : Storage) (_ : Vote) : Storage := s

def saveCommitted (s : Storage) (_ : Option LogId) : Storage := s

def restart (s : Storage) (kept : Nat) : Storage :=
  let dir :=
    match s.store.walWriter with
    | some writer => s.dir.write writer.file (writer.buffer.take kept)
    | none => s.dir
  ⟨.new crc dir, dir⟩

/-! ## Reads -/

def getLogState (s : Storage) : LogState := s.store.logState

def readVote (_ : Storage) : Option Vote := none

def readCommitted (_ : Storage) : Option LogId := none

end Storage

end Store

inductive Bound where
  | included (index : Nat)
  | excluded (index : Nat)
  | unbounded
  deriving DecidableEq

/-- `start_bound`; `u64` arithmetic wraps in release builds. -/
def Bound.start : Bound → Nat
  | .included start => start
  | .excluded start => (start + 1) % 2 ^ 64
  | .unbounded => 0

def Bound.stop : Bound → Nat
  | .included stop => (stop + 1) % 2 ^ 64
  | .excluded stop => stop
  | .unbounded => 2 ^ 64 - 1

def Bound.admitsFrom : Bound → Nat → Bool
  | .included start, index => start ≤ index
  | .excluded start, index => start < index
  | .unbounded, _ => true

def Bound.admitsTo : Bound → Nat → Bool
  | .included stop, index => index ≤ stop
  | .excluded stop, index => index < stop
  | .unbounded, _ => true

/-- The loop of `try_get_log_entries`: it ends at the first index that is not in the cache. -/
def readRun (cache : SMap Nat Entry) : (index count : Nat) → List Entry
  | _, 0 => []
  | index, count + 1 =>
    match cache.get? index with
    | some entry => entry :: readRun cache (index + 1) count
    | none => []

def Storage.tryGetLogEntries (s : Storage) (lower upper : Bound) : List Entry :=
  readRun s.store.entriesCache lower.start (upper.stop - lower.start)

/-! ## The durable log -/

structure DurableLog where
  entries : SMap Nat Entry
  lastPurged : Option LogId
  vote : Option Vote
  committed : Option LogId

/-- The calls of a history, as far as they returned `Ok`, and the restarts between them. -/
inductive LogCall where
  | append (entries : List Entry) (now : Nat)
  | truncate (logId : LogId)
  | purge (logId : LogId)
  | saveVote (vote : Vote)
  | saveCommitted (committed : Option LogId)
  | restart (kept : Nat)

namespace DurableLog

def empty : DurableLog := ⟨.empty, none, none, none⟩

def call (d : DurableLog) : LogCall → DurableLog
  | .append entries _ =>
    { d with entries := entries.foldl (fun m e => m.insert e.logId.index e) d.entries }
  | .truncate logId => { d with entries := d.entries.filterKeys fun k => k < logId.index }
  | .purge logId =>
    { d with
      entries := d.entries.filterKeys fun k => logId.index < k
      lastPurged := some logId }
  | .saveVote vote => { d with vote := some vote }
  | .saveCommitted committed => { d with committed := committed }
  | .restart _ => d

def after (calls : List LogCall) : DurableLog := calls.foldl call empty

def getLogState (d : DurableLog) : LogState :=
  ⟨d.lastPurged, (Storage.lastCached d.entries).or d.lastPurged⟩

def inRange (lower upper : Bound) (index : Nat) : Bool :=
  lower.admitsFrom index && upper.admitsTo index

def read (d : DurableLog) (lower upper : Bound) : List Entry :=
  (d.entries.entries.filter fun e => inRange lower upper e.1).map Prod.snd

end DurableLog

/-! ## Runs -/

def Storage.step (crc : Entry → Nat) (cfg : RustMqStorageConfig) (s : Storage) :
    LogCall → Option Storage
  | .append entries now => some (s.append crc cfg now entries)
  | .truncate logId => some (s.truncate logId)
  | .purge logId => some (s.purge logId)
  | .saveVote vote => some (s.saveVote vote)
  | .saveCommitted committed => some (s.saveCommitted committed)
  | .restart kept => some (s.restart crc kept)

/-- The entries go on from the last log id, one index after another, below the greatest `u64`. -/
def Continues : Option LogId → List Entry → Prop
  | _, [] => True
  | last, e :: es =>
    (∀ l ∈ last, e.logId.index = l.index + 1) ∧ e.logId.index < 2 ^ 64 - 1 ∧
      Continues (some e.logId) es

instance decidableContinues : ∀ last es, Decidable (Continues last es)
  | _, [] => .isTrue trivial
  | _, e :: es =>
    have := decidableContinues (some e.logId) es
    inferInstanceAs (Decidable (_ ∧ _ ∧ _))

/-- The calls this store performs as a durable log does: no gap, no overflow of the cache, nothing
saved beside the entries, and no restart over a directory that was written to. -/
def Kept (cfg : RustMqStorageConfig) (s : Storage) : LogCall → Prop
  | .append entries _ =>
    Continues s.store.logState.lastLogId entries ∧
      s.store.entriesCache.entries.length + entries.length ≤ cfg.cacheSize
  | .truncate logId =>
    s.store.logState.lastPurgedLogId = none ∨ (∃ k ∈ s.store.entriesCache.keys, k < logId.index) ∨
      ∀ last ∈ s.store.logState.lastLogId, last.index < logId.index
  | .purge logId =>
    (∃ k ∈ s.store.entriesCache.keys, logId.index < k) ∨ s.store.logState.lastLogId = some logId
  | .saveVote _ => False
  | .saveCommitted committed => committed = none
  | .restart _ =>
    s.store.logState = .default ∧ s.dir.entries = [] ∧ s.store.walWriter.isNone

instance (cfg : RustMqStorageConfig) (s : Storage) (call) : Decidable (Kept cfg s call) := by
  unfold Kept
  split <;> infer_instance

/-! ## What the cache looks like -/

def Keyed (m : SMap Nat Entry) : Prop :=
  ∀ k e, m.get? k = some e → e.logId.index = k ∧ k < 2 ^ 64 - 1

def Contiguous (m : SMap Nat Entry) : Prop :=
  ∀ i j k, (m.get? i).isSome → (m.get? k).isSome → i ≤ j → j ≤ k → (m.get? j).isSome

open Storage (lastCached)

variable {m : SMap Nat Entry} {e : Entry} {purged : Option LogId} {k : Nat} {es : List Entry}
  {lower upper : Bound}

theorem getLast?_entries_iff : m.entries.getLast? = some (k, e) ↔
      m.get? k = some e ∧ ∀ i f, m.get? i = some f → i ≤ k := by
  constructor
  · intro h
    obtain ⟨ys, hys⟩ := getLast?_eq_some_iff.mp h
    refine ⟨get?_eq_some_iff.mpr (by rw [hys]; simp), fun i f hi => ?_⟩
    have hmem := get?_eq_some_iff.mp hi
    have hsorted := m.sorted
    rw [hys] at hmem hsorted
    rcases mem_append.mp hmem with hmem | hmem
    · exact ((pairwise_append.mp hsorted).2.2 _ hmem (k, e) (by simp)).le
    · exact (congrArg Prod.fst (mem_singleton.mp hmem)).le
  · rintro ⟨hk, hmax⟩
    have hfloor : m.floor? k = some (k, e) :=
      floor?_eq_some_iff.mpr ⟨hk, le_rfl, fun i f hi _ => hmax i f hi⟩
    rwa [SMap.floor?, filter_eq_self.mpr] at hfloor
    intro a ha
    simpa using hmax a.1 a.2 (get?_eq_some_iff.mpr ha)

theorem lastCached_of_max (hk : m.get? k = some e) (hmax : ∀ i f, m.get? i = some f → i ≤ k) :
    lastCached m = some e.logId := by
  rw [lastCached, getLast?_entries_iff.mpr ⟨hk, hmax⟩]
  rfl

theorem exists_last {i : Nat} (hi : (m.get? i).isSome) :
    ∃ k e, m.get? k = some e ∧ ∀ j f, m.get? j = some f → j ≤ k := by
  obtain ⟨f, hf⟩ := isSome_iff_exists.mp hi
  cases hlast : m.entries.getLast? with
  | none =>
    have hmem := get?_eq_some_iff.mp hf
    rw [getLast?_eq_none_iff.mp hlast] at hmem
    cases hmem
  | some last =>
    obtain ⟨k, e⟩ := last
    exact ⟨k, e, getLast?_entries_iff.mp hlast⟩

theorem get?_of_lastCached_none (h : lastCached m = none) (k : Nat) : m.get? k = none := by
  cases hk : m.get? k with
  | none => rfl
  | some e =>
    obtain ⟨i, f, hi, hmax⟩ := exists_last (m := m) (i := k) (by rw [hk]; rfl)
    rw [lastCached_of_max hi hmax] at h
    cases h

structure Next (m : SMap Nat Entry) (purged : Option LogId) (e : Entry) : Prop where
  next : ∀ l ∈ (lastCached m).or purged, e.logId.index = l.index + 1
  bounded : e.logId.index < 2 ^ 64 - 1

section

variable (h : Next m purged e) (hkeyed : Keyed m)
include h hkeyed

theorem Next.lt {f : Entry} (hk : m.get? k = some f) : k < e.logId.index := by
  obtain ⟨i, g, hi, hmax⟩ := exists_last (m := m) (i := k) (by rw [hk]; rfl)
  have hnext := h.next g.logId (by rw [lastCached_of_max hi hmax]; rfl)
  have hle := hmax k f hk
  rw [(hkeyed i g hi).1] at hnext
  omega

theorem Next.keyed : Keyed (m.insert e.logId.index e) := by
  intro k f hk
  rcases of_get?_insert hk with ⟨heq, rfl⟩ | ⟨-, hk⟩
  · exact ⟨heq.symm, by rw [heq]; exact h.bounded⟩
  · exact hkeyed k f hk

theorem Next.lastCached : lastCached (m.insert e.logId.index e) = some e.logId := by
  refine lastCached_of_max (get?_insert_self _ _ _) fun i f hi => ?_
  rcases of_get?_insert hi with ⟨heq, -⟩ | ⟨-, hi⟩
  · exact heq.le
  · exact (h.lt hkeyed hi).le

theorem Next.contiguous (hcont : Contiguous m) : Contiguous (m.insert e.logId.index e) := by
  intro i j k hi hk hij hjk
  rw [get?_insert] at hi hk ⊢
  split
  · rfl
  · rename_i hj
    -- `j` is below the new index, so the index before the new one closes the gap
    have hjlt : j < e.logId.index := by
      split at hk
      · omega
      · obtain ⟨f, hf⟩ := isSome_iff_exists.mp hk
        exact lt_of_le_of_lt hjk (h.lt hkeyed hf)
    rw [if_neg (by omega)] at hi
    obtain ⟨l, g, hl, hmax⟩ := exists_last hi
    have hnext := h.next g.logId (by rw [lastCached_of_max hl hmax]; rfl)
    rw [(hkeyed l g hl).1] at hnext
    exact hcont i j l hi (by rw [hl]; rfl) hij (by omega)

theorem Next.length : (m.insert e.logId.index e).entries.length = m.entries.length + 1 := by
  rw [entries_insert_of_lt e fun a ha =>
    h.lt hkeyed (get?_eq_some_iff.mpr (show (a.1, a.2) ∈ m.entries from ha))]
  simp

end

/-! ## Each call keeps the store and the durable log together -/

/-- The store holds what the durable log holds, and nothing was saved beside the entries. -/
structure Refines (s : Storage) (d : DurableLog) : Prop where
  entries : s.store.entriesCache = d.entries
  logState : s.store.logState = d.getLogState
  keyed : Keyed d.entries
  contiguous : Contiguous d.entries
  vote : d.vote = none
  committed : d.committed = none

theorem appendEntries_spec (hkeyed : Keyed m) (hcont : Contiguous m)
    (hes : Continues ((lastCached m).or purged) es) :
    let result := appendEntries m ((lastCached m).or purged) es
    result.1 = es.foldl (fun m e => m.insert e.logId.index e) m ∧
      result.2 = (lastCached result.1).or purged ∧ Keyed result.1 ∧ Contiguous result.1 ∧
      result.1.entries.length = m.entries.length + es.length := by
  induction es generalizing m with
  | nil => exact ⟨rfl, rfl, hkeyed, hcont, rfl⟩
  | cons e es ih =>
    obtain ⟨hnext, hbounded, hes⟩ := hes
    have h : Next m purged e := ⟨hnext, hbounded⟩
    have hlast : some e.logId = (lastCached (m.insert e.logId.index e)).or purged := by
      rw [h.lastCached hkeyed]
      rfl
    rw [hlast] at hes
    have := ih (h.keyed hkeyed) (h.contiguous hkeyed hcont) hes
    rw [← hlast, h.length hkeyed] at this
    refine ⟨this.1, this.2.1, this.2.2.1, this.2.2.2.1, ?_⟩
    have hlen : (appendEntries m ((lastCached m).or purged) (e :: es)).1.entries.length =
      m.entries.length + 1 + es.length := this.2.2.2.2
    rw [length_cons, hlen]
    omega

section Calls

variable {crc : Entry → Nat} {cfg : RustMqStorageConfig} {s : Storage} {d : DurableLog}
  {logId : LogId}

theorem Refines.append (h : Refines s d) {now : Nat} (hk : Kept cfg s (.append es now)) :
    Refines (s.append crc cfg now es) (d.call (.append es now)) := by
  obtain ⟨hcontinues, hroom⟩ := hk
  by_cases hes : es = []
  · subst hes
    rw [Storage.append, if_pos rfl]
    exact h
  rw [h.logState] at hcontinues
  rw [h.entries] at hroom
  obtain ⟨hcache, hlast, hkeyed, hcont, hlen⟩ :=
    appendEntries_spec h.keyed h.contiguous hcontinues
  have hstore : (writeToWal crc cfg now s.store s.dir es).1.entriesCache = d.entries ∧
      (writeToWal crc cfg now s.store s.dir es).1.logState = d.getLogState := by
    rw [writeToWal]
    split <;> exact ⟨h.entries, h.logState⟩
  have hroom' : manageCacheSize cfg.cacheSize
      (appendEntries d.entries d.getLogState.lastLogId es).1 =
        (appendEntries d.entries d.getLogState.lastLogId es).1 := by
    rw [manageCacheSize, if_neg]
    have : (appendEntries d.entries d.getLogState.lastLogId es).1.entries.length =
      d.entries.entries.length + es.length := hlen
    omega
  rw [Storage.append, if_neg hes]
  constructor
  · show manageCacheSize cfg.cacheSize (appendEntries _ _ es).1 = _
    rw [hstore.1, hstore.2, hroom']
    exact hcache
  · show LogState.mk _ (appendEntries _ _ es).2 = _
    rw [hstore.1, hstore.2]
    rw [show (appendEntries d.entries d.getLogState.lastLogId es).2 = _ from hlast]
    rw [show (appendEntries d.entries ((lastCached d.entries).or d.lastPurged) es).1 = _ from hcache]
    rfl
  · rw [hcache] at hkeyed
    exact hkeyed
  · rw [hcache] at hcont
    exact hcont
  · exact h.vote
  · exact h.committed

theorem Keyed.filterKeys (h : Keyed m) (p : Nat → Bool) : Keyed (m.filterKeys p) := by
  intro k e hk
  exact h k e (of_get?_filterKeys hk)

theorem Contiguous.filterKeys (h : Contiguous m) {p : Nat → Bool}
    (hp : ∀ i j k, p i = true → p k = true → i ≤ j → j ≤ k → p j = true) :
    Contiguous (m.filterKeys p) := by
  intro i j k hi hk hij hjk
  rw [get?_filterKeys] at hi hk ⊢
  split at hi
  · split at hk
    · rename_i hpi hpk
      rw [if_pos (hp i j k hpi hpk hij hjk)]
      exact h i j k hi hk hij hjk
    · cases hk
  · cases hi

theorem Refines.le_last (h : Refines s d) {last : LogId}
    (hlast : s.store.logState.lastLogId = some last) (hk : d.entries.get? k = some e) :
    k ≤ last.index := by
  obtain ⟨i, f, hi, hmax⟩ := exists_last (m := d.entries) (i := k) (by rw [hk]; rfl)
  rw [h.logState] at hlast
  have hmaxid : (lastCached d.entries).or d.lastPurged = some last := hlast
  rw [lastCached_of_max hi hmax] at hmaxid
  cases hmaxid
  rw [(h.keyed i f hi).1]
  exact hmax k e hk

theorem Refines.truncate (h : Refines s d) (hk : Kept cfg s (.truncate logId)) :
    Refines (s.truncate logId) (d.call (.truncate logId)) := by
  have hstate : (s.truncate logId).store.logState = (d.call (.truncate logId)).getLogState := by
    show LogState.mk s.store.logState.lastPurgedLogId _ = LogState.mk d.lastPurged _
    have hpurged : s.store.logState.lastPurgedLogId = d.lastPurged := by rw [h.logState]; rfl
    rw [hpurged]
    congr 1
    show _ = (lastCached (d.entries.filterKeys fun k => k < logId.index)).or d.lastPurged
    cases hlast : s.store.logState.lastLogId with
    | none =>
      -- an empty log, from which nothing was purged
      have hor : (lastCached d.entries).or d.lastPurged = none := by
        rw [h.logState] at hlast
        exact hlast
      obtain ⟨hcached, hnone⟩ := or_eq_none_iff.mp hor
      have hempty : d.entries = .empty := ext_get? fun k => get?_of_lastCached_none hcached k
      rw [hempty, hnone]
      rfl
    | some last =>
      by_cases hcut : logId.index ≤ last.index
      · simp only [if_pos hcut, h.entries]
        rcases hk with hnone | ⟨k, hkmem, hklt⟩ | hall
        · rw [← hpurged, hnone, or_none]
        · obtain ⟨e, he⟩ := mem_keys.mp hkmem
          rw [h.entries] at he
          have hleft : ((d.entries.filterKeys fun k => k < logId.index).get? k).isSome := by
            rw [get?_filterKeys, if_pos (by simpa using hklt), he]
            rfl
          obtain ⟨i, f, hi, hmax⟩ := exists_last hleft
          rw [lastCached_of_max hi hmax]
          rfl
        · exact absurd (hall last hlast) (by omega)
      · -- nothing reaches the cut
        simp only [if_neg hcut]
        have hsame : (d.entries.filterKeys fun k => k < logId.index) = d.entries := by
          apply ext_entries
          refine filter_eq_self.mpr fun a ha => ?_
          have := h.le_last hlast (get?_eq_some_iff.mpr (show (a.1, a.2) ∈ _ from ha))
          simp only [decide_eq_true_eq]
          omega
        rw [hsame, ← hlast, h.logState]
        rfl
  exact ⟨congrArg (fun m : SMap Nat Entry => m.filterKeys fun k => decide (k < logId.index))
      h.entries, hstate, h.keyed.filterKeys _,
    h.contiguous.filterKeys fun i j k _ hpk _ hjk => by simp at hpk ⊢; omega, h.vote, h.committed⟩

theorem Refines.purge (h : Refines s d) (hk : Kept cfg s (.purge logId)) :
    Refines (s.purge logId) (d.call (.purge logId)) := by
  have hstate : (s.purge logId).store.logState = (d.call (.purge logId)).getLogState := by
    show LogState.mk (some logId) s.store.logState.lastLogId = LogState.mk (some logId) _
    congr 1
    show _ = (lastCached (d.entries.filterKeys fun k => logId.index < k)).or (some logId)
    -- an entry behind the purge keeps the last entry
    have hbehind : ∀ k, (d.entries.get? k).isSome → logId.index < k → s.store.logState.lastLogId =
          (lastCached (d.entries.filterKeys fun k => logId.index < k)).or (some logId) := by
      intro k hsome hlt
      obtain ⟨i, f, hi, hmax⟩ := exists_last hsome
      obtain ⟨e, he⟩ := isSome_iff_exists.mp hsome
      have hile := hmax k e he
      have hkept : (d.entries.filterKeys fun k => logId.index < k).get? i = some f := by
        rw [get?_filterKeys, if_pos (by simp; omega), hi]
      have hmax' : ∀ j g, (d.entries.filterKeys fun k => logId.index < k).get? j = some g →
          j ≤ i := by
        intro j g hj
        exact hmax j g (of_get?_filterKeys hj)
      rw [lastCached_of_max hkept hmax', h.logState]
      show (lastCached d.entries).or d.lastPurged = _
      rw [lastCached_of_max hi hmax]
      rfl
    rcases hk with ⟨k, hkmem, hklt⟩ | hlast
    · obtain ⟨e, he⟩ := mem_keys.mp hkmem
      rw [h.entries] at he
      exact hbehind k (by rw [he]; rfl) hklt
    · cases hc : lastCached (d.entries.filterKeys fun k => logId.index < k) with
      | none => rw [hlast]; rfl
      | some id =>
        obtain ⟨a, ha, -⟩ := map_eq_some_iff.mp hc
        have hget := ((getLast?_entries_iff (k := a.1) (e := a.2)).mp ha).1
        rw [get?_filterKeys] at hget
        split at hget
        · rename_i hlt
          rw [hbehind a.1 (by rw [hget]; rfl) (by simpa using hlt), hc]
        · cases hget
  exact ⟨congrArg (fun m : SMap Nat Entry => m.filterKeys fun k => decide (logId.index < k))
      h.entries, hstate, h.keyed.filterKeys _,
    h.contiguous.filterKeys fun i j k hpi _ hij _ => by simp at hpi ⊢; omega, h.vote, h.committed⟩

theorem Refines.restart (h : Refines s d) {kept : Nat} (hk : Kept cfg s (.restart kept)) :
    Refines (s.restart crc kept) (d.call (.restart kept)) := by
  obtain ⟨hstate, hdir, hwriter⟩ := hk
  have hnew : s.restart crc kept = ⟨.new crc s.dir, s.dir⟩ := by
    rw [Storage.restart, isNone_iff_eq_none.mp hwriter]
  have hloaded : loadWalEntries crc s.dir = .empty := by
    rw [loadWalEntries, hdir]
    rfl
  have hor : (lastCached d.entries).or d.lastPurged = none := by
    have := h.logState.symm.trans hstate
    exact congrArg LogState.lastLogId this
  have hempty : d.entries = .empty := by
    apply ext_entries
    have hcached := (or_eq_none_iff.mp hor).1
    rw [lastCached, map_eq_none_iff, getLast?_eq_none_iff] at hcached
    exact hcached
  rw [hnew]
  refine ⟨?_, ?_, h.keyed, h.contiguous, h.vote, h.committed⟩
  · show loadWalEntries crc s.dir = d.entries
    rw [hloaded, hempty]
  · show LogState.default = d.getLogState
    rw [← h.logState, hstate]

/-- **One call.** -/
theorem Refines.step (h : Refines s d) {call : LogCall} (hk : Kept cfg s call) {s' : Storage}
    (hstep : s.step crc cfg call = some s') : Refines s' (d.call call) := by
  cases call with
  | append entries now => cases hstep; exact h.append hk
  | truncate logId => cases hstep; exact h.truncate hk
  | purge logId => cases hstep; exact h.purge hk
  | saveVote vote => exact absurd hk id
  | saveCommitted committed =>
    cases hstep
    cases (show committed = none from hk)
    exact { h with committed := rfl }
  | restart kept => cases hstep; exact h.restart hk

theorem refines_start : Refines (.start crc) .empty where
  entries := rfl
  logState := rfl
  keyed _ _ h := by cases h
  contiguous _ _ _ h := by cases h
  vote := rfl
  committed := rfl

theorem Refines.run {calls : List LogCall}
    (hok : Along (Storage.step crc cfg) (Kept cfg) (.start crc) calls)
    (hexec : exec (Storage.step crc cfg) (.start crc) calls = some s) : Refines s (.after calls) :=
  exec_simulation (fun _ _ _ _ h hk hs => h.step hk hs) refines_start hok hexec

end Calls

/-! ## Reads -/

theorem filter_entries_from {a b : Nat} (h : m.get? a = some e) (hab : a < b) :
    m.entries.filter (fun p => decide (a ≤ p.1 ∧ p.1 < b)) =
      (a, e) :: m.entries.filter (fun p => decide (a + 1 ≤ p.1 ∧ p.1 < b)) := by
  have hmem := get?_eq_some_iff.mp h
  obtain ⟨l, hl⟩ := m
  simp only at hmem ⊢
  clear h
  induction l with
  | nil => cases hmem
  | cons x l ih =>
    obtain ⟨hlt, hl⟩ := pairwise_cons.mp hl
    rcases mem_cons.mp hmem with rfl | hmem
    · rw [filter_cons_of_pos (by simpa using hab), filter_cons_of_neg (by simp)]
      congr 1
      refine filter_congr fun p hp => ?_
      have := hlt p hp
      simp only [decide_eq_decide]
      omega
    · have hx := hlt _ hmem
      rw [filter_cons_of_neg (by simp; omega), filter_cons_of_neg (by simp; omega)]
      exact ih hl hmem

/-- **The read loop.** Over indices without a gap it returns the entries of the range, if the
range begins at a stored index or holds none. -/
theorem readRun_eq (hcont : Contiguous m) (count : Nat) :
    ∀ a, ((m.get? a).isSome ∨ ∀ k, (m.get? k).isSome → ¬ (a ≤ k ∧ k < a + count)) →
      readRun m a count =
        (m.entries.filter fun p => decide (a ≤ p.1 ∧ p.1 < a + count)).map Prod.snd := by
  induction count with
  | zero =>
    intro a _
    rw [filter_eq_nil_iff.mpr fun p _ => by simp]
    rfl
  | succ count ih =>
    intro a ha
    rw [readRun]
    cases hget : m.get? a with
    | some e =>
      rw [filter_entries_from hget (by omega), map_cons]
      have hrest : (m.get? (a + 1)).isSome ∨
          ∀ k, (m.get? k).isSome → ¬ (a + 1 ≤ k ∧ k < a + 1 + count) := by
        by_cases hnext : (m.get? (a + 1)).isSome
        · exact .inl hnext
        · refine .inr fun k hk hin => hnext ?_
          exact hcont a (a + 1) k (by rw [hget]; rfl) hk (by omega) hin.1
      rw [ih (a + 1) hrest, show a + 1 + count = a + (count + 1) by omega]
    | none =>
      have hnone := ha.resolve_left (by rw [hget]; simp)
      rw [filter_eq_nil_iff.mpr fun p hp => by
        simpa using hnone p.1 (by rw [get?_eq_some_iff.mpr (show (p.1, p.2) ∈ _ from hp)]; rfl)]
      rfl

/-- A range the store reads as a durable log does: its bounds are below the greatest `u64`, and
it begins at an index in the cache or holds none. -/
def Readable (s : Storage) (lower upper : Bound) : Prop :=
  (∀ i, lower = .excluded i → i + 1 < 2 ^ 64) ∧ (∀ i, upper = .included i → i + 1 < 2 ^ 64) ∧
    ((s.store.entriesCache.get? lower.start).isSome ∨
      ∀ k ∈ s.store.entriesCache.keys, ¬ (lower.start ≤ k ∧ k < upper.stop))

theorem inRange_eq (hlower : ∀ i, lower = .excluded i → i + 1 < 2 ^ 64)
    (hupper : ∀ i, upper = .included i → i + 1 < 2 ^ 64) (hk : k < 2 ^ 64 - 1) :
    DurableLog.inRange lower upper k = decide (lower.start ≤ k ∧ k < upper.stop) := by
  have hlo : lower.admitsFrom k = decide (lower.start ≤ k) := by
    cases lower with
    | included i => rfl
    | excluded i =>
      have := hlower i rfl
      simp only [Bound.admitsFrom, Bound.start, Nat.mod_eq_of_lt this, Nat.succ_le_iff]
    | unbounded => simp [Bound.admitsFrom, Bound.start]
  have hhi : upper.admitsTo k = decide (k < upper.stop) := by
    cases upper with
    | included i =>
      have := hupper i rfl
      simp only [Bound.admitsTo, Bound.stop, Nat.mod_eq_of_lt this, Nat.lt_succ_iff]
    | excluded i => rfl
    | unbounded =>
      exact (decide_eq_true hk).symm
  rw [DurableLog.inRange, hlo, hhi, Bool.decide_and]

theorem Refines.read {s : Storage} {d : DurableLog} (h : Refines s d) {lower upper : Bound}
    (hr : Readable s lower upper) : s.tryGetLogEntries lower upper = d.read lower upper := by
  obtain ⟨hlower, hupper, hfirst⟩ := hr
  rw [h.entries] at hfirst
  rw [Storage.tryGetLogEntries, h.entries, DurableLog.read]
  rcases le_or_gt lower.start upper.stop with hle | hgt
  · have hstop : lower.start + (upper.stop - lower.start) = upper.stop := by omega
    rw [readRun_eq h.contiguous _ _ ?_, hstop]
    · refine congrArg _ (filter_congr fun p hp => ?_)
      exact (inRange_eq hlower hupper
        (h.keyed p.1 p.2 (get?_eq_some_iff.mpr (show (p.1, p.2) ∈ _ from hp))).2).symm
    · rw [hstop]
      refine hfirst.imp_right fun hnone k hk => ?_
      obtain ⟨e, he⟩ := isSome_iff_exists.mp hk
      exact hnone k (mem_keys.mpr ⟨e, he⟩)
  · -- an empty range
    rw [show upper.stop - lower.start = 0 by omega, readRun, filter_eq_nil_iff.mpr fun p hp => ?_]
    · rfl
    · rw [inRange_eq hlower hupper
        (h.keyed p.1 p.2 (get?_eq_some_iff.mpr (show (p.1, p.2) ∈ _ from hp))).2]
      simp only [decide_eq_true_eq]
      omega

/-- **The store is a durable log** after any history of calls that are `Kept`. -/
theorem reads_as_durable {crc : Entry → Nat} {cfg : RustMqStorageConfig} {calls : List LogCall}
    {s : Storage} (hkept : Along (Storage.step crc cfg) (Kept cfg) (.start crc) calls)
    (hexec : exec (Storage.step crc cfg) (.start crc) calls = some s) :
    s.getLogState = (DurableLog.after calls).getLogState ∧
      s.readVote = (DurableLog.after calls).vote ∧
      s.readCommitted = (DurableLog.after calls).committed ∧
      ∀ lower upper, Readable s lower upper →
        s.tryGetLogEntries lower upper = (DurableLog.after calls).read lower upper := by
  have h := Refines.run hkept hexec
  exact ⟨h.logState, h.vote.symm, h.committed.symm, fun _ _ hr => h.read hr⟩

def blankEntry (index : Nat) : Entry := ⟨⟨⟨1, 1⟩, index⟩, .blank⟩

def keptCalls : List LogCall :=
  [.restart 0, .append [blankEntry 1, blankEntry 2, blankEntry 3] 100, .purge ⟨⟨1, 1⟩, 1⟩,
    .truncate ⟨⟨1, 1⟩, 3⟩, .append [blankEntry 3] 101, .saveCommitted none]

theorem reads_as_durable_keptCalls :
    ∃ s, exec (Storage.step (fun _ => 0) ⟨true, 10⟩) (.start fun _ => 0) keptCalls = some s ∧
      s.tryGetLogEntries (.included 2) .unbounded = [blankEntry 2, blankEntry 3] ∧
      s.getLogState = (DurableLog.after keptCalls).getLogState ∧
      s.readVote = (DurableLog.after keptCalls).vote ∧
      s.readCommitted = (DurableLog.after keptCalls).committed ∧
      ∀ lower upper, Readable s lower upper →
        s.tryGetLogEntries lower upper = (DurableLog.after keptCalls).read lower upper :=
  ⟨_, rfl, by decide +kernel, reads_as_durable (by decide +kernel) rfl⟩

def leaves (calls : List LogCall) : Option Storage :=
  exec (Storage.step (fun _ => 0) ⟨true, 10⟩) (.start fun _ => 0) calls

/-- A vote that is saved is not read back, and after a restart the entry that was cut off is there
again. -/
theorem saved_vote_lost : (leaves [.saveVote ⟨⟨2, 1⟩, true⟩]).map Storage.readVote = some none ∧
      (DurableLog.after [.saveVote ⟨⟨2, 1⟩, true⟩]).vote = some ⟨⟨2, 1⟩, true⟩ ∧
      let cut : List LogCall :=
        [.append [blankEntry 1, blankEntry 2] 100, .truncate ⟨⟨1, 1⟩, 2⟩, .restart 0]
      (leaves cut).map Storage.getLogState = some ⟨none, none⟩ ∧
        (DurableLog.after cut).getLogState = ⟨none, some ⟨⟨1, 1⟩, 1⟩⟩ ∧
        (leaves cut).map (fun s => s.tryGetLogEntries (.included 1) .unbounded) =
          some [blankEntry 1, blankEntry 2] ∧
        (DurableLog.after cut).read (.included 1) .unbounded = [blankEntry 1] := by
  refine ⟨rfl, rfl, ?_⟩
  decide +kernel

end RustMq.Controller
