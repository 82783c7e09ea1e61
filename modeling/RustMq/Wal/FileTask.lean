import RustMq.Lib.Blocks
import RustMq.Lib.Outcome
import RustMq.Lib.SortedMap
import RustMq.Types

/-!
# The segmented write-ahead log

The code of `src/storage/wal/segmented.rs`: the file task that owns the active segment, and the
directory scans that read the log back.

The writer thread is `FileTask`, and its methods are computations over it that may fail:
`EStateM` keeps what was already assigned when `?` leaves a method early, which is how
`&mut self` behaves. The directory is part of the state. A segment file has the bytes a reader
sees and the bytes the last successful sync left on the disk; only a crash tells them apart.

What the machine answers during one command is its `Env`: a result for every I/O call the
command can make, whether the age threshold has passed, and the clock. A failing
`write_all_at` may have written any number of leading blocks. Every command runs under its own
`Env`, so a run quantifies over all failures; `Env.NoError` says that there are none.
-/

namespace RustMq.Wal

open Lib

/-! ## Constants -/

def blockSize : Nat := 4096

def headerSize : Nat := 4096

def segmentMagic : Nat := 0x524D5147

def segmentVersion : Nat := 1

def frameLenPrefix : Nat := 8

/-! ## Files -/

/-- A segment file: what a read sees, and what is known to be on the disk. -/
structure SegFile where
  data : List UInt8
  durable : List UInt8
  deriving DecidableEq

/-- The segments of the log directory by sequence number (`wal-{seq:020}.log`). -/
abbrev Dir := SMap Nat SegFile

/-- Change an open file. A file that was unlinked while open has no entry any more, and
writing to it changes nothing the directory shows. -/
def Dir.update (dir : Dir) (seq : Nat) (f : SegFile → SegFile) : Dir :=
  match dir.get? seq with
  | none => dir
  | some file => dir.insert seq (f file)

/-- The answer to a `write_all_at`. A failing write may have written leading blocks. -/
inductive WriteResult where
  | ok
  | fail (blocksWritten : Nat)
  deriving DecidableEq

/-- What the machine answers during one command. -/
structure Env where
  /-- The write of `write_complete_blocks`. -/
  blocks : WriteResult
  /-- The write of `flush`. -/
  tail : WriteResult
  /-- The `sync_data` of `flush`. -/
  sync : Bool
  /-- Opening, writing the header of, and syncing a new segment. -/
  create : Bool
  header : WriteResult
  headerSync : Bool
  /-- `active_start.elapsed() >= upload_interval_ms`. -/
  elapsed : Bool
  createdMs : Nat

structure Env.NoError (env : Env) : Prop where
  blocks : env.blocks = .ok
  tail : env.tail = .ok
  sync : env.sync = true
  create : env.create = true
  header : env.header = .ok
  headerSync : env.headerSync = true

def Env.ok : Env := ⟨.ok, .ok, true, true, .ok, true, false, 0⟩

theorem Env.ok_noError : Env.ok.NoError := ⟨rfl, rfl, rfl, rfl, rfl, rfl⟩

structure WalConfig where
  fsyncOnWrite : Bool
  segmentSizeBytes : Nat

/-! ## The writer -/

/-- The writer thread's state, with the directory it writes to. -/
structure FileTask where
  dir : Dir
  /-- Block-aligned file offset of `tail`'s first byte. -/
  base : Nat
  /-- Bytes from `base` on that are not part of a written complete block. -/
  tail : List UInt8
  activeSeq : Nat
  activeSize : Nat
  needsFlush : Bool
  fsyncOnWrite : Bool
  segmentSizeBytes : Nat
  totalAppends : Nat

abbrev Task := EStateM RustMqError FileTask

/-- Write `data` at a block-aligned offset, zero-padded to whole blocks. -/
def writeBlocks (res : WriteResult) (seq offset : Nat) (data : List UInt8) : Task Unit := do
  let buf := zeroPad blockSize data
  match res with
  | .ok =>
    modify fun t => { t with dir := t.dir.update seq fun f =>
      { f with data := overwrite f.data offset buf } }
  | .fail w =>
    modify fun t => { t with dir := t.dir.update seq fun f =>
      { f with data := overwrite f.data offset (buf.take (blockSize * w)) } }
    throw .io

def syncFile (ok : Bool) (seq : Nat) : Task Unit :=
  if ok then
    modify fun t => { t with dir := t.dir.update seq fun f => { f with durable := f.data } }
  else throw .io

def buildHeader (seq createdMs : Nat) : List UInt8 :=
  leBytes 4 segmentMagic ++ leBytes 2 segmentVersion ++ leBytes 2 0 ++ leBytes 8 seq ++
    leBytes 8 createdMs ++ List.replicate (headerSize - 24) 0

/-- Create (or truncate) a segment and write its header block. -/
def openNewSegment (env : Env) (seq : Nat) : Task Unit := do
  (if env.create then modify fun t => { t with dir := t.dir.insert seq ⟨[], []⟩ } else throw .io)
  writeBlocks env.header seq 0 (buildHeader seq env.createdMs)
  syncFile env.headerSync seq

/-- Write and drop every complete block of the tail. -/
def writeCompleteBlocks (env : Env) : Task Unit := do
  let t ← get
  let full := t.tail.length / blockSize * blockSize
  if full = 0 then return ()
  writeBlocks env.blocks t.activeSeq t.base (t.tail.take full)
  modify fun t => { t with base := t.base + full, tail := t.tail.drop full, needsFlush := true }

/-- Write the trailing partial block and fsync. `base` does not advance: the block is rewritten
in place as more frames arrive. -/
def flush (env : Env) : Task Unit := do
  let t ← get
  (if t.tail ≠ [] then writeBlocks env.tail t.activeSeq t.base t.tail else pure ())
  syncFile env.sync t.activeSeq
  modify fun t => { t with needsFlush := false }

def handleAppend (env : Env) (framed : List UInt8) : Task PhysicalLocation := do
  let t ← get
  let bodyLen := (framed.length - frameLenPrefix) % 2 ^ 32
  let bodyOffset := t.base + t.tail.length + frameLenPrefix
  set { t with tail := t.tail ++ framed }
  writeCompleteBlocks env
  (if t.fsyncOnWrite then flush env else modify fun t => { t with needsFlush := true })
  modify fun t => { t with
    activeSize := t.activeSize + framed.length
    totalAppends := t.totalAppends + 1 }
  return ⟨t.activeSeq, bodyOffset, bodyLen⟩

/-- Seal and rotate the active segment if it holds data and is due (or `force` is set). -/
def handleMaybeSeal (env : Env) (force : Bool) : Task (Option Nat) := do
  let t ← get
  let hasData := 0 < t.activeSize
  let shouldSeal := hasData ∧ (force ∨ t.segmentSizeBytes ≤ t.activeSize ∨ env.elapsed)
  if ¬ shouldSeal then return none
  flush env
  let sealedSeq := t.activeSeq
  let nextSeq := t.activeSeq + 1
  openNewSegment env nextSeq
  modify fun t => { t with activeSeq := nextSeq, base := headerSize, tail := [], activeSize := 0 }
  return some sealedSeq

/-! ## The command loop -/

/-- A command of the writer; an append carries the value whose body is framed. -/
inductive WalCommand (β : Type) where
  | append (x : β)
  | sync
  | maybeSeal (force : Bool)
  | flushTick

inductive Reply where
  | append (r : Except RustMqError PhysicalLocation)
  | sync (r : Except RustMqError Unit)
  | maybeSeal (r : Except RustMqError (Option Nat))
  /-- A tick is not answered; this is the result the loop discards, if it flushed. -/
  | flushTick (discarded : Option (Except RustMqError Unit))

variable {β : Type} (ser : β → Body)

def exec (env : Env) (cmd : WalCommand β) (t : FileTask) : Reply × FileTask :=
  match cmd with
  | .append x => (outcome (handleAppend env (frame (ser x))) t).map .append id
  | .sync => (outcome (flush env) t).map .sync id
  | .maybeSeal force => (outcome (handleMaybeSeal env force) t).map .maybeSeal id
  | .flushTick =>
    if t.needsFlush then (outcome (flush env) t).map (fun r => .flushTick (some r)) id
    else (.flushTick none, t)

def run : List (Env × WalCommand β) → FileTask → List (WalCommand β × Reply) × FileTask
  | [], t => ([], t)
  | (env, cmd) :: cmds, t =>
    let (reply, t) := exec ser env cmd t
    let (events, t) := run cmds t
    ((cmd, reply) :: events, t)

/-! ## Opening and reading a log -/

def scanSegmentSeqs (dir : Dir) : List Nat := dir.keys

/-- `SegmentedWal::new`: every segment found becomes sealed, and a fresh active one is opened
behind the last. -/
def SegmentedWal.new (config : WalConfig) (env : Env) (dir : Dir) : Except RustMqError FileTask :=
  let activeSeq := ((scanSegmentSeqs dir).max?.map (· + 1)).getD 0
  match (openNewSegment env activeSeq).run
    ⟨dir, headerSize, [], activeSeq, 0, false, config.fsyncOnWrite, config.segmentSizeBytes, 0⟩ with
  | .ok _ t => .ok t
  | .error e _ => .error e

/-- The loop of `walk_frames` from `pos` on; it advances by at least one byte per turn, so the
buffer's length is fuel enough. -/
def walkFramesFrom (buf : List UInt8) : Nat → Nat → List (Nat × List UInt8)
  | 0, _ => []
  | fuel + 1, pos =>
    if pos + frameLenPrefix ≤ buf.length then
      let bodyLen := ofLe ((buf.drop pos).take 8)
      if bodyLen = 0 then []
      else
        let bodyStart := pos + 8
        let bodyEnd := bodyStart + bodyLen
        if buf.length < bodyEnd then []
        else (bodyStart, (buf.drop bodyStart).take bodyLen) :: walkFramesFrom buf fuel bodyEnd
    else []

def walkFrames (buf : List UInt8) : List (Nat × List UInt8) :=
  walkFramesFrom buf buf.length headerSize

def sealedSegments (t : FileTask) : List Nat :=
  (scanSegmentSeqs t.dir).filter (· ≠ t.activeSeq)

/-- Removing a segment that is already gone is not an error. -/
def deleteSegment (t : FileTask) (seq : Nat) : FileTask := { t with dir := t.dir.erase seq }

section

variable {α : Type} (C : Codec α)

def deserialize (body : List UInt8) : Except RustMqError α :=
  match C.decode body with
  | some r => .ok r
  | none => .error .serialization

def readSegmentRecords (t : FileTask) (seq : Nat) : Except RustMqError (List α) :=
  match t.dir.get? seq with
  | none => .error .io
  | some file => (walkFrames file.data).mapM fun e => deserialize C e.2

def recoverSegment (seq : Nat) (buf : List UInt8) :
    Except RustMqError (List (α × PhysicalLocation)) :=
  (walkFrames buf).mapM fun e => do
    let record ← deserialize C e.2
    return (record, ⟨seq, e.1, e.2.length % 2 ^ 32⟩)

def recover (t : FileTask) : Except RustMqError (List (α × PhysicalLocation)) := do
  let segments ← (t.dir.entries.filter (·.1 ≠ t.activeSeq)).mapM fun e =>
    recoverSegment C e.1 e.2.data
  return segments.flatten

end

end RustMq.Wal
