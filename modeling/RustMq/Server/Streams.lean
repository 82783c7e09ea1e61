import RustMq.Server.ResourceRules

/-!
# Request streams

A client writes the type byte and the body of a request on a stream of its own and finishes it
(`send_request_internal` of the Rust client). `handle_connection` takes a buffer of 8192 bytes out
of the `AlignedBufferPool` (`src/storage/buffer_pool.rs`), reads once from the stream, and routes
what that read has brought; `handle_authenticated_connection` does the same behind a check.

A stream is the list of the pieces in which its bytes arrive, and a read takes from the first
piece as much as the buffer holds.
-/

namespace RustMq.Server

open Lib Security List

/-! ## Buffers -/

/-- One queue of buffers for each of the 20 size classes. -/
structure AlignedBufferPool where
  pools : Fin 20 → List (List UInt8)
  maxBuffersPerSize : Nat

namespace AlignedBufferPool

def sizeClassIndex (size : Nat) : Fin 20 :=
  if size ≤ 4096 then 0
  else if size ≤ 8192 then 1
  else if size ≤ 16384 then 2
  else if size ≤ 32768 then 3
  else if size ≤ 65536 then 4
  else ⟨min (size / 65536) 19, Nat.lt_succ_of_le (Nat.min_le_right _ _)⟩

/-- `pop_front` of a size class; a buffer that is too short is dropped. -/
def popFront (pool : AlignedBufferPool) (index : Fin 20) (size : Nat) :
    Option (List UInt8) × AlignedBufferPool :=
  match pool.pools index with
  | [] => (none, pool)
  | buffer :: rest =>
    (if size ≤ buffer.length then some (buffer.take size) else none,
      { pool with pools := Function.update pool.pools index rest })

/-- `get_aligned_buffer`: from the size class, from the next one up, or freshly allocated. -/
def getAlignedBuffer (pool : AlignedBufferPool) (size : Nat) : List UInt8 × AlignedBufferPool :=
  let index := sizeClassIndex size
  match pool.popFront index size with
  | (some buffer, pool) => (buffer, pool)
  | (none, pool) =>
    if h : index.val + 1 < 20 then
      match pool.popFront ⟨index.val + 1, h⟩ size with
      | (some buffer, pool) => (buffer, pool)
      | (none, pool) => (List.replicate size 0, pool)
    else (List.replicate size 0, pool)

def returnBuffer (pool : AlignedBufferPool) (buffer : List UInt8) : AlignedBufferPool :=
  let index := sizeClassIndex buffer.length
  if (pool.pools index).length < pool.maxBuffersPerSize then
    { pool with pools := Function.update pool.pools index (pool.pools index ++ [buffer]) }
  else pool

theorem length_of_popFront {pool : AlignedBufferPool} {index : Fin 20} {size : Nat}
    {buffer : List UInt8} (h : (pool.popFront index size).1 = some buffer) :
    buffer.length = size := by
  rw [popFront] at h
  split at h
  · cases h
  · simp only at h
    split at h
    · rename_i hsize
      cases h
      exact length_take_of_le hsize
    · cases h

@[simp] theorem length_getAlignedBuffer (pool : AlignedBufferPool) (size : Nat) :
    (pool.getAlignedBuffer size).1.length = size := by
  rw [getAlignedBuffer]
  split
  · rename_i heq
    exact length_of_popFront (congrArg Prod.fst heq)
  · split
    · split
      · rename_i heq
        exact length_of_popFront (congrArg Prod.fst heq)
      · exact length_replicate
    · exact length_replicate

end AlignedBufferPool

/-! ## Streams -/

/-- `RecvStream::read`: the number of bytes read, and the buffer. Nothing is left to read on a
finished stream. -/
def read (buffer : List UInt8) : List (List UInt8) → Option (Nat × List UInt8)
  | [] => none
  | piece :: _ =>
    let size := min piece.length buffer.length
    some (size, piece.take size ++ buffer.drop size)

/-- One accepted stream, up to what is given to the router, if anything. -/
def serveStream (admits : RequestType → List UInt8 → Bool) (pool : AlignedBufferPool)
    (stream : List (List UInt8)) : Option (RequestType × List UInt8) × AlignedBufferPool :=
  let (buffer, pool) := pool.getAlignedBuffer 8192
  match read buffer stream with
  | none => (none, pool.returnBuffer buffer)
  | some (size, buffer) =>
    if 1 ≤ size then
      match RequestType.tryFrom (buffer.headD 0) with
      -- the error takes the buffer with it
      | none => (none, pool)
      | some type =>
        let data := (buffer.take size).drop 1
        (if admits type data then some (type, data) else none, pool.returnBuffer buffer)
    else (none, pool.returnBuffer buffer)

def handleConnection : AlignedBufferPool → List (List UInt8) →
    Option (RequestType × List UInt8) × AlignedBufferPool :=
  serveStream fun _ _ => true

/-- `handle_authenticated_connection`, for one stream; `authorize` is whether `authorize_request`
gives `Ok(true)`. -/
def handleAuthenticatedConnection (authorize : String → AuthPermission → Bool) :
    AlignedBufferPool → List (List UInt8) →
    Option (RequestType × List UInt8) × AlignedBufferPool :=
  serveStream fun type data => authorize (extractResource type data) (requiredPermission type)

def frame (type : RequestType) (body : List UInt8) : List UInt8 := type.toByte :: body

/-! ## What is routed -/

/-- What a stream comes to: the first 8192 bytes of its first piece, taken for a request. -/
def handed (admits : RequestType → List UInt8 → Bool) :
    List (List UInt8) → Option (RequestType × List UInt8)
  | [] => none
  | piece :: _ =>
    match piece.take 8192 with
    | [] => none
    | byte :: data =>
      (RequestType.tryFrom byte).bind fun type =>
        if admits type data then some (type, data) else none

theorem read_cons (buffer piece : List UInt8) (rest : List (List UInt8)) :
    read buffer (piece :: rest) = some ((piece.take buffer.length).length,
      piece.take buffer.length ++ buffer.drop (piece.take buffer.length).length) := by
  have htake : piece.take (min piece.length buffer.length) = piece.take buffer.length := by
    rw [Nat.min_comm]
    exact take_eq_take_min.symm
  rw [read, length_take, Nat.min_comm buffer.length]
  simp only [htake]

theorem serveStream_fst (admits : RequestType → List UInt8 → Bool) (pool : AlignedBufferPool)
    (stream : List (List UInt8)) : (serveStream admits pool stream).1 = handed admits stream := by
  have hlength := pool.length_getAlignedBuffer 8192
  rw [serveStream]
  generalize pool.getAlignedBuffer 8192 = got at hlength
  obtain ⟨buffer, pool⟩ := got
  cases stream with
  | nil => rfl
  | cons piece rest =>
    simp only [read_cons, handed, hlength]
    cases piece.take 8192 with
    | nil => rfl
    | cons byte data =>
      have hdata : ((byte :: data ++ buffer.drop (byte :: data).length).take
          (byte :: data).length).drop 1 = data := by
        rw [take_left]
        rfl
      have hsize : 1 ≤ (byte :: data).length := Nat.succ_le_succ (Nat.zero_le _)
      have hbyte : (byte :: data ++ buffer.drop (byte :: data).length).headD 0 = byte := rfl
      simp only [if_pos hsize, hbyte, hdata]
      cases RequestType.tryFrom byte with
      | none | some => rfl

def serveAll (admits : RequestType → List UInt8 → Bool) :
    AlignedBufferPool → List (List (List UInt8)) → List (Option (RequestType × List UInt8))
  | _, [] => []
  | pool, stream :: streams =>
    let (routed, pool) := serveStream admits pool stream
    routed :: serveAll admits pool streams

theorem serveAll_eq_map (admits : RequestType → List UInt8 → Bool) (pool : AlignedBufferPool)
    (streams : List (List (List UInt8))) :
    serveAll admits pool streams = streams.map (handed admits) := by
  induction streams generalizing pool with
  | nil => rfl
  | cons stream streams ih =>
    rw [serveAll, map_cons, ← serveStream_fst admits pool stream]
    simp only [ih]

/-! ## Frames -/

structure Splits (stream : List (List UInt8)) (bytes : List UInt8) : Prop where
  flatten : stream.flatten = bytes
  nonempty : ∀ piece ∈ stream, piece ≠ []

variable {stream : List (List UInt8)} {type : RequestType} {body : List UInt8}

theorem Splits.exists_cons (h : Splits stream (frame type body)) :
    ∃ start rest, stream = (type.toByte :: start) :: rest ∧ start ++ rest.flatten = body := by
  obtain ⟨hflatten, hnonempty⟩ := h
  cases stream with
  | nil => cases hflatten
  | cons piece rest =>
    cases piece with
    | nil => exact absurd rfl (hnonempty [] mem_cons_self)
    | cons byte start =>
      obtain ⟨hbyte, hbody⟩ := cons.inj hflatten
      exact ⟨start, rest, by rw [hbyte], hbody⟩

theorem handed_frame (admits : RequestType → List UInt8 → Bool) (type : RequestType)
    (start : List UInt8) (rest : List (List UInt8)) :
    handed admits ((type.toByte :: start) :: rest) =
      if admits type (start.take 8191) then some (type, start.take 8191) else none := by
  simp [handed, take_succ_cons]

theorem take_eq_body_iff {start : List UInt8} {rest : List (List UInt8)}
    (h : Splits stream (frame type body)) (hstream : stream = (type.toByte :: start) :: rest)
    (hbody : start ++ rest.flatten = body) :
    start.take 8191 = body ↔ stream = [frame type body] ∧ body.length ≤ 8191 := by
  constructor
  · intro htake
    have hlength := congrArg length (htake.trans hbody.symm)
    rw [length_take, length_append] at hlength
    have hrest : rest.flatten = [] := length_eq_zero_iff.mp (by omega)
    have hnil : rest = [] := by
      cases rest with
      | nil => rfl
      | cons piece pieces =>
        have hpiece : piece = [] := (append_eq_nil_iff.mp hrest).1
        have hmem : piece ∈ stream := by
          rw [hstream]
          exact mem_cons_of_mem _ mem_cons_self
        exact absurd hpiece (h.nonempty piece hmem)
    subst hnil
    rw [flatten_nil, append_nil] at hbody
    subst hbody
    refine ⟨hstream, ?_⟩
    simp only [flatten_nil, length_nil] at hlength
    omega
  · rintro ⟨hone, hfits⟩
    rw [hone] at hstream
    obtain ⟨hpiece, hrest⟩ := cons.inj hstream
    obtain ⟨-, rfl⟩ := cons.inj hpiece
    exact take_of_length_le hfits

/-- **Request framing.** The router gets what the client wrote exactly if the frame arrives in one
piece and fits the buffer. -/
theorem routed_body_iff (pool : AlignedBufferPool) (type : RequestType) (body : List UInt8)
    {stream : List (List UInt8)} (hsplits : Splits stream (frame type body)) :
    ((handleConnection pool stream).1 = some (type, body) ∧ ∀ authorize routed,
          (handleAuthenticatedConnection authorize pool stream).1 = some routed →
            routed = (type, body)) ↔
      stream = [frame type body] ∧ body.length ≤ 8191 := by
  obtain ⟨start, rest, hstream, hbody⟩ := hsplits.exists_cons
  rw [← take_eq_body_iff hsplits hstream hbody]
  simp only [handleConnection, handleAuthenticatedConnection, serveStream_fst, hstream,
    handed_frame]
  constructor
  · rintro ⟨hplain, -⟩
    simpa using hplain
  · intro htake
    rw [htake]
    refine ⟨by simp, ?_⟩
    intro authorize routed hrouted
    split at hrouted
    · exact (Option.some.inj hrouted).symm
    · cases hrouted

def usedPool : AlignedBufferPool where
  pools index := if index = 1 then [List.replicate 8192 7] else []
  maxBuffersPerSize := 10

theorem routed_body_iff_metadata : Splits [frame .metadata [1, 2]] (frame .metadata [1, 2]) ∧
      (handleConnection usedPool [frame .metadata [1, 2]]).1 = some (.metadata, [1, 2]) := by
  have hsplits : Splits [frame .metadata [1, 2]] (frame .metadata [1, 2]) := by
    constructor
    · rfl
    · intro piece hpiece
      rw [mem_singleton.mp hpiece]
      exact cons_ne_nil _ _
  have hfits : ([1, 2] : List UInt8).length ≤ 8191 := by decide
  exact ⟨hsplits, ((routed_body_iff usedPool .metadata [1, 2] hsplits).mpr ⟨rfl, hfits⟩).1⟩

/-- The second of two pieces is lost. -/
theorem second_piece_lost : [[3, 1], [2]].flatten = frame .metadata [1, 2] ∧
      (handleConnection usedPool [[3, 1], [2]]).1 = some (.metadata, [1]) ∧
      (handleAuthenticatedConnection (fun _ _ => true) usedPool [[3, 1], [2]]).1 =
        some (.metadata, [1]) := by
  simp only [handleConnection, handleAuthenticatedConnection, serveStream_fst]
  decide

end RustMq.Server
