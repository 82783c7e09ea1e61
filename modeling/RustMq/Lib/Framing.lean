import RustMq.Lib.Codec

/-!
# Length-prefixed frames closed by a zero length

A stream of frames, each a 64-bit little-endian length followed by that many bytes, read by
the loop every such format has: stop when fewer than eight bytes are left, when the length is
zero, or when the announced body runs past the end; otherwise take the body and go on.

`Stops` is that three-way exit as a predicate on what is left of the buffer, and `walk_frames` is
the law: over whole frames followed by bytes at which the loop stops, the walk returns exactly the
frames, each at its own position. What a caller needs about padding and cut-off tails is a fact
about `Stops`.
-/

namespace RustMq.Lib

open List

/-- A frame body: not empty, since a zero length is the end marker, and short enough for the
64-bit prefix. -/
structure Body where
  bytes : List UInt8
  ne_nil : bytes ≠ []
  length_lt : bytes.length < 256 ^ 8
  deriving DecidableEq

/-- The bytes of one frame. -/
def frame (b : Body) : List UInt8 := leBytes 8 b.bytes.length ++ b.bytes

/-- The bytes of a run of frames. -/
def frames (bs : List Body) : List UInt8 := bs.flatMap frame

/-- Where each body of a run lies when the run starts at `pos`. -/
def located : Nat → List Body → List (Nat × List UInt8)
  | _, [] => []
  | pos, b :: bs => (pos + 8, b.bytes) :: located (pos + 8 + b.bytes.length) bs

/-- The walk ends here: too few bytes for a length, a zero length, or a body that runs past
the end. -/
def Stops (rest : List UInt8) : Prop :=
  rest.length < 8 ∨ ofLe (rest.take 8) = 0 ∨ rest.length < 8 + ofLe (rest.take 8)

instance (rest : List UInt8) : Decidable (Stops rest) := by
  unfold Stops; infer_instance

/-- The frame walk over what is left of a buffer whose first byte has position `pos`. -/
def walk : Nat → Nat → List UInt8 → List (Nat × List UInt8)
  | 0, _, _ => []
  | fuel + 1, pos, rest =>
    if Stops rest then []
    else
      let n := ofLe (rest.take 8)
      (pos + 8, (rest.drop 8).take n) :: walk fuel (pos + 8 + n) (rest.drop (8 + n))

/-! ## Sizes -/

@[simp] theorem length_frame (b : Body) : (frame b).length = 8 + b.bytes.length := by
  simp [frame]

theorem frame_ne_nil (b : Body) : frame b ≠ [] := by
  intro h
  have := congrArg length h
  simp at this

theorem Body.length_pos (b : Body) : 0 < b.bytes.length :=
  length_pos_iff.mpr b.ne_nil

@[simp] theorem frames_nil : frames [] = [] := rfl

@[simp] theorem frames_cons (b : Body) (bs : List Body) :
    frames (b :: bs) = frame b ++ frames bs := rfl

@[simp] theorem frames_append (bs cs : List Body) : frames (bs ++ cs) = frames bs ++ frames cs := by
  simp [frames]

/-- A frame is at least one byte long, so a run has no more frames than bytes. -/
theorem length_le_length_frames (bs : List Body) : bs.length ≤ (frames bs).length := by
  induction bs with
  | nil => simp
  | cons b bs ih =>
    simp only [length_cons, frames_cons, length_append, length_frame]
    omega

theorem length_located (pos : Nat) (bs : List Body) : (located pos bs).length = bs.length := by
  induction bs generalizing pos with
  | nil => rfl
  | cons b bs ih => simp [located, ih]

/-! ## Where the walk stops -/

theorem stops_nil : Stops [] := Or.inl (by simp)

theorem stops_replicate_zero (n : Nat) : Stops (List.replicate n 0) := by
  refine .inr (.inl ?_)
  rw [take_replicate, ofLe_replicate_zero]

/-- The length a frame announces is its body's, whatever follows. -/
theorem ofLe_take_frame (b : Body) (rest : List UInt8) :
    ofLe ((frame b ++ rest).take 8) = b.bytes.length := by
  have htake : (frame b ++ rest).take 8 = leBytes 8 b.bytes.length := by
    rw [frame, append_assoc, take_left' (length_leBytes 8 _)]
  rw [htake, ofLe_leBytes_of_lt b.length_lt]

theorem not_stops_frame (b : Body) (rest : List UInt8) : ¬ Stops (frame b ++ rest) := by
  have hpos := b.length_pos
  rintro (h | h | h)
  · simp only [length_append, length_frame] at h; omega
  · rw [ofLe_take_frame] at h; omega
  · rw [ofLe_take_frame] at h
    simp only [length_append, length_frame] at h
    omega

/-- A frame cut short stops the walk: either its length is incomplete, or the length is whole
and announces a body that is not all there. -/
theorem stops_of_isPrefix {b : Body} {part : List UInt8} (hp : part <+: frame b)
    (hne : part ≠ frame b) : Stops part := by
  have hlt : part.length < (frame b).length :=
    lt_of_le_of_ne hp.length_le (fun h => hne (hp.eq_of_length h))
  rcases Nat.lt_or_ge part.length 8 with h8 | h8
  · exact .inl h8
  · refine .inr (.inr ?_)
    obtain ⟨rest, hrest⟩ := hp
    have htake : part.take 8 = (frame b ++ []).take 8 := by
      rw [append_nil, ← hrest, take_append_of_le_length h8]
    rw [htake, ofLe_take_frame]
    simpa using hlt

/-! ## The law of the walk -/

variable {rest : List UInt8} {bs : List Body}

theorem walk_of_stops (h : Stops rest) (fuel pos : Nat) : walk fuel pos rest = [] := by
  cases fuel with
  | zero => rfl
  | succ fuel => rw [walk, if_pos h]

theorem drop_frame (b : Body) (rest : List UInt8) : (frame b ++ rest).drop 8 = b.bytes ++ rest := by
  rw [frame, append_assoc, drop_left' (length_leBytes 8 _)]

theorem walk_frame (fuel pos : Nat) (b : Body) (rest : List UInt8) :
    walk (fuel + 1) pos (frame b ++ rest) =
      (pos + 8, b.bytes) :: walk fuel (pos + 8 + b.bytes.length) rest := by
  have hdrop : (frame b ++ rest).drop (8 + b.bytes.length) = rest := by
    rw [← drop_drop, drop_frame, drop_left' rfl]
  rw [walk, if_neg (not_stops_frame b rest)]
  simp only [ofLe_take_frame, drop_frame, hdrop, take_left' rfl]

/-- **The walk reads a run of frames back**, each body at its own position, and goes on behind
the run. -/
theorem walk_frames (bs : List Body) (rest : List UInt8) (fuel pos : Nat) :
    walk (bs.length + fuel) pos (frames bs ++ rest) =
      located pos bs ++ walk fuel (pos + (frames bs).length) rest := by
  induction bs generalizing pos with
  | nil => simp [located]
  | cons b bs ih =>
    have hfuel : (b :: bs).length + fuel = (bs.length + fuel) + 1 := by
      simp only [length_cons]; omega
    have hpos :
        pos + (frames (b :: bs)).length = pos + 8 + b.bytes.length + (frames bs).length := by
      simp only [frames_cons, length_append, length_frame]; omega
    rw [frames_cons, append_assoc, hfuel, walk_frame, ih, ← frames_cons, hpos]
    rfl

/-- The form callers use: the fuel is any bound on the bytes, and what follows stops the walk. -/
theorem walk_frames_of_stops (hs : Stops rest) {fuel : Nat} (hf : bs.length ≤ fuel) (pos : Nat) :
    walk fuel pos (frames bs ++ rest) = located pos bs := by
  obtain ⟨k, rfl⟩ := Nat.exists_eq_add_of_le hf
  rw [walk_frames, walk_of_stops hs, append_nil]

/-- Any bytes are whole frames and then bytes at which the walk stops. -/
theorem exists_frames (bytes : List UInt8) : ∃ bs rest, bytes = frames bs ++ rest ∧ Stops rest := by
  induction hlen : bytes.length using Nat.strong_induction_on generalizing bytes with
  | _ len ih =>
    by_cases hstops : Stops bytes
    · exact ⟨[], bytes, rfl, hstops⟩
    · obtain ⟨h8, h0, hend⟩ : ¬ bytes.length < 8 ∧ ofLe (bytes.take 8) ≠ 0 ∧
          ¬ bytes.length < 8 + ofLe (bytes.take 8) := by simpa [Stops] using hstops
      have htake : (bytes.take 8).length = 8 := by rw [length_take]; omega
      have hbody : ((bytes.drop 8).take (ofLe (bytes.take 8))).length = ofLe (bytes.take 8) := by
        rw [length_take, length_drop]
        omega
      have hlt := ofLe_lt (bytes.take 8)
      rw [htake] at hlt
      obtain ⟨bs, rest, hrest, hs⟩ := ih _ (by rw [length_drop]; omega)
        (bytes.drop (8 + ofLe (bytes.take 8))) rfl
      refine ⟨⟨_, ne_nil_of_length_pos (by omega), hbody.trans_lt hlt⟩ :: bs, rest, ?_, hs⟩
      have hprefix := leBytes_ofLe (bytes.take 8)
      rw [htake] at hprefix
      rw [frames_cons, frame]
      dsimp only
      rw [hbody, hprefix, append_assoc, append_assoc, ← hrest, ← drop_drop, take_append_drop,
        take_append_drop]

/-! ## Cutting a run of frames -/

/-- A run that is no longer in bytes is no longer in frames. -/
theorem le_of_length_frames_take_le {j k : Nat} (hk : k ≤ bs.length)
    (h : (frames (bs.take k)).length ≤ (frames (bs.take j)).length) : k ≤ j := by
  rcases Nat.lt_or_ge j k with hjk | hjk
  · have hsplit : bs.take k = bs.take j ++ (bs.drop j).take (k - j) := by
      rw [← take_add, Nat.add_sub_cancel' hjk.le]
    have hmore := length_le_length_frames ((bs.drop j).take (k - j))
    rw [length_take, length_drop] at hmore
    rw [hsplit, frames_append, length_append] at h
    omega
  · exact hjk

/-- A cut of a run of frames leaves whole frames and then bytes at which the walk stops; the
whole frames are all those that fit in front of the cut. -/
theorem exists_take_frames (bs : List Body) (n : Nat) :
    ∃ j part, (frames bs).take n = frames (bs.take j) ++ part ∧ Stops part ∧ j ≤ bs.length ∧
      ∀ k, k ≤ bs.length → (frames (bs.take k)).length ≤ n → k ≤ j := by
  obtain ⟨j, part, hcut, hj, hpart, hmax⟩ := exists_take_flatMap frame bs [] n
  rw [append_nil] at hcut
  refine ⟨j, part, hcut, ?_, hj, hmax⟩
  rcases hpart with hnil | ⟨b, -, hpre, hlt⟩
  · rw [prefix_nil.mp hnil]
    exact stops_nil
  · exact stops_of_isPrefix hpre fun h => lt_irrefl _ (h ▸ hlt)

/-! ## Framing the values of a codec -/

/-- A codec whose encodings can stand in a frame. -/
structure FramedCodec (α : Type) extends Codec α where
  enc_ne_nil : ∀ a, enc a ≠ []
  enc_length_lt : ∀ a, Fits a → (enc a).length < 256 ^ 8

namespace FramedCodec

variable {α : Type}

/-- The frame body of a value. -/
def body (c : FramedCodec α) (a : c.toCodec.Val) : Body :=
  ⟨c.enc a.1, c.enc_ne_nil a.1, c.enc_length_lt a.1 a.2⟩

theorem decode_body (c : FramedCodec α) (a : c.toCodec.Val) :
    c.toCodec.decode (c.body a).bytes = some a.1 := by
  have h := c.toCodec.decode_enc a.2 []
  rwa [append_nil] at h

end FramedCodec
end RustMq.Lib
