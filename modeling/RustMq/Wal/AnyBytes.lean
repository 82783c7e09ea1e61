import RustMq.Wal.Log

/-!
# Walking any bytes

A crash may leave anything in a segment file, so `walk_frames` meets lengths nobody wrote. What it
returns is in order whatever the bytes are, and bytes behind the last complete frame only add to it. But `body_start + body_len` is an addition of `usize`: a length close to `2 ^ 64` overflows it,
where a `checked_add` like that of the manifest's loader would end the walk.
-/

namespace RustMq.Wal

open Lib List

/-- `walk_frames` with the addition of the code: `none` where it leaves 64 bits. Positions stay
within the buffer, so no other addition can. -/
def walkFramesUsizeFrom (buf : List UInt8) : Nat → Nat → Option (List (Nat × List UInt8))
  | 0, _ => some []
  | fuel + 1, pos =>
    if pos + frameLenPrefix ≤ buf.length then
      let bodyLen := ofLe ((buf.drop pos).take 8)
      if bodyLen = 0 then some []
      else
        let bodyStart := pos + 8
        let bodyEnd := bodyStart + bodyLen
        if 2 ^ 64 ≤ bodyEnd then none
        else if buf.length < bodyEnd then some []
        else (walkFramesUsizeFrom buf fuel bodyEnd).map
          ((bodyStart, (buf.drop bodyStart).take bodyLen) :: ·)
    else some []

def walkFramesUsize (buf : List UInt8) : Option (List (Nat × List UInt8)) :=
  walkFramesUsizeFrom buf buf.length headerSize

/-- The bytes from `pos` on begin with a length that is too large. -/
def Overflows (pos : Nat) (rest : List UInt8) : Prop :=
  8 ≤ rest.length ∧ 2 ^ 64 ≤ pos + 8 + ofLe (rest.take 8)

instance (pos : Nat) (rest : List UInt8) : Decidable (Overflows pos rest) :=
  inferInstanceAs (Decidable (_ ∧ _))

/-- Frames behind `pos`: not empty, inside the buffer, each behind the one before. -/
def WellFormed (buf : List UInt8) : Nat → List (Nat × List UInt8) → Prop
  | _, [] => True
  | pos, (start, body) :: found =>
    pos < start ∧ body ≠ [] ∧ start + body.length ≤ buf.length ∧
      body = (buf.drop start).take body.length ∧ WellFormed buf (start + body.length) found

/-- A slice in memory: Rust has none of more than `isize::MAX` bytes. -/
structure Slice where
  bytes : List UInt8
  length_lt : bytes.length < 2 ^ 63

variable {buf rest : List UInt8} {pos fuel : Nat} {bs : List Body}

/-- What the loop sees at a frame. -/
theorem of_drop_eq_frame {b : Body} (h : buf.drop pos = frame b ++ rest) :
    pos + 8 + b.bytes.length ≤ buf.length ∧ (buf.drop (pos + 8)).take b.bytes.length = b.bytes ∧
      buf.drop (pos + 8 + b.bytes.length) = rest := by
  have hlen := congrArg length h
  rw [length_drop, length_append, length_frame] at hlen
  have hpos := b.length_pos
  have hbody : buf.drop (pos + 8) = b.bytes ++ rest := by rw [← drop_drop, h, drop_frame]
  exact ⟨by omega, by rw [hbody, take_left' rfl], by rw [← drop_drop, hbody, drop_left' rfl]⟩

theorem wellFormed_located (h : buf.drop pos = frames bs ++ rest) :
    WellFormed buf pos (located pos bs) := by
  induction bs generalizing pos with
  | nil => trivial
  | cons b bs ih =>
    rw [frames_cons, append_assoc] at h
    obtain ⟨hend, hbody, hrest⟩ := of_drop_eq_frame h
    exact ⟨by omega, b.ne_nil, hend, hbody.symm, ih hrest⟩

theorem walkFramesUsizeFrom_eq (hbuf : buf.length < 2 ^ 63) (hs : Stops rest)
    (h : buf.drop pos = frames bs ++ rest) (hfuel : buf.length ≤ pos + fuel) :
    walkFramesUsizeFrom buf fuel pos =
      if Overflows (pos + (frames bs).length) rest then none else some (located pos bs) := by
  induction bs generalizing pos fuel with
  | nil =>
    rw [frames_nil, nil_append] at h
    have hlen := congrArg length h
    rw [length_drop] at hlen
    rw [Stops] at hs
    cases fuel with
    | zero =>
      refine (if_neg fun hover : Overflows _ _ => ?_).symm
      have := hover.1
      omega
    | succ fuel =>
      have hover : Overflows (pos + (frames []).length) rest ↔
          8 ≤ rest.length ∧ 2 ^ 64 ≤ pos + 8 + ofLe (rest.take 8) := Iff.rfl
      simp only [hover, walkFramesUsizeFrom, located, h, frameLenPrefix]
      split_ifs
      all_goals first | rfl | omega
  | cons b bs ih =>
    rw [frames_cons, append_assoc] at h
    obtain ⟨hend, hbody, hrest⟩ := of_drop_eq_frame h
    have hpos := b.length_pos
    obtain ⟨fuel, rfl⟩ : ∃ n, fuel = n + 1 := Nat.exists_eq_succ_of_ne_zero (by omega)
    rw [walkFramesUsizeFrom, h, ofLe_take_frame, if_pos (by rw [frameLenPrefix]; omega)]
    dsimp only
    rw [if_neg (by omega), if_neg (by omega), if_neg (by omega), hbody, ih hrest (by omega),
      frames_cons, length_append, length_frame, ← Nat.add_assoc, ← Nat.add_assoc, located]
    split_ifs <;> rfl

/-- Whatever follows the last complete frame, the frames before it are there. -/
theorem exists_extension {other : List UInt8} (h : buf.drop headerSize = frames bs ++ rest)
    (hother : buf.take (headerSize + (frames bs).length) <+: other) :
    ∃ bs' rest', other.drop headerSize = frames (bs ++ bs') ++ rest' ∧ Stops rest' := by
  obtain ⟨tail, htail⟩ : ∃ tail, other.drop headerSize = frames bs ++ tail := by
    cases bs with
    | nil => exact ⟨_, rfl⟩
    | cons b bs =>
      obtain ⟨tail, rfl⟩ := hother
      have hlen := congrArg length h
      have hb := b.length_pos
      rw [length_drop, length_append, frames_cons, length_append, length_frame] at hlen
      refine ⟨tail, ?_⟩
      rw [drop_append_of_le_length (by rw [length_take]; omega), drop_take, h,
        Nat.add_sub_cancel_left, take_left' rfl]
  obtain ⟨bs', rest', hframes, hstops⟩ := exists_frames tail
  exact ⟨bs', rest', by rw [htail, hframes, frames_append, append_assoc], hstops⟩

theorem located_append (pos : Nat) (bs bs' : List Body) :
    located pos bs <+: located pos (bs ++ bs') := by
  induction bs generalizing pos with
  | nil => exact nil_prefix
  | cons b bs ih => exact (prefix_cons_inj _).mpr (ih _)

/-- **What `walk_frames` does on any bytes.** They are complete frames and bytes at which the walk
ends. It overflows exactly if the length behind the last frame is too large, and otherwise returns
these frames; more turns would not change them. With other bytes behind the last frame it overflows
or not by the same test, made behind the last frame there, and what it returns begins with the same
frames. -/
theorem walkFrames_anyBytes (buf : Slice) : ∃ bs rest,
    let last := headerSize + (frames bs).length
    buf.bytes.drop headerSize = frames bs ++ rest ∧
    walkFramesUsize buf.bytes =
      (if Overflows last rest then none else some (walkFrames buf.bytes)) ∧
    walkFrames buf.bytes = located headerSize bs ∧
    WellFormed buf.bytes headerSize (walkFrames buf.bytes) ∧
    (∀ more, walkFramesFrom buf.bytes (buf.bytes.length + more) headerSize =
      walkFrames buf.bytes) ∧
    ∀ other : Slice, buf.bytes.take last <+: other.bytes → ∃ bs' rest' found,
      let last' := headerSize + (frames (bs ++ bs')).length
      other.bytes.drop headerSize = frames (bs ++ bs') ++ rest' ∧
      walkFramesUsize other.bytes = (if Overflows last' rest' then none else some found) ∧
      walkFrames buf.bytes <+: found := by
  obtain ⟨bs, rest, h, hs⟩ := exists_frames (buf.bytes.drop headerSize)
  have hlen := congrArg length h
  rw [length_drop, length_append] at hlen
  have hcount := length_le_length_frames bs
  have hfound : ∀ more, walkFramesFrom buf.bytes (buf.bytes.length + more) headerSize =
      located headerSize bs := by
    intro more
    rw [walkFramesFrom_eq_walk, h]
    exact walk_frames_of_stops hs (by omega) _
  have hwalk : walkFrames buf.bytes = located headerSize bs := hfound 0
  refine ⟨bs, rest, h, ?_, hwalk, hwalk ▸ wellFormed_located h, fun more => ?_, ?_⟩
  · rw [hwalk]
    exact walkFramesUsizeFrom_eq buf.length_lt hs h (Nat.le_add_left _ _)
  · rw [hwalk, hfound]
  · intro other hother
    obtain ⟨bs', rest', h', hs'⟩ := exists_extension h hother
    refine ⟨bs', rest', _, h', ?_, hwalk ▸ located_append headerSize bs bs'⟩
    exact walkFramesUsizeFrom_eq other.length_lt hs' h' (Nat.le_add_left _ _)

/-- A header, and behind it a length with all bits set. -/
theorem walkFrames_overflows :
    walkFramesUsize (replicate headerSize 0 ++ replicate 8 255) = none := by
  decide +kernel

end RustMq.Wal
