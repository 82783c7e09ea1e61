import Mathlib

/-!
# Files written in zero-padded blocks

A file that holds a growing stream of bytes but may only be written in whole blocks, the last one
filled up with zeros. It always holds `zeroPad B (s.take n)`, and `overwrite_zeroPad` is the law
that keeps it so: writing the piece of the stream from a block boundary `b` up to `e` leaves the
first `max n e` bytes. The one way to lose bytes is to write a short last block over a longer one,
which the side condition `B ∣ e ∨ n ≤ e` rules out.
-/

namespace RustMq.Lib

open List

/-- The least multiple of `B` that is at least `n`. -/
def roundUp (B n : Nat) : Nat := (n + (B - 1)) / B * B

/-- The bytes filled up with zeros to a whole number of blocks. -/
def zeroPad (B : Nat) (s : List UInt8) : List UInt8 :=
  s ++ List.replicate (roundUp B s.length - s.length) 0

/-- Writing `buf` at offset `off`, as a positioned write does: a gap before `off` reads as
zeros, bytes behind the written range stay. -/
def overwrite (data : List UInt8) (off : Nat) (buf : List UInt8) : List UInt8 :=
  data.take off ++ List.replicate (off - data.length) 0 ++ buf ++ data.drop (off + buf.length)

/-! ## Rounding -/

variable {s : List UInt8}

section

variable {B : Nat} (hB : 0 < B) {n : Nat}

theorem dvd_roundUp (B n : Nat) : B ∣ roundUp B n := Dvd.intro_left _ rfl

include hB

theorem le_roundUp (n : Nat) : n ≤ roundUp B n := by
  have h := Nat.div_add_mod (n + (B - 1)) B
  have hlt := Nat.mod_lt (n + (B - 1)) hB
  rw [Nat.mul_comm] at h
  unfold roundUp
  omega

theorem roundUp_of_dvd (h : B ∣ n) : roundUp B n = n := by
  obtain ⟨k, rfl⟩ := h
  have hdiv : (B * k + (B - 1)) / B = k := by
    rw [Nat.mul_add_div hB, Nat.div_eq_of_lt (by omega), Nat.add_zero]
  rw [roundUp, hdiv, Nat.mul_comm]

/-- A block boundary at or past `n` is at or past the rounding of `n`. -/
theorem roundUp_le_of_dvd {e : Nat} (h : B ∣ e) (hn : n ≤ e) : roundUp B n ≤ e := by
  obtain ⟨k, rfl⟩ := h
  have hle : (n + (B - 1)) / B ≤ k := by
    rw [Nat.div_le_iff_le_mul_add_pred hB]
    omega
  calc roundUp B n ≤ k * B := Nat.mul_le_mul_right B hle
    _ = B * k := Nat.mul_comm k B

theorem roundUp_mono {m : Nat} (h : n ≤ m) : roundUp B n ≤ roundUp B m :=
  roundUp_le_of_dvd hB (dvd_roundUp B m) (h.trans (le_roundUp hB m))

theorem roundUp_add_of_dvd {b : Nat} (h : B ∣ b) (m : Nat) :
    roundUp B (b + m) = b + roundUp B m := by
  obtain ⟨k, rfl⟩ := h
  have hdiv : (B * k + m + (B - 1)) / B = k + (m + (B - 1)) / B := by
    rw [Nat.add_assoc, Nat.mul_add_div hB]
  rw [roundUp, roundUp, hdiv, Nat.add_mul, Nat.mul_comm k B]

/-! ## Padding -/

theorem length_zeroPad (s : List UInt8) : (zeroPad B s).length = roundUp B s.length := by
  have := le_roundUp hB s.length
  simp only [zeroPad, length_append, length_replicate]
  omega

theorem zeroPad_of_dvd (h : B ∣ s.length) : zeroPad B s = s := by
  rw [zeroPad, roundUp_of_dvd hB h, Nat.sub_self, replicate_zero, append_nil]

/-- Whole blocks in front of a stream do not change its padding. -/
theorem zeroPad_append_of_dvd {p : List UInt8} (h : B ∣ p.length) (s : List UInt8) :
    zeroPad B (p ++ s) = p ++ zeroPad B s := by
  have hr : roundUp B (p ++ s).length - (p ++ s).length = roundUp B s.length - s.length := by
    rw [length_append, roundUp_add_of_dvd hB h]
    omega
  rw [zeroPad, hr, zeroPad, append_assoc]

/-- The leading blocks of a padded piece are a padded piece, cut at a block boundary unless
they are all of it. -/
theorem take_zeroPad_mul (s : List UInt8) (w : Nat) :
    ∃ m ≤ s.length, (zeroPad B s).take (B * w) = zeroPad B (s.take m) ∧ (B ∣ m ∨ m = s.length) := by
  rcases Nat.le_total (B * w) s.length with hw | hw
  · refine ⟨B * w, hw, ?_, Or.inl (Nat.dvd_mul_right B w)⟩
    have hlen : (s.take (B * w)).length = B * w := length_take_of_le hw
    have hdvd : B ∣ (s.take (B * w)).length := by rw [hlen]; exact Nat.dvd_mul_right B w
    rw [zeroPad_of_dvd hB hdvd, zeroPad, take_append_of_le_length hw]
  · refine ⟨s.length, le_rfl, ?_, Or.inr rfl⟩
    have hle : (zeroPad B s).length ≤ B * w := by
      rw [length_zeroPad hB]
      exact roundUp_le_of_dvd hB (Nat.dvd_mul_right B w) hw
    rw [take_of_length_le hle, take_length]

/-! ## Overwriting -/

omit hB in
/-- A write behind a whole header leaves the header alone. -/
theorem overwrite_append (hdr data : List UInt8) (off : Nat) (buf : List UInt8) :
    overwrite (hdr ++ data) (hdr.length + off) buf = hdr ++ overwrite data off buf := by
  have hgap : hdr.length + off - (hdr ++ data).length = off - data.length := by
    rw [length_append]; omega
  have hend : (hdr ++ data).drop (hdr.length + off + buf.length) = data.drop (off + buf.length) := by
    rw [Nat.add_assoc, ← drop_drop, drop_left]
  have htake : (hdr ++ data).take (hdr.length + off) = hdr ++ data.take off := by
    rw [take_append, take_of_length_le (by omega), Nat.add_sub_cancel_left]
  simp only [overwrite, hgap, hend, htake, append_assoc]

omit hB in
/-- A write to an empty file is what was written. -/
@[simp] theorem overwrite_nil (buf : List UInt8) : overwrite [] 0 buf = buf := by
  simp [overwrite]

/-- **A padded write keeps the file a padded stream.** -/
theorem overwrite_zeroPad (s : List UInt8) {b e : Nat} (hb : B ∣ b) (hbn : b ≤ n) (hbe : b ≤ e)
    (hn : n ≤ s.length) (he : e ≤ s.length) (hcut : B ∣ e ∨ n ≤ e) :
    overwrite (zeroPad B (s.take n)) b (zeroPad B ((s.take e).drop b)) =
      zeroPad B (s.take (max n e)) := by
  have hlenn : (s.take n).length = n := length_take_of_le hn
  have hlene : ((s.take e).drop b).length = e - b := by
    rw [length_drop, length_take_of_le he]
  have hsplit : ∀ m, b ≤ m → s.take b ++ (s.take m).drop b = s.take m := by
    intro m hm
    have := take_append_drop b (s.take m)
    rwa [take_take, Nat.min_eq_left hm] at this
  have hpre : B ∣ (s.take b).length := by rwa [length_take_of_le (hbn.trans hn)]
  have htake : (zeroPad B (s.take n)).take b = s.take b := by
    rw [zeroPad, take_append_of_le_length (by omega), take_take, Nat.min_eq_left hbn]
  have hgap : b - (zeroPad B (s.take n)).length = 0 := by
    rw [length_zeroPad hB, hlenn]
    have := le_roundUp hB n
    omega
  have hwritten : s.take b ++ zeroPad B ((s.take e).drop b) = zeroPad B (s.take e) := by
    rw [← zeroPad_append_of_dvd hB hpre, hsplit e hbe]
  have hend : b + (zeroPad B ((s.take e).drop b)).length = roundUp B e := by
    rw [length_zeroPad hB, hlene, ← roundUp_add_of_dvd hB hb, Nat.add_sub_cancel' hbe]
  rw [overwrite, htake, hgap, replicate_zero, append_nil, hwritten, hend]
  rcases Nat.lt_or_ge e n with hen | hne
  · -- a write that ends at a block boundary inside the file rewrites what was there
    have hde : B ∣ e := hcut.resolve_right (by omega)
    have htake' : (zeroPad B (s.take n)).take e = s.take e := by
      rw [zeroPad, take_append_of_le_length (by omega), take_take, Nat.min_eq_left hen.le]
    have hdvd : B ∣ (s.take e).length := by rwa [length_take_of_le he]
    rw [zeroPad_of_dvd hB hdvd, roundUp_of_dvd hB hde, Nat.max_eq_left hen.le, ← htake',
      take_append_drop]
  · -- the write reaches past everything the file held
    have hdrop : (zeroPad B (s.take n)).drop (roundUp B e) = [] := by
      apply drop_of_length_le
      rw [length_zeroPad hB, hlenn]
      exact roundUp_mono hB hne
    rw [hdrop, append_nil, Nat.max_eq_right hne]

end

/-! ## Crashes -/

/-- The block that starts at byte `B * i`. -/
def block (B i : Nat) (data : List UInt8) : List UInt8 := (data.drop (B * i)).take B

/-- What a crash may leave of a file that was last synced as `old` and has since been written to
be `new`: a whole number of blocks, no fewer than were synced, each of them as it was synced
(zeros where there was nothing) or as it was written. -/
structure Torn (B : Nat) (old new data : List UInt8) : Prop where
  aligned : B ∣ data.length
  le_length : old.length ≤ data.length
  length_le : data.length ≤ new.length
  blocks : ∀ i, B * i < data.length → block B i data = block B i new ∨
    block B i data = block B i (old ++ List.replicate (new.length - old.length) 0)

namespace Torn

variable {B : Nat} {old new data : List UInt8}

theorem getElem?_block {i j : Nat} (hj : j < B) (data : List UInt8) :
    (block B i data)[j]? = data[B * i + j]? := by
  rw [block, getElem?_take_of_lt hj, getElem?_drop]

/-- Every surviving byte is the synced or the written one. -/
theorem getElem? (h : Torn B old new data) {i : Nat} (hi : i < data.length) : data[i]? = new[i]? ∨
      data[i]? = (old ++ List.replicate (new.length - old.length) 0)[i]? := by
  have hB : 0 < B := by
    rcases Nat.eq_zero_or_pos B with rfl | hB
    · exact absurd (Nat.eq_zero_of_zero_dvd h.aligned) (by omega)
    · exact hB
  have hsplit := Nat.div_add_mod i B
  have hmod := Nat.mod_lt i hB
  have hget : ∀ l : List UInt8, l[i]? = (block B (i / B) l)[i % B]? := by
    intro l
    rw [getElem?_block hmod, hsplit]
  rcases h.blocks (i / B) (by omega) with hb | hb
  · left
    rw [hget data, hb, ← hget]
  · right
    rw [hget data, hb, ← hget]

/-- What a sync has reached a crash does not change: bytes that are the same synced and written
survive. -/
theorem take_eq (h : Torn B old new data) (hold : s <+: old) (hnew : s <+: new) : s <+: data := by
  have hlen : s.length ≤ data.length := hold.length_le.trans h.le_length
  refine prefix_iff_eq_take.mpr (ext_getElem? fun i => ?_)
  rcases Nat.lt_or_ge i s.length with hi | hi
  · rw [getElem?_take_of_lt hi]
    have hs : ∀ l, s <+: l → l[i]? = s[i]? := by
      intro l hl
      obtain ⟨rest, rfl⟩ := hl
      exact getElem?_append_left hi
    rcases h.getElem? (lt_of_lt_of_le hi hlen) with hd | hd
    · rw [hd, hs new hnew]
    · rw [hd, hs _ (hold.trans (prefix_append _ _))]
  · rw [getElem?_eq_none hi, getElem?_eq_none]
    rw [length_take]
    exact (min_le_left _ _).trans hi

theorem refl_of_synced (h : B ∣ new.length) : Torn B new new new :=
  ⟨h, le_rfl, le_rfl, fun _ _ => Or.inl rfl⟩

/-- A file that was synced after its last write survives as it is. -/
theorem eq_of_synced (h : Torn B new new data) : data = new :=
  ((h.take_eq prefix_rfl prefix_rfl).eq_of_length (le_antisymm h.le_length h.length_le)).symm

end Torn

end RustMq.Lib
