import RustMq.Lib.Codec

/-!
# Length-prefixed frames closed by a checksum

A log of values, each a frame of a 32-bit length, the encoded value and a 32-bit checksum of it,
all little-endian. The scan reads frames from the left and stops at the first one that is not all
there, whose checksum does not match, or that does not decode; it returns the values and the number
of bytes it has read.
-/

namespace RustMq.Lib

open List

/-- Two variants behind a 32-bit tag. -/
def Codec.either {α β : Type} (c : Codec α) (d : Codec β) : Codec (α ⊕ β) where
  enc
    | .inl a => leBytes 4 0 ++ c.enc a
    | .inr b => leBytes 4 1 ++ d.enc b
  dec bs := do
    let (tag, rest) ← (Codec.uint 4).dec bs
    if tag = 0 then (c.dec rest).map fun p => (.inl p.1, p.2)
    else if tag = 1 then (d.dec rest).map fun p => (.inr p.1, p.2)
    else none
  Fits
    | .inl a => c.Fits a
    | .inr b => d.Fits b
  dec_enc v rest h := by
    cases v with
    | inl a =>
      have htag := (Codec.uint 4).dec_enc 0 (c.enc a ++ rest) (by show 0 < 256 ^ 4; decide)
      have hassoc : leBytes 4 0 ++ c.enc a ++ rest = (Codec.uint 4).enc 0 ++ (c.enc a ++ rest) := by
        rw [List.append_assoc]
        rfl
      rw [hassoc, htag]
      simp only [Option.bind_eq_bind, Option.bind_some, if_true, c.dec_enc a rest h, Option.map_some]
    | inr b =>
      have htag := (Codec.uint 4).dec_enc 1 (d.enc b ++ rest) (by show 1 < 256 ^ 4; decide)
      have hassoc : leBytes 4 1 ++ d.enc b ++ rest = (Codec.uint 4).enc 1 ++ (d.enc b ++ rest) := by
        rw [List.append_assoc]
        rfl
      rw [hassoc, htag]
      simp only [Option.bind_eq_bind, Option.bind_some, d.dec_enc b rest h, Option.map_some]
      rfl

/-- A format for the values and a checksum of their encodings. -/
structure CheckedFormat (α : Type) where
  codec : Codec α
  checksum : List UInt8 → Nat
  checksum_lt : ∀ bytes, checksum bytes < 256 ^ 4

namespace CheckedFormat

variable {α : Type} (f : CheckedFormat α)

/-- The bytes of one frame. A longer encoding loses the high bytes of its length. -/
def frame (a : α) : List UInt8 :=
  leBytes 4 (f.codec.enc a).length ++ (f.codec.enc a ++ leBytes 4 (f.checksum (f.codec.enc a)))

def frames (as : List α) : List UInt8 := as.flatMap f.frame

/-- The value can be read back from its frame. -/
def Storable (a : α) : Prop := f.codec.Fits a ∧ (f.codec.enc a).length < 256 ^ 4

/-- The scan: the values read and the bytes they take. -/
def scan : (fuel : Nat) → List UInt8 → List α × Nat
  | 0, _ => ([], 0)
  | fuel + 1, rest =>
    if rest.length < 4 then ([], 0)
    else
      let n := ofLe (rest.take 4)
      if rest.length < 8 + n then ([], 0)
      else
        let body := (rest.drop 4).take n
        if f.checksum body ≠ ofLe ((rest.drop (4 + n)).take 4) then ([], 0)
        else
          match f.codec.decode body with
          | none => ([], 0)
          | some a =>
            let result := scan fuel (rest.drop (8 + n))
            (a :: result.1, 8 + n + result.2)

/-- A frame cut short. -/
def Torn (part : List UInt8) : Prop :=
  ∃ a, f.Storable a ∧ part <+: f.frame a ∧ part.length < (f.frame a).length

/-! ## Sizes -/

theorem length_frame (a : α) : (f.frame a).length = 8 + (f.codec.enc a).length := by
  unfold frame
  rw [length_append, length_append, length_leBytes, length_leBytes]
  omega

theorem frames_cons (a : α) (as : List α) : f.frames (a :: as) = f.frame a ++ f.frames as :=
  flatMap_cons

theorem frames_append (as bs : List α) : f.frames (as ++ bs) = f.frames as ++ f.frames bs :=
  flatMap_append

theorem frames_singleton (a : α) : f.frames [a] = f.frame a := by
  rw [frames_cons]
  exact append_nil _

theorem length_le_length_frames (as : List α) : as.length ≤ (f.frames as).length := by
  induction as with
  | nil => exact Nat.zero_le _
  | cons a as ih =>
    rw [frames_cons, length_append, length_frame, length_cons]
    omega

/-! ## Reading -/

variable {f} {a : α} {as : List α}

theorem take_frame (h : f.Storable a) {bytes : List UInt8} (hpre : 4 ≤ bytes.length)
    (rest : List UInt8) (hbytes : bytes <+: f.frame a ++ rest) :
    ofLe (bytes.take 4) = (f.codec.enc a).length := by
  obtain ⟨more, hmore⟩ := hbytes
  have htake : bytes.take 4 = leBytes 4 (f.codec.enc a).length := by
    have hfirst : (bytes ++ more).take 4 = bytes.take 4 := take_append_of_le_length hpre
    rw [← hfirst, hmore, frame, append_assoc, take_left' (length_leBytes 4 _)]
  rw [htake, ofLe_leBytes_of_lt h.2]

variable {part : List UInt8}

theorem scan_torn (h : f.Torn part) (fuel : Nat) : f.scan fuel part = ([], 0) := by
  obtain ⟨a, ha, hpre, hlt⟩ := h
  cases fuel with
  | zero => rfl
  | succ fuel =>
    unfold scan
    by_cases hshort : part.length < 4
    · rw [if_pos hshort]
    · have hlen := take_frame ha (not_lt.mp hshort) [] (by rwa [append_nil])
      rw [length_frame] at hlt
      simp only [if_neg hshort, hlen, if_pos hlt]

theorem scan_frame (h : f.Storable a) (fuel : Nat) (rest : List UInt8) :
    f.scan (fuel + 1) (f.frame a ++ rest) =
      (a :: (f.scan fuel rest).1, (f.frame a).length + (f.scan fuel rest).2) := by
  have hlong : (f.frame a ++ rest).length = 8 + (f.codec.enc a).length + rest.length := by
    rw [length_append, length_frame]
  have hlen : ofLe ((f.frame a ++ rest).take 4) = (f.codec.enc a).length :=
    take_frame h (by omega) rest (prefix_refl _)
  have hbody : ((f.frame a ++ rest).drop 4).take (f.codec.enc a).length = f.codec.enc a := by
    rw [frame, append_assoc, drop_left' (length_leBytes 4 _), append_assoc, take_left' rfl]
  have hsum : ((f.frame a ++ rest).drop (4 + (f.codec.enc a).length)).take 4 =
      leBytes 4 (f.checksum (f.codec.enc a)) := by
    rw [frame, ← drop_drop, append_assoc, drop_left' (length_leBytes 4 _),
      append_assoc, drop_left' rfl, take_left' (length_leBytes 4 _)]
  have hrest : (f.frame a ++ rest).drop (8 + (f.codec.enc a).length) = rest :=
    drop_left' (f.length_frame a)
  have hdec : f.codec.decode (f.codec.enc a) = some a := by
    have := f.codec.decode_enc h.1 []
    rwa [append_nil] at this
  rw [scan, if_neg (by omega)]
  simp only [hlen, hlong, hbody, hsum, hrest, hdec, ofLe_leBytes_of_lt (f.checksum_lt _),
    length_frame]
  rw [if_neg (by omega), if_neg (not_not.mpr rfl)]

/-- **The scan reads a run of frames back** and stops at what is torn. -/
theorem scan_frames (has : ∀ a ∈ as, f.Storable a) (hpart : f.Torn part) {fuel : Nat}
    (hfuel : as.length ≤ fuel) :
    f.scan fuel (f.frames as ++ part) = (as, (f.frames as).length) := by
  induction as generalizing fuel with
  | nil => exact scan_torn hpart fuel
  | cons a as ih =>
    obtain ⟨fuel, rfl⟩ : ∃ k, fuel = k + 1 := ⟨fuel - 1, by rw [length_cons] at hfuel; omega⟩
    rw [frames_cons, append_assoc, scan_frame (has a mem_cons_self),
      ih (fun b hb => has b (mem_cons_of_mem _ hb)) (Nat.le_of_succ_le_succ hfuel),
      length_append]

/-! ## Cutting -/

theorem Torn.nil (h : f.Storable a) : f.Torn [] :=
  ⟨a, h, nil_prefix, by rw [length_frame, length_nil]; omega⟩

theorem Torn.take_frame (h : f.Storable a) {n : Nat} (hn : n < (f.frame a).length) :
    f.Torn ((f.frame a).take n) :=
  ⟨a, h, take_prefix n _, by rw [length_take]; omega⟩

/-- A cut of a log leaves a run of its frames and torn bytes; every run that ends in front of the
cut is among the frames left. -/
theorem exists_take_frames (has : ∀ a ∈ as, f.Storable a) (hpart : f.Torn part) (n : Nat) :
    ∃ j part', (f.frames as ++ part).take n = f.frames (as.take j) ++ part' ∧ f.Torn part' ∧
      ∀ k ≤ as.length, (f.frames (as.take k)).length ≤ n → k ≤ j := by
  obtain ⟨j, part', hcut, -, hpart', hmax⟩ := exists_take_flatMap f.frame as part n
  refine ⟨j, part', hcut, ?_, hmax⟩
  rcases hpart' with hpre | ⟨a, ha, htorn⟩
  · obtain ⟨a, ha, hpart, hlt⟩ := hpart
    exact ⟨a, ha, hpre.trans hpart, hpre.length_le.trans_lt hlt⟩
  · exact ⟨a, has a ha, htorn⟩

end CheckedFormat

end RustMq.Lib
