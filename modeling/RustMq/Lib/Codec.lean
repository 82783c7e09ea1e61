import RustMq.Lib.LittleEndian

/-!
# Binary codecs that carry their round trip

A `Codec α` is an encoder, a decoder that returns what it did not consume, the set of values the
wire format can represent (`Fits`), and the proof that decoding undoes encoding on that set whatever
follows. The proof is a field, so the law of a format built from the combinators is the format's own
field.
-/

namespace RustMq.Lib

open List Option

/-- An encoder and a decoder with the proof that they round-trip on the values that fit. -/
structure Codec (α : Type) where
  enc : α → List UInt8
  dec : List UInt8 → Option (α × List UInt8)
  Fits : α → Prop
  dec_enc : ∀ a rest, Fits a → dec (enc a ++ rest) = some (a, rest)

namespace Codec

variable {α β : Type} {bs rest : List UInt8}

/-- Decode a whole buffer. Bytes after the value are ignored. -/
def decode (c : Codec α) (bs : List UInt8) : Option α := (c.dec bs).map Prod.fst

theorem decode_enc (c : Codec α) {a : α} (h : c.Fits a) (rest : List UInt8) :
    c.decode (c.enc a ++ rest) = some a := by
  rw [decode, c.dec_enc a rest h]; rfl

/-! ## Integers -/

/-- An unsigned integer of `w` bytes. -/
def uint (w : Nat) : Codec Nat where
  enc n := leBytes w n
  dec bs := if w ≤ bs.length then some (ofLe (bs.take w), bs.drop w) else none
  Fits n := n < 256 ^ w
  dec_enc n rest h := by
    have hlen : w ≤ (leBytes w n ++ rest).length := by simp
    have htake : (leBytes w n ++ rest).take w = leBytes w n := by
      rw [List.take_left' (length_leBytes w n)]
    have hdrop : (leBytes w n ++ rest).drop w = rest := by
      rw [List.drop_left' (length_leBytes w n)]
    rw [if_pos hlen, htake, hdrop, ofLe_leBytes_of_lt h]

/-- A two's complement integer of `w` bytes. -/
def sint (w : Nat) : Codec Int where
  enc i := leBytes w (i % 256 ^ w).toNat
  dec bs :=
    if w ≤ bs.length then
      let n := ofLe (bs.take w)
      some (if 2 * n < 256 ^ w then (n : Int) else (n : Int) - 256 ^ w, bs.drop w)
    else none
  Fits i := -(256 ^ w : Int) ≤ 2 * i ∧ 2 * i < 256 ^ w
  dec_enc i rest h := by
    obtain ⟨hlo, hhi⟩ := h
    have hpos : (0 : Int) < 256 ^ w := by positivity
    have hlen : w ≤ (leBytes w (i % 256 ^ w).toNat ++ rest).length := by simp
    have hcast : ((i % 256 ^ w).toNat : Int) = i % 256 ^ w :=
      Int.toNat_of_nonneg (Int.emod_nonneg _ hpos.ne')
    have hlt : (i % 256 ^ w).toNat < 256 ^ w := by
      have := Int.emod_lt_of_pos i hpos
      zify
      rw [hcast]
      exact this
    have htake :
        (leBytes w (i % 256 ^ w).toNat ++ rest).take w = leBytes w (i % 256 ^ w).toNat := by
      rw [List.take_left' (length_leBytes w _)]
    have hdrop : (leBytes w (i % 256 ^ w).toNat ++ rest).drop w = rest := by
      rw [List.drop_left' (length_leBytes w _)]
    rw [if_pos hlen, htake, hdrop, ofLe_leBytes_of_lt hlt]
    -- the residue is `i` itself when `i` is not negative, and `i + 256 ^ w` otherwise
    have hval : (if 2 * (i % 256 ^ w).toNat < 256 ^ w then ((i % 256 ^ w).toNat : Int)
        else ((i % 256 ^ w).toNat : Int) - 256 ^ w) = i := by
      rw [hcast]
      rcases lt_or_ge i 0 with hi | hi
      · have hmod : i % 256 ^ w = i + 256 ^ w := by
          rw [← Int.add_emod_right, Int.emod_eq_of_lt (by omega) (by omega)]
        have hneg : ¬ 2 * (i % 256 ^ w).toNat < 256 ^ w := by
          zify
          rw [hcast, hmod]
          omega
        rw [if_neg hneg, hmod]
        omega
      · have hmod : i % 256 ^ w = i := Int.emod_eq_of_lt hi (by omega)
        have hnn : 2 * (i % 256 ^ w).toNat < 256 ^ w := by
          zify
          rw [hcast, hmod]
          exact hhi
        rw [if_pos hnn, hmod]
    exact congrArg (fun x => some (x, rest)) hval

/-! ## Byte strings -/

/-- A byte string behind its 64-bit length. -/
def bytes : Codec (List UInt8) where
  enc b := leBytes 8 b.length ++ b
  dec bs := do
    let (n, rest) ← (uint 8).dec bs
    if n ≤ rest.length then some (rest.take n, rest.drop n) else none
  Fits b := b.length < 256 ^ 8
  dec_enc b rest h := by
    have h8 := (uint 8).dec_enc b.length (b ++ rest) h
    have hassoc : leBytes 8 b.length ++ b ++ rest = (uint 8).enc b.length ++ (b ++ rest) := by
      rw [List.append_assoc]; rfl
    rw [hassoc, h8]
    simp

/-- A UTF-8 string behind its 64-bit byte length. -/
def string : Codec String where
  enc s := bytes.enc s.toUTF8.data.toList
  dec bs := do
    let (b, rest) ← bytes.dec bs
    let s ← String.fromUTF8? ⟨b.toArray⟩
    some (s, rest)
  Fits s := bytes.Fits s.toUTF8.data.toList
  dec_enc s rest h := by
    have harr : (⟨s.toUTF8.data.toList.toArray⟩ : ByteArray) = s.toUTF8 := by
      apply ByteArray.ext
      simp
    have hs : String.fromUTF8? s.toUTF8 = some s := by
      simp only [String.fromUTF8?]
      rw [dif_pos (by simpa using s.isValidUTF8)]
      rfl
    rw [bytes.dec_enc _ rest h]
    simp only [Option.bind_eq_bind, Option.bind_some, harr, hs]

/-! ## Composites -/

/-- An optional value behind a one-byte tag; any tag but `0` and `1` is rejected. -/
def option (c : Codec α) : Codec (Option α) where
  enc
    | none => [0]
    | some a => 1 :: c.enc a
  dec
    | 0 :: rest => some (none, rest)
    | 1 :: rest => (c.dec rest).map fun p => (some p.1, p.2)
    | _ => none
  Fits o := ∀ a, o = some a → c.Fits a
  dec_enc o rest h := by
    cases o with
    | none => rfl
    | some a =>
      show ((c.dec (c.enc a ++ rest)).map fun p => (some p.1, p.2)) = some (some a, rest)
      rw [c.dec_enc a rest (h a rfl)]
      rfl

/-- One value after another. -/
def pair (c : Codec α) (d : Codec β) : Codec (α × β) where
  enc p := c.enc p.1 ++ d.enc p.2
  dec bs := do
    let (a, rest) ← c.dec bs
    let (b, rest) ← d.dec rest
    some ((a, b), rest)
  Fits p := c.Fits p.1 ∧ d.Fits p.2
  dec_enc p rest h := by
    rw [List.append_assoc, c.dec_enc p.1 _ h.1]
    simp only [Option.bind_eq_bind, Option.bind_some, d.dec_enc p.2 rest h.2]

/-- Decode exactly `n` values. -/
def decN (c : Codec α) : Nat → List UInt8 → Option (List α × List UInt8)
  | 0, bs => some ([], bs)
  | n + 1, bs => do
    let (a, rest) ← c.dec bs
    let (as, rest) ← decN c n rest
    some (a :: as, rest)

theorem decN_flatMap_enc (c : Codec α) (as : List α) (rest : List UInt8) (h : ∀ a ∈ as, c.Fits a) :
    c.decN as.length (as.flatMap c.enc ++ rest) = some (as, rest) := by
  induction as with
  | nil => rfl
  | cons a as ih =>
    have hrest : ∀ b ∈ as, c.Fits b := fun b hb => h b (mem_cons_of_mem _ hb)
    rw [length_cons, flatMap_cons, append_assoc, decN, c.dec_enc a _ (h a mem_cons_self)]
    simp only [bind_eq_bind, bind_some, ih hrest]

/-- A sequence behind its 64-bit element count. -/
def list (c : Codec α) : Codec (List α) where
  enc as := leBytes 8 as.length ++ as.flatMap c.enc
  dec bs := do
    let (n, rest) ← (uint 8).dec bs
    c.decN n rest
  Fits as := as.length < 256 ^ 8 ∧ ∀ a ∈ as, c.Fits a
  dec_enc as rest h := by
    have h8 := (uint 8).dec_enc as.length (as.flatMap c.enc ++ rest) h.1
    have hassoc : leBytes 8 as.length ++ as.flatMap c.enc ++ rest =
        (uint 8).enc as.length ++ (as.flatMap c.enc ++ rest) := by
      rw [List.append_assoc]; rfl
    rw [hassoc, h8]
    simp only [Option.bind_eq_bind, Option.bind_some]
    exact c.decN_flatMap_enc as rest h.2

theorem list_fits_nil (c : Codec α) : (list c).Fits [] := by
  refine ⟨?_, fun a ha => ?_⟩
  · show 0 < 256 ^ 8
    decide
  · cases ha

/-- The same bytes read as another type: `f` builds the value, `g` takes it apart. -/
def iso (c : Codec α) (f : α → β) (g : β → α) (hfg : ∀ b, f (g b) = b) : Codec β where
  enc b := c.enc (g b)
  dec bs := (c.dec bs).map fun p => (f p.1, p.2)
  Fits b := c.Fits (g b)
  dec_enc b rest h := by
    rw [c.dec_enc (g b) rest h, Option.map_some, hfg]

/-- The same format on fewer values. -/
def restrict (c : Codec α) (P : α → Prop) : Codec α where
  enc := c.enc
  dec := c.dec
  Fits a := c.Fits a ∧ P a
  dec_enc a rest h := c.dec_enc a rest h.1

/-- The values a format represents, as a type. -/
abbrev Val (c : Codec α) : Type := { a : α // c.Fits a }

/-! ## What is decoded fits -/

/-- Every value the format decodes is one it represents, so that it can be encoded again. -/
def DecFits (c : Codec α) : Prop := ∀ ⦃bs a rest⦄, c.dec bs = some (a, rest) → c.Fits a

theorem uint_dec_cases {w n : Nat} (h : (uint w).dec bs = some (n, rest)) :
    w ≤ bs.length ∧ n = ofLe (bs.take w) ∧ rest = bs.drop w := by
  obtain ⟨hlen, heq⟩ := ite_none_right_eq_some.mp h
  cases heq
  exact ⟨hlen, rfl, rfl⟩

theorem ofLe_take_lt {w : Nat} (h : w ≤ bs.length) : ofLe (bs.take w) < 256 ^ w := by
  have hlt := ofLe_lt (bs.take w)
  rwa [length_take_of_le h] at hlt

theorem decFits_uint (w : Nat) : (uint w).DecFits := by
  intro bs n rest h
  obtain ⟨hlen, rfl, -⟩ := uint_dec_cases h
  exact ofLe_take_lt hlen

theorem decFits_sint (w : Nat) : (sint w).DecFits := by
  intro bs i rest h
  obtain ⟨hlen, heq⟩ := ite_none_right_eq_some.mp h
  cases heq
  have hlt := ofLe_take_lt hlen
  have hcast : (ofLe (bs.take w) : Int) < 256 ^ w := by exact_mod_cast hlt
  show -(256 ^ w : Int) ≤ 2 * _ ∧ 2 * _ < (256 ^ w : Int)
  split
  · rename_i hsmall
    have : (2 * ofLe (bs.take w) : Int) < 256 ^ w := by exact_mod_cast hsmall
    omega
  · rename_i hlarge
    have : (256 ^ w : Int) ≤ 2 * ofLe (bs.take w) := by exact_mod_cast not_lt.mp hlarge
    omega

theorem decFits_bytes : bytes.DecFits := by
  intro bs b rest h
  obtain ⟨⟨n, tail⟩, hn, hb⟩ := bind_eq_some_iff.mp h
  obtain ⟨-, heq⟩ := ite_none_right_eq_some.mp hb
  cases heq
  exact lt_of_le_of_lt (length_take_le n tail) (decFits_uint 8 hn)

theorem decFits_string : string.DecFits := by
  intro bs s rest h
  obtain ⟨⟨b, tail⟩, hb, h⟩ := bind_eq_some_iff.mp h
  obtain ⟨s', hs, heq⟩ := bind_eq_some_iff.mp h
  cases heq
  have hutf : s.toUTF8.data.toList = b := by
    unfold String.fromUTF8? at hs
    split at hs
    · cases hs
      rfl
    · cases hs
  show bytes.Fits _
  rw [hutf]
  exact decFits_bytes hb

variable {c : Codec α}

variable (hc : c.DecFits)
include hc

theorem DecFits.option : (option c).DecFits := by
  intro bs o rest h a ho
  subst ho
  simp only [Codec.option] at h
  split at h
  · cases h
  · obtain ⟨⟨a', tail⟩, ha, heq⟩ := map_eq_some_iff.mp h
    cases heq
    exact hc ha
  · cases h

theorem DecFits.pair {d : Codec β} (hd : d.DecFits) : (c.pair d).DecFits := by
  intro bs p rest h
  obtain ⟨⟨a, tail⟩, ha, h⟩ := bind_eq_some_iff.mp h
  obtain ⟨⟨b, tail'⟩, hb, heq⟩ := bind_eq_some_iff.mp h
  cases heq
  exact ⟨hc ha, hd hb⟩

theorem DecFits.decN {n : Nat} {as : List α} (h : c.decN n bs = some (as, rest)) :
    as.length = n ∧ ∀ a ∈ as, c.Fits a := by
  induction n generalizing bs as with
  | zero =>
    cases h
    exact ⟨rfl, fun a ha => nomatch ha⟩
  | succ n ih =>
    obtain ⟨⟨a, tail⟩, ha, h⟩ := bind_eq_some_iff.mp h
    obtain ⟨⟨as', tail'⟩, has, heq⟩ := bind_eq_some_iff.mp h
    cases heq
    obtain ⟨hlen, hfits⟩ := ih has
    exact ⟨by rw [length_cons, hlen], forall_mem_cons.mpr ⟨hc ha, hfits⟩⟩

theorem DecFits.list : (list c).DecFits := by
  intro bs as rest h
  obtain ⟨⟨n, tail⟩, hn, has⟩ := bind_eq_some_iff.mp h
  obtain ⟨hlen, hfits⟩ := hc.decN has
  exact ⟨hlen ▸ decFits_uint 8 hn, hfits⟩

theorem DecFits.iso {f : α → β} {g : β → α} (hfg : ∀ b, f (g b) = b) (hgf : ∀ a, g (f a) = a) :
    (c.iso f g hfg).DecFits := by
  intro bs b rest h
  obtain ⟨⟨a, tail⟩, ha, heq⟩ := map_eq_some_iff.mp h
  cases heq
  show c.Fits (g (f a))
  rw [hgf]
  exact hc ha

end Codec

/-! ## Cutting a run of encodings -/

/-- A cut of a run leaves whole encodings and a part of one, or of what follows the run; the whole
ones are all those that fit in front of the cut. -/
theorem exists_take_flatMap {α β : Type} (f : α → List β) (as : List α) (tail : List β) (n : Nat) :
    ∃ j part, (as.flatMap f ++ tail).take n = (as.take j).flatMap f ++ part ∧ j ≤ as.length ∧
      (part <+: tail ∨ ∃ a ∈ as, part <+: f a ∧ part.length < (f a).length) ∧
      ∀ k ≤ as.length, ((as.take k).flatMap f).length ≤ n → k ≤ j := by
  induction as generalizing n with
  | nil => exact ⟨0, tail.take n, rfl, le_rfl, .inl ( take_prefix _ _), fun k hk _ => hk⟩
  | cons a as ih =>
    rw [flatMap_cons, append_assoc]
    rcases Nat.lt_or_ge n (f a).length with hn | hn
    · refine ⟨0, (f a).take n, take_append_of_le_length hn.le, Nat.zero_le _,
        .inr ⟨a, mem_cons_self, take_prefix _ _, ?_⟩, fun k _ hle => ?_⟩
      · rw [length_take]
        omega
      · cases k with
        | zero => exact le_rfl
        | succ k =>
          rw [take_succ_cons, flatMap_cons, length_append] at hle
          omega
    · obtain ⟨j, part, hcut, hj, hpart, hmax⟩ := ih (n - (f a).length)
      refine ⟨j + 1, part, ?_, Nat.succ_le_succ hj, hpart.imp_right fun ⟨b, hb, h⟩ =>
        ⟨b, mem_cons_of_mem _ hb, h⟩, fun k hk hle => ?_⟩
      · rw [take_append, take_of_length_le hn, hcut, take_succ_cons, flatMap_cons, append_assoc]
      · cases k with
        | zero => exact Nat.zero_le _
        | succ k =>
          rw [take_succ_cons, flatMap_cons, length_append] at hle
          exact Nat.succ_le_succ (hmax k (Nat.le_of_succ_le_succ hk) (by omega))

end RustMq.Lib
