import Mathlib.Data.List.Basic
import Mathlib.Data.List.TakeWhile

/-!
# JSON

A reader of JSON documents over bytes, as strict as the standard: no control characters in strings,
no trailing commas, nothing behind the value, nesting up to a limit. Its law says which bytes a
document can have at all (`legal_of_parse`): printable ones, those above ASCII, and the four of
white space. The writer has what a request needs, strings with their escapes and decimal numbers.
-/

namespace RustMq.Lib

open Option

namespace Hex

/-- The lower-case digit. -/
def digit (n : Nat) : Char := Char.ofNat (if n < 10 then 48 + n else 87 + n)

/-- The value of a digit of either case. -/
def value (c : Char) : Option Nat :=
  if '0' ≤ c ∧ c ≤ '9' then some (c.toNat - 48)
  else if 'a' ≤ c ∧ c ≤ 'f' then some (c.toNat - 87)
  else if 'A' ≤ c ∧ c ≤ 'F' then some (c.toNat - 55)
  else none

end Hex

inductive Json where
  | null
  | bool (b : Bool)
  /-- A number as it is written. -/
  | number (text : List UInt8)
  | string (text : String)
  | array (elements : List Json)
  | object (members : List (String × Json))

namespace Json

/-- A reader returns what it has not read. -/
abbrev Reader (α : Type) := List UInt8 → Option (α × List UInt8)

/-! ## Reading -/

def isSpace (b : UInt8) : Bool := b = 0x20 || b = 0x09 || b = 0x0A || b = 0x0D

def skipSpace (bytes : List UInt8) : List UInt8 := bytes.dropWhile isSpace

def readLiteral (text : List UInt8) (value : Json) : Reader Json := fun bytes =>
  if bytes.take text.length = text then some (value, bytes.drop text.length) else none

def isDigit (b : UInt8) : Bool := 0x30 ≤ b && b ≤ 0x39

/-- The bytes that a number is made of. -/
def isNumberByte (b : UInt8) : Bool :=
  isDigit b || b = 0x2B || b = 0x2D || b = 0x2E || b = 0x45 || b = 0x65

/-- An exponent, if there is one. -/
def isExponent : List UInt8 → Bool
  | [] => true
  | e :: text =>
    let digits := if text.head? = some 0x2B ∨ text.head? = some 0x2D then text.tail else text
    (e = 0x45 || e = 0x65) && digits ≠ [] && digits.all isDigit

/-- A fraction, if there is one, and an exponent. -/
def isFraction (text : List UInt8) : Bool :=
  if text.head? = some 0x2E then
    text.tail.takeWhile isDigit ≠ [] && isExponent (text.tail.dropWhile isDigit)
  else isExponent text

def isNumber (text : List UInt8) : Bool :=
  let text := if text.head? = some 0x2D then text.tail else text
  if text.head? = some 0x30 then isFraction text.tail
  else text.takeWhile isDigit ≠ [] && isFraction (text.dropWhile isDigit)

def readNumber : Reader Json := fun bytes =>
  let text := bytes.takeWhile isNumberByte
  if isNumber text then some (.number text, bytes.dropWhile isNumberByte) else none

/-- The text of a string up to its quote, with its escapes as they stand. -/
def rawString : Reader (List UInt8)
  | [] => none
  | b :: rest =>
    if b = 0x22 then some ([], rest)
    else if b < 0x20 then none
    else if b = 0x5C then
      match rest with
      | [] => none
      | e :: rest =>
        if e < 0x20 then none else (rawString rest).map fun p => (b :: e :: p.1, p.2)
    else (rawString rest).map fun p => (b :: p.1, p.2)

/-- The byte that an escape of one letter stands for. -/
def simpleEscape (b : UInt8) : Option UInt8 :=
  if b = 0x22 ∨ b = 0x5C ∨ b = 0x2F then some b
  else if b = 0x62 then some 0x08
  else if b = 0x66 then some 0x0C
  else if b = 0x6E then some 0x0A
  else if b = 0x72 then some 0x0D
  else if b = 0x74 then some 0x09
  else none

/-- The code unit of four hexadecimal digits. -/
def codeUnit (a b c d : UInt8) : Option Nat := do
  let a ← Hex.value (Char.ofNat a.toNat)
  let b ← Hex.value (Char.ofNat b.toNat)
  let c ← Hex.value (Char.ofNat c.toNat)
  let d ← Hex.value (Char.ofNat d.toNat)
  return ((a * 16 + b) * 16 + c) * 16 + d

def isHigh (unit : Nat) : Bool := 0xD800 ≤ unit && unit < 0xDC00

def isLow (unit : Nat) : Bool := 0xDC00 ≤ unit && unit < 0xE000

/-- The text with its escapes replaced. A high surrogate is followed by a low one. -/
def unescape : List UInt8 → Option (List UInt8)
  | [] => some []
  | b :: rest =>
    if b = 0x5C then
      match rest with
      | [] => none
      | e :: rest =>
        if e = 0x75 then
          match rest with
          | a :: b :: c :: d :: rest =>
            (codeUnit a b c d).bind fun unit =>
              if isHigh unit then
                match rest with
                | 0x5C :: 0x75 :: a :: b :: c :: d :: rest =>
                  (codeUnit a b c d).bind fun low =>
                    if isLow low then
                      (unescape rest).map (String.utf8EncodeChar
                        (Char.ofNat (0x10000 + (unit - 0xD800) * 0x400 + (low - 0xDC00))) ++ ·)
                    else none
                | _ => none
              else if isLow unit then none
              else (unescape rest).map (String.utf8EncodeChar (Char.ofNat unit) ++ ·)
          | _ => none
        else (simpleEscape e).bind fun c => (unescape rest).map (c :: ·)
    else (unescape rest).map (b :: ·)

/-- A string, after its first quote. -/
def readString : Reader String := fun bytes =>
  (rawString bytes).bind fun (raw, rest) =>
    (unescape raw).bind fun text =>
      (String.fromUTF8? ⟨text.toArray⟩).map fun text => (text, rest)

/-- What is neither an array nor an object. -/
def readScalar : Reader Json := fun bytes =>
  if bytes.head? = some 0x22 then (readString bytes.tail).map fun (s, rest) => (.string s, rest)
  else if bytes.head? = some 0x6E then readLiteral [0x6E, 0x75, 0x6C, 0x6C] .null bytes
  else if bytes.head? = some 0x74 then readLiteral [0x74, 0x72, 0x75, 0x65] (.bool true) bytes
  else if bytes.head? = some 0x66 then
    readLiteral [0x66, 0x61, 0x6C, 0x73, 0x65] (.bool false) bytes
  else readNumber bytes

/-- The byte that goes on or ends a sequence. -/
def readNext (close : UInt8) (bytes : List UInt8) : Option (Bool × List UInt8) :=
  match skipSpace bytes with
  | [] => none
  | b :: rest => if b = 0x2C then some (true, rest) else if b = close then some (false, rest) else none

/-- `n` items at most, with commas between them, up to the closing byte. -/
def readItems {α : Type} (item : Reader α) (close : UInt8) : Nat → Reader (List α)
  | 0, _ => none
  | n + 1, bytes =>
    (item (skipSpace bytes)).bind fun (a, rest) =>
      (readNext close rest).bind fun (more, rest) =>
        if more then (readItems item close n rest).map fun (as, rest) => (a :: as, rest)
        else some ([a], rest)

/-- A sequence after its opening byte. An item has one byte at least. -/
def readSequence {α : Type} (item : Reader α) (close : UInt8) : Reader (List α) := fun bytes =>
  if (skipSpace bytes).head? = some close then some ([], (skipSpace bytes).tail)
  else readItems item close bytes.length bytes

/-- A key, a colon and a value. -/
def readMember (value : Reader Json) : Reader (String × Json) := fun bytes =>
  if bytes.head? = some 0x22 then
    (readString bytes.tail).bind fun (key, rest) =>
      if (skipSpace rest).head? = some 0x3A then
        (value (skipSpace (skipSpace rest).tail)).map fun (v, rest) => ((key, v), rest)
      else none
  else none

/-- A value with up to `depth` arrays and objects around one another. -/
def readValue : Nat → Reader Json
  | 0, bytes =>
    if bytes.head? = some 0x5B ∨ bytes.head? = some 0x7B then none else readScalar bytes
  | depth + 1, bytes =>
    if bytes.head? = some 0x5B then
      (readSequence (readValue depth) 0x5D bytes.tail).map fun (vs, rest) => (.array vs, rest)
    else if bytes.head? = some 0x7B then
      (readSequence (readMember (readValue depth)) 0x7D bytes.tail).map
        fun (ms, rest) => (.object ms, rest)
    else readScalar bytes

/-- A document: one value, with white space around it. -/
def parse (depth : Nat) (bytes : List UInt8) : Option Json :=
  (readValue depth (skipSpace bytes)).bind fun (v, rest) =>
    if skipSpace rest = [] then some v else none

/-! ## Writing -/

/-- The digit of a half byte. -/
def hexByte (n : Nat) : UInt8 := UInt8.ofNat (Hex.digit n).toNat

def writeEscape (b : UInt8) : List UInt8 :=
  if b = 0x22 ∨ b = 0x5C then [0x5C, b]
  else if b = 0x08 then [0x5C, 0x62]
  else if b = 0x0C then [0x5C, 0x66]
  else if b = 0x0A then [0x5C, 0x6E]
  else if b = 0x0D then [0x5C, 0x72]
  else if b = 0x09 then [0x5C, 0x74]
  else if b < 0x20 then
    [0x5C, 0x75, 0x30, 0x30, hexByte (b.toNat / 16), hexByte (b.toNat % 16)]
  else [b]

def writeString (text : String) : List UInt8 :=
  0x22 :: text.toUTF8.data.toList.flatMap writeEscape ++ [0x22]

def writeNat (n : Nat) : List UInt8 := (toString n).toUTF8.data.toList

/-- An object of members that are written already. -/
def writeObject (members : List (String × List UInt8)) : List UInt8 :=
  0x7B :: [0x2C].intercalate (members.map fun m => writeString m.1 ++ 0x3A :: m.2) ++ [0x7D]

/-! ## The bytes of a document -/

/-- The bytes that a document may have. -/
def Legal (b : UInt8) : Prop := 0x20 ≤ b ∨ isSpace b = true

instance (b : UInt8) : Decidable (Legal b) := inferInstanceAs (Decidable (_ ∨ _))

/-- The bytes before `rest` are legal. -/
def Reads (bytes rest : List UInt8) : Prop := ∃ used, bytes = used ++ rest ∧ ∀ b ∈ used, Legal b

/-- A reader that accepts legal bytes only. -/
def LegalReader {α : Type} (r : Reader α) : Prop :=
  ∀ ⦃bytes : List UInt8⦄ ⦃a : α⦄ ⦃rest : List UInt8⦄, r bytes = some (a, rest) → Reads bytes rest

theorem Reads.refl (bytes : List UInt8) : Reads bytes bytes := ⟨[], rfl, by simp⟩

variable {bytes rest : List UInt8} {b close : UInt8}

theorem Reads.trans {middle : List UInt8} (h : Reads bytes middle) (h' : Reads middle rest) :
    Reads bytes rest := by
  obtain ⟨used, rfl, hused⟩ := h
  obtain ⟨used', rfl, hused'⟩ := h'
  refine ⟨used ++ used', (List.append_assoc _ _ _).symm, fun b hb => ?_⟩
  rcases List.mem_append.mp hb with hin | hin
  · exact hused b hin
  · exact hused' b hin

theorem Reads.cons (hb : Legal b) (h : Reads bytes rest) : Reads (b :: bytes) rest :=
  Reads.trans ⟨[b], rfl, by simpa using hb⟩ h

theorem reads_dropWhile {p : UInt8 → Bool} (hp : ∀ b, p b = true → Legal b) (bytes : List UInt8) :
    Reads bytes (bytes.dropWhile p) :=
  ⟨bytes.takeWhile p, List.takeWhile_append_dropWhile.symm,
    fun b hb => hp b (List.mem_takeWhile_imp hb)⟩

theorem reads_skipSpace (bytes : List UInt8) : Reads bytes (skipSpace bytes) :=
  reads_dropWhile (fun _ hb => .inr hb) bytes

theorem reads_tail (h : bytes.head? = some b) (hb : Legal b) : Reads bytes bytes.tail := by
  cases bytes with
  | nil => cases h
  | cons x rest =>
    cases h
    exact .cons hb (.refl _)

theorem legalReader_literal {text : List UInt8} (htext : ∀ b ∈ text, Legal b) (value : Json) :
    LegalReader (readLiteral text value) := by
  intro bytes v rest h
  rw [readLiteral] at h
  split_ifs at h with heq
  cases h
  refine ⟨text, ?_, htext⟩
  nth_rewrite 1 [← heq]
  exact (List.take_append_drop _ _).symm

theorem legal_of_isNumberByte (h : isNumberByte b = true) : Legal b := by
  left
  simp only [isNumberByte, isDigit, Bool.or_eq_true, Bool.and_eq_true, decide_eq_true_eq] at h
  rcases h with ((((⟨h, -⟩ | rfl) | rfl) | rfl) | rfl) | rfl
  · exact UInt8.le_trans (by decide) h
  all_goals decide

theorem legalReader_number : LegalReader readNumber := by
  intro bytes v rest h
  simp only [readNumber] at h
  split_ifs at h
  cases h
  exact reads_dropWhile (fun _ hb => legal_of_isNumberByte hb) bytes

theorem legal_of_not_lt (h : ¬ b < 0x20) : Legal b := .inl (UInt8.not_lt.mp h)

theorem legalReader_rawString : LegalReader rawString := by
  intro bytes raw rest h
  fun_induction rawString bytes generalizing raw with
  | case1 | case3 | case4 | case5 => cases h
  | case2 =>
    cases h
    exact .cons (by decide) (.refl _)
  | case6 e rest he _ _ ih =>
    obtain ⟨⟨raw', rest'⟩, hraw, heq⟩ := map_eq_some_iff.mp h
    cases heq
    exact .cons (by decide) (.cons (legal_of_not_lt he) (ih hraw))
  | case7 b rest _ hb _ ih =>
    obtain ⟨⟨raw', rest'⟩, hraw, heq⟩ := map_eq_some_iff.mp h
    cases heq
    exact .cons (legal_of_not_lt hb) (ih hraw)

theorem legalReader_string : LegalReader readString := by
  intro bytes text rest h
  obtain ⟨⟨raw, rest'⟩, hraw, h⟩ := bind_eq_some_iff.mp h
  obtain ⟨unescaped, -, h⟩ := bind_eq_some_iff.mp h
  obtain ⟨text', -, heq⟩ := map_eq_some_iff.mp h
  cases heq
  exact legalReader_rawString hraw

theorem legalReader_scalar : LegalReader readScalar := by
  intro bytes v rest h
  rw [readScalar] at h
  split_ifs at h with hquote
  · obtain ⟨⟨text, rest'⟩, htext, heq⟩ := map_eq_some_iff.mp h
    cases heq
    exact (reads_tail hquote (by decide)).trans (legalReader_string htext)
  · exact legalReader_literal (by decide +kernel) _ h
  · exact legalReader_literal (by decide +kernel) _ h
  · exact legalReader_literal (by decide +kernel) _ h
  · exact legalReader_number h

theorem reads_of_readNext (hclose : Legal close) {more : Bool}
    (h : readNext close bytes = some (more, rest)) : Reads bytes rest := by
  have hspace := reads_skipSpace bytes
  rw [readNext] at h
  split at h
  · cases h
  · rename_i b rest' hb
    rw [hb] at hspace
    split_ifs at h with hcomma hend
    · cases h
      subst hcomma
      exact hspace.trans (.cons (by decide) (.refl _))
    · cases h
      subst hend
      exact hspace.trans (.cons hclose (.refl _))

theorem LegalReader.items {α : Type} {item : Reader α} (hitem : LegalReader item)
    (hclose : Legal close) (n : Nat) : LegalReader (readItems item close n) := by
  induction n with
  | zero =>
    intro bytes as rest h
    cases h
  | succ n ih =>
    intro bytes as rest h
    obtain ⟨⟨a, rest₁⟩, ha, h⟩ := bind_eq_some_iff.mp h
    obtain ⟨⟨more, rest₂⟩, hmore, h⟩ := bind_eq_some_iff.mp h
    have hread : Reads bytes rest₂ :=
      (reads_skipSpace bytes).trans ((hitem ha).trans (reads_of_readNext hclose hmore))
    simp only at h
    split_ifs at h
    · obtain ⟨⟨as', rest₃⟩, has, heq⟩ := map_eq_some_iff.mp h
      cases heq
      exact hread.trans (ih has)
    · cases h
      exact hread

theorem LegalReader.sequence {α : Type} {item : Reader α} (hitem : LegalReader item)
    (hclose : Legal close) : LegalReader (readSequence item close) := by
  intro bytes as rest h
  rw [readSequence] at h
  split_ifs at h with hempty
  · cases h
    exact (reads_skipSpace bytes).trans (reads_tail hempty hclose)
  · exact hitem.items hclose _ h

theorem LegalReader.member {value : Reader Json} (hvalue : LegalReader value) :
    LegalReader (readMember value) := by
  intro bytes m rest h
  rw [readMember] at h
  split_ifs at h with hquote
  obtain ⟨⟨key, rest₁⟩, hkey, h⟩ := bind_eq_some_iff.mp h
  simp only at h
  split_ifs at h with hcolon
  obtain ⟨⟨v, rest₂⟩, hv, heq⟩ := map_eq_some_iff.mp h
  cases heq
  have hstring : Reads bytes rest₁ :=
    (reads_tail hquote (by decide)).trans (legalReader_string hkey)
  have hvalueStart : Reads rest₁ (skipSpace (skipSpace rest₁).tail) :=
    (reads_skipSpace rest₁).trans ((reads_tail hcolon (by decide)).trans (reads_skipSpace _))
  exact hstring.trans (hvalueStart.trans (hvalue hv))

theorem legalReader_value (depth : Nat) : LegalReader (readValue depth) := by
  induction depth with
  | zero =>
    intro bytes v rest h
    rw [readValue] at h
    split_ifs at h
    exact legalReader_scalar h
  | succ depth ih =>
    intro bytes v rest h
    rw [readValue] at h
    split_ifs at h with harray hobject
    · obtain ⟨⟨vs, rest'⟩, hvs, heq⟩ := map_eq_some_iff.mp h
      cases heq
      exact (reads_tail harray (by decide)).trans (ih.sequence (by decide) hvs)
    · obtain ⟨⟨ms, rest'⟩, hms, heq⟩ := map_eq_some_iff.mp h
      cases heq
      exact (reads_tail hobject (by decide)).trans (ih.member.sequence (by decide) hms)
    · exact legalReader_scalar h

/-- **A document has legal bytes only.** -/
theorem legal_of_parse {depth : Nat} {v : Json} (h : parse depth bytes = some v) :
    ∀ b ∈ bytes, Legal b := by
  obtain ⟨⟨v', rest⟩, hv, h⟩ := bind_eq_some_iff.mp h
  simp only at h
  split_ifs at h with hend
  have hread : Reads bytes [] := by
    have hspace := reads_skipSpace rest
    rw [hend] at hspace
    exact (reads_skipSpace bytes).trans ((legalReader_value depth hv).trans hspace)
  obtain ⟨used, hbytes, hused⟩ := hread
  rw [List.append_nil] at hbytes
  rw [hbytes]
  exact hused

end Json
end RustMq.Lib
