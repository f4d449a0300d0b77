import Mathlib.Data.List.Basic
import Mathlib.Data.List.DropRight
import Mathlib.Tactic.IntervalCases

namespace Centaurx.Go
open List

abbrev GoString := List UInt8

instance : LawfulBEq GoString := inferInstance

/-- The bytes of a string are tried one by one, not all bytes there are. -/
instance (priority := 2000) decidableForallBytes {p : UInt8 → Prop} [DecidablePred p]
    (s : GoString) : Decidable (∀ b ∈ s, p b) := decidableBAll p s

/-- The bytes of a string literal. -/
def lit (s : String) : GoString := s.toUTF8.data.toList

/-- The encodings of the runes that `unicode.IsSpace` accepts. -/
def spaces : List GoString :=
  [[0x09], [0x0A], [0x0B], [0x0C], [0x0D], [0x20], [0xC2, 0x85], [0xC2, 0xA0],
    [0xE1, 0x9A, 0x80], [0xE2, 0x80, 0x80], [0xE2, 0x80, 0x81], [0xE2, 0x80, 0x82],
    [0xE2, 0x80, 0x83], [0xE2, 0x80, 0x84], [0xE2, 0x80, 0x85], [0xE2, 0x80, 0x86],
    [0xE2, 0x80, 0x87], [0xE2, 0x80, 0x88], [0xE2, 0x80, 0x89], [0xE2, 0x80, 0x8A],
    [0xE2, 0x80, 0xA8], [0xE2, 0x80, 0xA9], [0xE2, 0x80, 0xAF], [0xE2, 0x81, 0x9F],
    [0xE3, 0x80, 0x80]]

/-- Drops one of the given pieces from the front, at most `n` times. -/
def stripN (pieces : List GoString) : ℕ → GoString → GoString
  | 0, s => s
  | n + 1, s =>
    match pieces.findSome? (fun p => s.dropPrefix? p) with
    | some rest => stripN pieces n rest
    | none => s

/-- `strings.TrimSpace`. Every piece has at least one byte, so the length is enough fuel;
from the right the pieces are read backwards. -/
def trimSpace (s : GoString) : GoString :=
  let left := stripN spaces s.length s
  (stripN (spaces.map reverse) left.length left.reverse).reverse

/-- `strings.TrimSpace(s) == ""`. -/
def blank (s : GoString) : Bool := trimSpace s = []

theorem blank_nil : blank [] = true := by decide

theorem ne_nil_of_not_blank {s : GoString} (h : blank s = false) : s ≠ [] := by
  rintro rfl
  rw [blank_nil] at h
  exact absurd h (by decide)

/-- What follows the last byte that separates. -/
def lastPart (separates : UInt8 → Bool) (s : GoString) : GoString :=
  s.rtakeWhile fun b => !separates b

variable {separates : UInt8 → Bool}

theorem not_separates_lastPart (s : GoString) :
    ∀ b ∈ lastPart separates s, separates b = false := by
  intro b hb
  simpa using mem_rtakeWhile_imp hb

theorem lastPart_append_cons {b : UInt8} (hb : separates b = true) (s t : GoString) :
    lastPart separates (s ++ b :: t) = lastPart separates t := by
  induction t using reverseRecOn with
  | nil => simp [lastPart, hb]
  | append_singleton t c ih =>
    simp only [lastPart] at ih ⊢
    rw [← cons_append, ← append_assoc, rtakeWhile_concat, rtakeWhile_concat,
      ih]

theorem lastPart_append {t : GoString} (ht : ∀ b ∈ t, separates b = false) (s : GoString) :
    lastPart separates (s ++ t) = lastPart separates s ++ t := by
  induction t using reverseRecOn with
  | nil => simp
  | append_singleton t c ih =>
    rw [forall_mem_append, forall_mem_singleton] at ht
    rw [lastPart, ← append_assoc, rtakeWhile_concat_pos _ _ _ (by simp [ht.2]),
      ← lastPart, ih ht.1, append_assoc]

theorem lastPart_eq_self {s : GoString} (hs : ∀ b ∈ s, separates b = false) :
    lastPart separates s = s := lastPart_append hs []

theorem lastPart_lastPart (separates' : UInt8 → Bool) (s : GoString) :
    lastPart separates' (lastPart separates s) =
      lastPart (fun b => separates b || separates' b) s := by
  simp only [lastPart, rtakeWhile, reverse_reverse, takeWhile_takeWhile]
  congr 2
  funext b
  cases separates b <;> cases separates' b <;> rfl

/-- `utf8.RuneError`. -/
def runeError : ℕ := 0xFFFD

def between (lo hi b : UInt8) : Bool := lo ≤ b && b ≤ hi

/-- A continuation byte. -/
def cont (b : UInt8) : Bool := between 0x80 0xBF b

/-- The range of the second byte that follows a first byte of three or four. -/
def second (b : UInt8) : UInt8 × UInt8 :=
  if b = 0xE0 then (0xA0, 0xBF)
  else if b = 0xED then (0x80, 0x9F)
  else if b = 0xF0 then (0x90, 0xBF)
  else if b = 0xF4 then (0x80, 0x8F)
  else (0x80, 0xBF)

/-- `utf8.DecodeRune`: the first rune and its width. An invalid encoding is
`(RuneError, 1)` and the empty string `(RuneError, 0)`. -/
def decodeRune : GoString → ℕ × ℕ
  | [] => (runeError, 0)
  | b :: s =>
    if b < 0x80 then (b.toNat, 1)
    else if between 0xC2 0xDF b then
      match s with
      | c :: _ => if cont c then ((b.toNat - 0xC0) * 64 + (c.toNat - 0x80), 2) else (runeError, 1)
      | _ => (runeError, 1)
    else if between 0xE0 0xEF b then
      match s with
      | c :: d :: _ =>
        if between (second b).1 (second b).2 c && cont d then
          (((b.toNat - 0xE0) * 64 + (c.toNat - 0x80)) * 64 + (d.toNat - 0x80), 3)
        else (runeError, 1)
      | _ => (runeError, 1)
    else if between 0xF0 0xF4 b then
      match s with
      | c :: d :: e :: _ =>
        if between (second b).1 (second b).2 c && cont d && cont e then
          ((((b.toNat - 0xF0) * 64 + (c.toNat - 0x80)) * 64 + (d.toNat - 0x80)) * 64
            + (e.toNat - 0x80), 4)
        else (runeError, 1)
      | _ => (runeError, 1)
    else (runeError, 1)

def runesN : ℕ → GoString → List (ℕ × ℕ)
  | 0, _ => []
  | _ + 1, [] => []
  | n + 1, b :: s => decodeRune (b :: s) :: runesN n ((b :: s).drop (decodeRune (b :: s)).2)

/-- The runes with their widths, as `for _, r := range s` yields them. -/
def runes (s : GoString) : List (ℕ × ℕ) := runesN s.length s

/-- `utf8.ValidString`: no rune is a decoding error. -/
def validUTF8 (s : GoString) : Bool := (runes s).all (fun r => r ≠ (runeError, 1))

theorem runesN_of_ascii (n : ℕ) (s : GoString) (hs : ∀ b ∈ s, b < 0x80) :
    ∀ r ∈ runesN n s, r ≠ (runeError, 1) := by
  induction n generalizing s with
  | zero => simp [runesN]
  | succ n ih =>
    cases s with
    | nil => simp [runesN]
    | cons b s =>
      have hb : b < 0x80 := hs b (by simp)
      have hd : decodeRune (b :: s) = (b.toNat, 1) := by simp [decodeRune, hb]
      have hn : b.toNat < 0x80 := by simpa [UInt8.lt_iff_toNat_lt] using hb
      intro r hr
      simp only [runesN, hd, drop_succ_cons, drop_zero, mem_cons] at hr
      rcases hr with rfl | hr
      · simp only [runeError, ne_eq, Prod.mk.injEq, and_true]
        omega
      · exact ih s (fun c hc => hs c (by simp [hc])) r hr

theorem validUTF8_of_ascii {s : GoString} (hs : ∀ b ∈ s, b < 0x80) : validUTF8 s = true := by
  simpa [validUTF8, runes] using runesN_of_ascii s.length s hs

/-- A lower-case hexadecimal digit. -/
def hexDigit (n : ℕ) : UInt8 := if n < 10 then UInt8.ofNat (0x30 + n) else UInt8.ofNat (0x57 + n)

/-- `hex.EncodeToString`. -/
def hexEncode (bs : List UInt8) : GoString :=
  bs.flatMap fun b => [hexDigit (b.toNat / 16), hexDigit (b.toNat % 16)]

theorem hexDigit_ascii {n : ℕ} (hn : n < 16) : hexDigit n < 0x80 := by
  interval_cases n <;> decide

theorem hexEncode_ascii (bs : List UInt8) : ∀ c ∈ hexEncode bs, c < 0x80 := by
  intro c hc
  simp only [hexEncode, mem_flatMap, mem_cons, not_mem_nil, or_false] at hc
  obtain ⟨b, -, rfl | rfl⟩ := hc
  · exact hexDigit_ascii (by have := b.toNat_lt; omega)
  · exact hexDigit_ascii (Nat.mod_lt _ (by decide))

end Centaurx.Go
