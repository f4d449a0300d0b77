import Centaurx.Lib.GoString

namespace Centaurx.Shell
open Go List

def quote : UInt8 := 0x27
def backslash : UInt8 := 0x5C
def newline : UInt8 := 0x0A

def isBlank (b : UInt8) : Bool := b = 0x20 || b = 0x09

/-- The bytes that other rules are about. -/
def special (b : UInt8) : Bool := b ∈ lit "|&;<>()$`\"*?[]#~=%!\x7b\x7d\n"

inductive Mode
  | plain | quoted | escaped
  deriving DecidableEq

/-- The words of the rest, with the word that was begun. -/
def wordsFrom : Mode → Option GoString → GoString → Option (List GoString)
  | .plain, word, [] => some word.toList
  | .quoted, _, [] => none
  | .escaped, _, [] => none
  | .quoted, word, b :: s =>
    if b = quote then wordsFrom .plain word s
    else wordsFrom .quoted (some (word.getD [] ++ [b])) s
  | .escaped, word, b :: s =>
    -- A backslash at the end of a line joins it with the next one.
    if b = newline then wordsFrom .plain word s
    else wordsFrom .plain (some (word.getD [] ++ [b])) s
  | .plain, word, b :: s =>
    if b = quote then wordsFrom .quoted (some (word.getD [])) s
    else if b = backslash then wordsFrom .escaped word s
    else if isBlank b then (wordsFrom .plain none s).map (word.toList ++ ·)
    else if special b then none
    else wordsFrom .plain (some (word.getD [] ++ [b])) s

/-- The words of a command. A command is passed to the shell as a string that ends with NUL. -/
def words (command : GoString) : Option (List GoString) :=
  if 0x00 ∈ command then none else wordsFrom .plain none command

/-- A byte that stands for itself outside quotes. -/
def ordinary (b : UInt8) : Bool := !(b = quote || b = backslash || isBlank b || special b)

variable {s t word : GoString}

theorem wordsFrom_ordinary (ht : ∀ b ∈ t, ordinary b = true) (s : GoString) :
    wordsFrom .plain (some word) (t ++ s) = wordsFrom .plain (some (word ++ t)) s := by
  induction t generalizing word with
  | nil => simp
  | cons b t ih =>
    rw [forall_mem_cons] at ht
    obtain ⟨hb, ht⟩ := ht
    simp only [ordinary, Bool.not_eq_true', Bool.or_eq_false_iff, decide_eq_false_iff_not] at hb
    obtain ⟨⟨⟨hquote, hbackslash⟩, hblank⟩, hspecial⟩ := hb
    rw [cons_append, wordsFrom, if_neg hquote, if_neg hbackslash, hblank, hspecial]
    simp only [Bool.false_eq_true, if_false, Option.getD_some]
    rw [ih ht, append_assoc, singleton_append]

theorem wordsFrom_word (ht : ∀ b ∈ t, ordinary b = true) (hne : t ≠ []) (s : GoString) :
    wordsFrom .plain none (t ++ 0x20 :: s) = (wordsFrom .plain none s).map (t :: ·) := by
  have hstart : wordsFrom .plain none (t ++ 0x20 :: s) =
      wordsFrom .plain (some []) (t ++ 0x20 :: s) := by
    obtain ⟨b, t, rfl⟩ := exists_cons_of_ne_nil hne
    have hb := ht b (by simp)
    simp only [ordinary, Bool.not_eq_true', Bool.or_eq_false_iff, decide_eq_false_iff_not] at hb
    simp [wordsFrom, hb]
  rw [hstart, wordsFrom_ordinary ht]
  rfl

theorem wordsFrom_quoted (ht : quote ∉ t) (s : GoString) :
    wordsFrom .quoted (some word) (t ++ s) = wordsFrom .quoted (some (word ++ t)) s := by
  induction t generalizing word with
  | nil => simp
  | cons b t ih =>
    rw [mem_cons, not_or] at ht
    rw [cons_append, wordsFrom, if_neg fun h => ht.1 h.symm, ih ht.2]
    simp

end Centaurx.Shell
