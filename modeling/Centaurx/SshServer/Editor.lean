import Centaurx.Lib.Words
import Centaurx.Lib.Zipper

namespace Centaurx.SshServer
open Go List

inductive Key
  | keyRune (r : ℕ)
  | keyEnter | keyBackspace | keyDelete | keyLeft | keyRight | keyHome | keyEnd
  | keyPageUp | keyPageDown | keyCtrlA | keyCtrlE | keyCtrlW | keyCtrlD | keyCtrlC
  | keyTab | keyShiftTab | keyAltB | keyAltF | keyUp | keyDown | keyCtrlJ | keyCtrlU | keyCtrlK
  deriving DecidableEq

/-- The line of a session, as the text before the cursor and the text behind it. The slice and the
index of `lineEditor` are in `RawEditor`, which does the same. -/
abbrev LineEditor (α : Type) := Zipper α

namespace LineEditor

/-- The editor's own `isSpace`. -/
def isSpace (r : ℕ) : Bool := r = 0x20 || r = 0x09

def inWord (r : ℕ) : Bool := !isSpace r

def isNewline (r : ℕ) : Bool := r = 0x0A

variable {α : Type} (rune : α → ℕ) (e : LineEditor α)

def len : ℕ := e.text.length

def cursor : ℕ := e.before.length

def clear : LineEditor α := ⟨[], []⟩

def setString (value : List α) : LineEditor α := ⟨value, []⟩

def moveWordLeft : LineEditor α := (e.back (isSpace ∘ rune)).back (inWord ∘ rune)

def moveWordRight : LineEditor α := (e.forth (isSpace ∘ rune)).forth (inWord ∘ rune)

def deleteWordBackward : LineEditor α := (e.killBack (isSpace ∘ rune)).killBack (inWord ∘ rune)

def moveUp : LineEditor α := e.up (isNewline ∘ rune)

def moveDown : LineEditor α := e.down (isNewline ∘ rune)

def killLineStart : LineEditor α := e.killBack (Zipper.plain (isNewline ∘ rune))

def killLineEnd : LineEditor α := e.killForth (Zipper.plain (isNewline ∘ rune))

/-- The keys that edit the line in every mode of the terminal. -/
def edit (typed : ℕ → α) : Key → LineEditor α
  | .keyRune r => e.insert (typed r)
  | .keyBackspace => e.backspace
  | .keyDelete => e.delete
  | .keyLeft => e.left
  | .keyRight => e.right
  | .keyHome | .keyCtrlA => e.toStart
  | .keyEnd | .keyCtrlE => e.toEnd
  | .keyAltB => e.moveWordLeft rune
  | .keyAltF => e.moveWordRight rune
  | .keyCtrlW => e.deleteWordBackward rune
  | .keyCtrlU => e.killLineStart rune
  | .keyCtrlK => e.killLineEnd rune
  | _ => e

/-- Whether such a key changes the text, and not only the cursor. -/
def changes : Key → Bool
  | .keyRune _ | .keyBackspace | .keyDelete | .keyCtrlW | .keyCtrlU | .keyCtrlK => true
  | _ => false

variable {rune e}

theorem setString_text (value : List α) : (setString value).text = value := append_nil value

theorem mem_insert {r x : α} (h : x ∈ (e.insert r).text) : x = r ∨ x ∈ e.text := by
  simp only [Zipper.insert, Zipper.text, mem_append, mem_singleton] at h ⊢
  tauto

theorem delete_subset : e.delete.text ⊆ e.text :=
  (Sublist.append_left (tail_sublist _) _).subset

theorem killBack_subset (p : α → Bool) : (e.killBack p).text ⊆ e.text :=
  (Sublist.append_right ( rdropWhile_prefix p e.before).sublist _).subset

theorem killForth_subset (p : α → Bool) : (e.killForth p).text ⊆ e.text :=
  (Sublist.append_left (dropWhile_sublist p) _).subset

theorem mem_edit {typed : ℕ → α} {k : Key} {x : α} (h : x ∈ (e.edit rune typed k).text) :
    (∃ r, x = typed r) ∨ x ∈ e.text := by
  cases k with
  | keyRune r => exact (mem_insert h).imp_left fun hx => ⟨r, hx⟩
  | keyBackspace => exact .inr ((Sublist.append_right (dropLast_sublist _) _).subset h)
  | keyDelete => exact .inr (delete_subset h)
  | keyCtrlW => exact .inr (killBack_subset _ (killBack_subset _ h))
  | keyCtrlU => exact .inr (killBack_subset _ h)
  | keyCtrlK => exact .inr (killForth_subset _ h)
  | keyLeft => exact .inr (Zipper.left_text e ▸ h)
  | keyRight => exact .inr (Zipper.right_text e ▸ h)
  | keyEnd | keyCtrlE => exact .inr (Zipper.toEnd_text e ▸ h)
  | keyAltB =>
    rw [edit, moveWordLeft, Zipper.back_text, Zipper.back_text] at h
    exact .inr h
  | keyAltF =>
    rw [edit, moveWordRight, Zipper.forth_text, Zipper.forth_text] at h
    exact .inr h
  | _ => exact .inr h

end LineEditor

end Centaurx.SshServer
