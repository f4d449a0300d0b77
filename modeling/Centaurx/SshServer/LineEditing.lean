import Centaurx.Lib.Slices
import Centaurx.SshServer.Editor

namespace Centaurx.SshServer
open Go hiding isSpace
open List LineEditor Zipper

def inLine (r : ℕ) : Bool := !isNewline r

/-- `lineEditor`, with the memory that its slice is in. -/
structure RawEditor where
  mem : Arrays ℕ
  buf : Slice
  cursor : ℤ

namespace RawEditor

variable (e : RawEditor)

def len : ℤ := e.buf.len

/-- Backwards over `buf[i-1]`, `buf[i-2]` and so on, as long as the test holds: the two loops of
the word commands, and those that look for the newline in front. -/
def scanBack (p : ℕ → Bool) : ℕ → Option ℤ
  | 0 => some 0
  | i + 1 => do
    let r ← e.mem.at? e.buf i
    if p r then scanBack p i else some (i + 1)

/-- The loop `for i < len(buf) && p(buf[i]) { i++ }`, with the rounds that are left, and the loops
that look for the next newline. -/
def scanForth (p : ℕ → Bool) : ℕ → ℤ → Option ℤ
  | 0, i => some i
  | n + 1, i => do
    let r ← e.mem.at? e.buf i
    if p r then scanForth p n (i + 1) else some i

def clear : RawEditor :=
  let new := e.mem.alloc [] []
  { mem := new.1, buf := new.2, cursor := 0 }

def setString (value : GoString) : RawEditor :=
  if value = [] then e.clear
  else
    let new := e.mem.alloc (toRunes value) []
    { mem := new.1, buf := new.2, cursor := new.2.len }

/-- `append(e.buf[:start], e.buf[stop:]...)` -/
def cut (room : List ℕ) (start stop : ℤ) : Option (Arrays ℕ × Slice) := do
  let front ← e.mem.upTo e.buf start
  let rest ← e.mem.itemsFrom e.buf stop
  some (e.mem.append room front rest)

def insertRune (room : List ℕ) (r : ℕ) : Option RawEditor := do
  let cursor := if e.cursor < 0 then 0 else e.cursor
  let cursor := if cursor > e.len then e.len else cursor
  let front ← e.mem.upTo e.buf cursor
  let rest ← e.mem.itemsFrom e.buf cursor
  let one := e.mem.alloc [r] []
  let tail := one.1.append room one.2 rest
  let new := tail.1.append room front (tail.1.items tail.2)
  some { mem := new.1, buf := new.2, cursor := cursor + 1 }

def backspace (room : List ℕ) : Option RawEditor :=
  if e.cursor ≤ 0 then some e
  else do
    let new ← e.cut room (e.cursor - 1) e.cursor
    some { mem := new.1, buf := new.2, cursor := e.cursor - 1 }

def delete (room : List ℕ) : Option RawEditor :=
  if e.cursor < 0 ∨ e.cursor ≥ e.len then some e
  else do
    let new ← e.cut room e.cursor (e.cursor + 1)
    some { e with mem := new.1, buf := new.2 }

def moveLeft : RawEditor := if e.cursor > 0 then { e with cursor := e.cursor - 1 } else e

def moveRight : RawEditor := if e.cursor < e.len then { e with cursor := e.cursor + 1 } else e

def moveStart : RawEditor := { e with cursor := 0 }

def moveEnd : RawEditor := { e with cursor := e.len }

/-- The two loops of `MoveWordLeft` and `DeleteWordBackward`. -/
def wordStart : Option ℤ := do
  let i ← e.scanBack isSpace e.cursor.toNat
  e.scanBack inWord i.toNat

def moveWordLeft : Option RawEditor :=
  if e.cursor ≤ 0 then some e
  else do
    let i ← e.wordStart
    some { e with cursor := i }

def moveWordRight : Option RawEditor :=
  if e.cursor ≥ e.len then some e
  else do
    let i ← e.scanForth isSpace (e.len - e.cursor).toNat e.cursor
    let i ← e.scanForth inWord (e.len - i).toNat i
    some { e with cursor := i }

def deleteWordBackward (room : List ℕ) : Option RawEditor :=
  if e.cursor ≤ 0 then some e
  else do
    let start ← e.wordStart
    let new ← e.cut room start e.cursor
    some { mem := new.1, buf := new.2, cursor := start }

def lineStart : Option ℤ := e.scanBack inLine e.cursor.toNat

def lineEnd : Option ℤ := e.scanForth inLine (e.len - e.cursor).toNat e.cursor

def moveUp : Option RawEditor := do
  let start ← e.lineStart
  if start = 0 then some e
  else
    let col := e.cursor - start
    let prevEnd := start - 1
    let prevStart ← e.scanBack inLine prevEnd.toNat
    let prevLen := prevEnd - prevStart
    let col := if col > prevLen then prevLen else col
    some { e with cursor := prevStart + col }

def moveDown : Option RawEditor := do
  let stop ← e.lineEnd
  if stop ≥ e.len then some e
  else
    let start ← e.lineStart
    let col := e.cursor - start
    let nextStart := stop + 1
    let nextEnd ← e.scanForth inLine (e.len - nextStart).toNat nextStart
    let nextLen := nextEnd - nextStart
    let col := if col > nextLen then nextLen else col
    some { e with cursor := nextStart + col }

def killLineStart (room : List ℕ) : Option RawEditor :=
  if e.cursor ≤ 0 then some e
  else do
    let start ← e.lineStart
    if start ≥ e.cursor then some e
    else
      let new ← e.cut room start e.cursor
      some { mem := new.1, buf := new.2, cursor := start }

def killLineEnd (room : List ℕ) : Option RawEditor :=
  if e.cursor ≥ e.len then some e
  else do
    let stop ← e.lineEnd
    if stop ≤ e.cursor then some e
    else
      let new ← e.cut room e.cursor stop
      some { e with mem := new.1, buf := new.2 }

variable {e} {z w w' : Zipper ℕ}

/-- The slice shows the text around a place in it. -/
structure Reads (e : RawEditor) (w : Zipper ℕ) : Prop where
  has : e.mem.Has e.buf
  items : e.mem.items e.buf = w.text

/-- The cursor is at the place. -/
structure Shows (e : RawEditor) (z : Zipper ℕ) : Prop extends Reads e z where
  cursor : e.cursor = z.before.length

theorem Reads.moved (h : e.Reads z) (hw : w.text = z.text) : e.Reads w :=
  ⟨h.has, h.items.trans hw.symm⟩

theorem Reads.len_eq (h : e.Reads w) : e.len = w.before.length + w.after.length := by
  have hlen := Arrays.length_items h.has
  rw [h.items, Zipper.text, length_append] at hlen
  rw [len, ← hlen, Nat.cast_add]

theorem Reads.scanBack_eq (h : e.Reads w) (p : ℕ → Bool) :
    e.scanBack p w.before.length = some ((w.back p).before.length : ℤ) := by
  obtain ⟨before, after⟩ := w
  induction before using reverseRecOn generalizing after with
  | nil => rfl
  | append_singleton pre x ih =>
    have hx : e.mem.at? e.buf pre.length = some x := by
      rw [Arrays.at?_eq, h.items]
      simp [Zipper.text]
    rw [Zipper.back, length_append, length_singleton, scanBack, hx]
    by_cases hp : p x = true
    · rw [rdropWhile_concat_pos _ _ _ hp]
      exact (if_pos hp).trans (ih (x :: after) (h.moved (by simp [Zipper.text])))
    · rw [rdropWhile_concat_neg _ _ _ hp, length_append]
      exact if_neg hp

theorem Reads.scanForth_rounds (h : e.Reads w) (p : ℕ → Bool) :
    e.scanForth p w.after.length w.before.length = some ((w.forth p).before.length : ℤ) := by
  obtain ⟨before, after⟩ := w
  induction after generalizing before with
  | nil => simp [scanForth, Zipper.forth]
  | cons x after ih =>
    have hx : e.mem.at? e.buf before.length = some x := by
      rw [Arrays.at?_eq, h.items]
      simp [Zipper.text]
    rw [Zipper.forth, length_cons, scanForth, hx]
    by_cases hp : p x = true
    · have hrest := ih (before ++ [x]) (h.moved (by simp [Zipper.text]))
      rw [Zipper.forth, length_append, length_singleton, Nat.cast_succ,
        append_assoc, singleton_append] at hrest
      rw [takeWhile_cons_of_pos hp]
      exact (if_pos hp).trans hrest
    · rw [takeWhile_cons_of_neg hp, append_nil]
      exact if_neg hp

theorem Reads.scanForth_eq (h : e.Reads w) (p : ℕ → Bool) :
    e.scanForth p (e.len - w.before.length).toNat w.before.length =
      some ((w.forth p).before.length : ℤ) := by
  have hlen := h.len_eq
  have hrounds : (e.len - w.before.length).toNat = w.after.length := by omega
  rw [hrounds, h.scanForth_rounds]

/-- The operation does not panic, and the editor then shows this. -/
def Gives (o : Option RawEditor) (z : Zipper ℕ) : Prop := ∃ e', o = some e' ∧ e'.Shows z

theorem Shows.stays (h : e.Shows z) (hw : w = z) : Gives (some e) w := ⟨e, rfl, hw ▸ h⟩

theorem Shows.moves (h : e.Shows z) (hw : w.text = z.text) {i : ℤ} (hi : i = w.before.length) :
    Gives (some { e with cursor := i }) w :=
  ⟨_, rfl, ⟨h.has, h.items.trans hw.symm⟩, hi⟩

theorem Shows.cuts (h : e.Shows z) (room : List ℕ) (hw : w.text = z.text) (hw' : w'.text = z.text)
    (hle : w.before.length ≤ w'.before.length) :
    Gives ((e.cut room w.before.length w'.before.length).bind fun new =>
      some { mem := new.1, buf := new.2, cursor := w.before.length }) ⟨w.before, w'.after⟩ := by
  have hlen := (h.moved hw').len_eq
  have hcap := h.has.2
  rw [len] at hlen
  have hfront := Arrays.items_upTo h.has (n := w.before.length) (by omega)
  have hrest := Arrays.itemsFrom_eq (m := e.mem) (s := e.buf) (n := w'.before.length) (by omega)
  have hhas : e.mem.Has { e.buf with len := w.before.length } := ⟨h.has.1, by dsimp only; omega⟩
  have happend := Arrays.items_append hhas room ((e.mem.items e.buf).drop w'.before.length)
  have htake : (e.mem.items e.buf).take w.before.length = w.before := by
    rw [(h.moved hw).items, Zipper.text, take_left]
  have hdrop : (e.mem.items e.buf).drop w'.before.length = w'.after := by
    rw [(h.moved hw').items, Zipper.text, drop_left]
  rw [cut, hfront.1, hrest]
  refine ⟨_, rfl, ⟨happend.1, ?_⟩, rfl⟩
  rw [happend.2, hfront.2, htake, hdrop, Zipper.text]

theorem Shows.at_start (h : e.Shows z) : e.cursor ≤ 0 ↔ z.before = [] := by
  rw [h.cursor, ← length_eq_zero_iff]
  omega

theorem Shows.at_end (h : e.Shows z) : e.cursor ≥ e.len ↔ z.after = [] := by
  rw [h.cursor, h.len_eq, ← length_eq_zero_iff]
  omega

theorem clear_shows : e.clear.Shows ⟨[], []⟩ := by
  obtain ⟨hhas, hitems⟩ := Arrays.items_alloc (m := e.mem) [] []
  exact ⟨⟨hhas, hitems⟩, rfl⟩

theorem setString_shows (value : GoString) : (e.setString value).Shows ⟨toRunes value, []⟩ := by
  rw [setString]
  split_ifs with hnil
  · rw [hnil]
    exact clear_shows
  · obtain ⟨hhas, hitems⟩ := Arrays.items_alloc (m := e.mem) (toRunes value) []
    exact ⟨⟨hhas, hitems.trans (append_nil _).symm⟩, rfl⟩

theorem insertRune_gives (h : e.Shows z) (room : List ℕ) (r : ℕ) :
    Gives (e.insertRune room r) (z.insert r) := by
  have hcursor := h.cursor
  have hlen := h.len_eq
  have hcap := h.has.2
  have hbuf : (e.buf.len : ℤ) = e.len := rfl
  have hfront := Arrays.items_upTo h.has (n := z.before.length) (by omega)
  have hrest := Arrays.itemsFrom_eq (m := e.mem) (s := e.buf) (n := z.before.length) (by omega)
  have hhas : e.mem.Has { e.buf with len := z.before.length } := ⟨h.has.1, by dsimp only; omega⟩
  -- the new rune and the runes behind it get an array of their own
  have hone := Arrays.items_alloc (m := e.mem) [r] []
  have htail := Arrays.items_append hone.1 room ((e.mem.items e.buf).drop z.before.length)
  have hfront' := Arrays.keeps_alloc hhas [r] []
  have hne : e.buf.array ≠ (e.mem.alloc [r] []).2.array := Nat.ne_of_lt hhas.1
  have hkeeps := Arrays.keeps_append hfront'.1 hne room ((e.mem.items e.buf).drop z.before.length)
  have hnew := Arrays.items_append hkeeps.1 room ([r] ++ (e.mem.items e.buf).drop z.before.length)
  simp only [insertRune]
  rw [if_neg (by omega : ¬e.cursor < 0), if_neg (by omega : ¬e.cursor > e.len), hcursor, hfront.1,
    hrest]
  refine ⟨_, rfl, ⟨?_, ?_⟩, ?_⟩
  · rw [htail.2, hone.2]
    exact hnew.1
  · rw [htail.2, hone.2]
    refine hnew.2.trans ?_
    rw [hkeeps.2, hfront'.2, hfront.2, h.items]
    simp [Zipper.text, Zipper.insert]
  · simp [Zipper.insert]

theorem backspace_gives (h : e.Shows z) (room : List ℕ) :
    Gives (e.backspace room) z.backspace := by
  rw [backspace, Zipper.backspace, ← left_before]
  split_ifs with hstart
  · refine h.stays ?_
    rw [left_of_start (h.at_start.mp hstart)]
  · have hprev : e.cursor - 1 = (z.left.before.length : ℤ) := by
      rw [length_left, h.cursor] at *
      omega
    rw [hprev, h.cursor]
    exact h.cuts room (left_text z) rfl (by rw [length_left]; omega)

theorem delete_gives (h : e.Shows z) (room : List ℕ) : Gives (e.delete room) z.delete := by
  have hcursor := h.cursor
  rw [delete, Zipper.delete, ← right_after]
  by_cases hend : z.after = []
  · rw [if_pos (.inr (h.at_end.mpr hend))]
    refine h.stays ?_
    rw [right_of_end hend]
  · have hnext : e.cursor + 1 = (z.right.before.length : ℤ) := by
      rw [length_right hend, hcursor, Nat.cast_succ]
    rw [if_neg (not_or.mpr ⟨by omega, mt h.at_end.mp hend⟩), hnext, hcursor]
    exact h.cuts room rfl (right_text z) (by rw [length_right hend]; omega)

theorem moveLeft_gives (h : e.Shows z) : Gives (some e.moveLeft) z.left := by
  have hcursor := h.cursor
  rw [moveLeft]
  split_ifs with hpos
  · refine h.moves (left_text z) ?_
    rw [length_left]
    omega
  · exact h.stays (left_of_start (h.at_start.mp (by omega)))

theorem moveRight_gives (h : e.Shows z) : Gives (some e.moveRight) z.right := by
  rw [moveRight]
  by_cases hend : z.after = []
  · rw [if_neg (not_lt.mpr (h.at_end.mpr hend))]
    exact h.stays (right_of_end hend)
  · rw [if_pos (not_le.mp (mt h.at_end.mp hend))]
    refine h.moves (right_text z) ?_
    rw [length_right hend, h.cursor, Nat.cast_succ]

theorem moveEnd_gives (h : e.Shows z) : Gives (some e.moveEnd) z.toEnd := by
  refine h.moves (toEnd_text z) ?_
  rw [h.len_eq, Zipper.toEnd, Zipper.text, length_append, Nat.cast_add]

theorem wordStart_eq (h : e.Shows z) :
    e.wordStart = some (((z.back isSpace).back inWord).before.length : ℤ) := by
  have hword := (h.moved (back_text z isSpace)).scanBack_eq inWord
  rw [wordStart, h.cursor, Int.toNat_natCast, h.scanBack_eq]
  exact hword

theorem moveWordLeft_gives (h : e.Shows z) :
    Gives e.moveWordLeft ((z.back isSpace).back inWord) := by
  rw [moveWordLeft]
  split_ifs with hstart
  · have hnil := h.at_start.mp hstart
    refine h.stays ?_
    rw [back_of_start hnil, back_of_start hnil]
  · rw [wordStart_eq h]
    exact h.moves (by rw [back_text, back_text]) rfl

theorem moveWordRight_gives (h : e.Shows z) :
    Gives e.moveWordRight ((z.forth isSpace).forth inWord) := by
  have hword := (h.moved (forth_text z isSpace)).scanForth_eq inWord
  rw [moveWordRight]
  split_ifs with hend
  · have hnil := h.at_end.mp hend
    refine h.stays ?_
    rw [forth_of_end hnil, forth_of_end hnil]
  · rw [h.cursor, h.scanForth_eq, Option.bind_eq_bind, Option.bind_some, hword]
    exact h.moves (by rw [forth_text, forth_text]) rfl

theorem deleteWordBackward_gives (h : e.Shows z) (room : List ℕ) :
    Gives (e.deleteWordBackward room) ((z.killBack isSpace).killBack inWord) := by
  have hle := (length_back_le (z := z.back isSpace) inWord).trans
    (length_back_le isSpace)
  rw [deleteWordBackward]
  split_ifs with hstart
  · have hnil := h.at_start.mp hstart
    refine h.stays ?_
    rw [killBack_of_start hnil, killBack_of_start hnil]
  · rw [wordStart_eq h, h.cursor, Option.bind_eq_bind, Option.bind_some]
    exact h.cuts room (by rw [back_text, back_text]) rfl hle

theorem plain_newline : plain isNewline = inLine := rfl

theorem lineStart_eq (h : e.Shows z) :
    e.lineStart = some ((z.back (plain isNewline)).before.length : ℤ) := by
  rw [lineStart, h.cursor, Int.toNat_natCast, h.scanBack_eq, plain_newline]

theorem lineEnd_eq (h : e.Shows z) :
    e.lineEnd = some ((z.forth (plain isNewline)).before.length : ℤ) := by
  rw [lineEnd, h.cursor, h.scanForth_eq, plain_newline]

theorem moveUp_gives (h : e.Shows z) : Gives e.moveUp (z.up isNewline) := by
  have hcursor := h.cursor
  have hle := length_back_le (z := z) (plain isNewline)
  simp only [moveUp, lineStart_eq h, Option.bind_eq_bind, Option.bind_some]
  by_cases hnil : (z.back (plain isNewline)).before = []
  · rw [if_pos (by rw [hnil]; rfl)]
    exact h.stays (up_of_start hnil)
  · have hpos := length_pos_of_ne_nil hnil
    have hend : ((z.back (plain isNewline)).before.length - 1 : ℤ).toNat =
        (z.back (plain isNewline)).left.before.length := by
      rw [length_left]
      omega
    have habove : (z.back (plain isNewline)).left.text = z.text := by
      rw [left_text, back_text]
    have hprev := length_back_le (z := (z.back (plain isNewline)).left)
      (plain isNewline)
    have hup := length_up hnil
    rw [length_left] at hprev
    rw [if_neg (by omega), hend, (h.moved habove).scanBack_eq, ← plain_newline, Option.bind_some]
    refine h.moves (up_text z _) ?_
    rw [hup]
    split_ifs <;> omega

theorem moveDown_gives (h : e.Shows z) : Gives e.moveDown (z.down isNewline) := by
  have hcursor := h.cursor
  have hle := length_back_le (z := z) (plain isNewline)
  have hat := (h.moved (forth_text z (plain isNewline))).len_eq
  simp only [moveDown, lineEnd_eq h, lineStart_eq h, Option.bind_eq_bind, Option.bind_some]
  by_cases hnil : (z.forth (plain isNewline)).after = []
  · rw [if_pos (by rw [hat, hnil]; simp)]
    exact h.stays (down_of_end hnil)
  · have hpos := length_pos_of_ne_nil hnil
    have hnext : ((z.forth (plain isNewline)).before.length + 1 : ℤ) =
        (z.forth (plain isNewline)).right.before.length := by
      rw [length_right hnil, Nat.cast_succ]
    have hbelow : (z.forth (plain isNewline)).right.text = z.text := by
      rw [right_text, forth_text]
    have hforth := length_forth_le (z := (z.forth (plain isNewline)).right)
      (plain isNewline)
    rw [if_neg (by omega), hnext, (h.moved hbelow).scanForth_eq, ← plain_newline,
      Option.bind_some]
    refine h.moves (down_text z _) ?_
    rw [length_down hnil]
    split_ifs <;> omega

theorem killLineStart_gives (h : e.Shows z) (room : List ℕ) :
    Gives (e.killLineStart room) (z.killBack (plain isNewline)) := by
  have hcursor := h.cursor
  have hle := length_back_le (z := z) (plain isNewline)
  simp only [killLineStart, lineStart_eq h, Option.bind_eq_bind, Option.bind_some]
  split_ifs with hstart hnone
  · exact h.stays (killBack_of_start (h.at_start.mp hstart))
  · exact h.stays (killBack_of_length (by omega))
  · rw [hcursor]
    exact h.cuts room (back_text z _) rfl hle

theorem killLineEnd_gives (h : e.Shows z) (room : List ℕ) :
    Gives (e.killLineEnd room) (z.killForth (plain isNewline)) := by
  have hcursor := h.cursor
  have hle := length_forth_le (z := z) (plain isNewline)
  simp only [killLineEnd, lineEnd_eq h, Option.bind_eq_bind, Option.bind_some]
  split_ifs with hend hnone
  · exact h.stays (killForth_of_end (h.at_end.mp hend))
  · exact h.stays (killForth_of_length (by omega))
  · rw [hcursor]
    exact h.cuts room rfl (forth_text z _) hle

end RawEditor

inductive EditorOp
  | clear | setString (value : GoString) | insertRune (r : ℕ) | backspace | delete
  | moveLeft | moveRight | moveStart | moveEnd | moveWordLeft | moveWordRight
  | deleteWordBackward | moveUp | moveDown | killLineStart | killLineEnd
  deriving DecidableEq

namespace EditorOp

/-- The operation on the slice; `room` is what the runtime puts behind a new array. -/
def apply (room : List ℕ) (e : RawEditor) : EditorOp → Option RawEditor
  | clear => some e.clear
  | setString value => some (e.setString value)
  | insertRune r => e.insertRune room r
  | backspace => e.backspace room
  | delete => e.delete room
  | moveLeft => some e.moveLeft
  | moveRight => some e.moveRight
  | moveStart => some e.moveStart
  | moveEnd => some e.moveEnd
  | moveWordLeft => e.moveWordLeft
  | moveWordRight => e.moveWordRight
  | deleteWordBackward => e.deleteWordBackward room
  | moveUp => e.moveUp
  | moveDown => e.moveDown
  | killLineStart => e.killLineStart room
  | killLineEnd => e.killLineEnd room

/-- What the operation is for, on the text before the cursor and the text behind it. -/
def spec (z : Zipper ℕ) : EditorOp → Zipper ℕ
  | clear => ⟨[], []⟩
  | setString value => ⟨toRunes value, []⟩
  | insertRune r => z.insert r
  | backspace => z.backspace
  | delete => z.delete
  | moveLeft => z.left
  | moveRight => z.right
  | moveStart => z.toStart
  | moveEnd => z.toEnd
  | moveWordLeft => LineEditor.moveWordLeft id z
  | moveWordRight => LineEditor.moveWordRight id z
  | deleteWordBackward => LineEditor.deleteWordBackward id z
  | moveUp => LineEditor.moveUp id z
  | moveDown => LineEditor.moveDown id z
  | killLineStart => LineEditor.killLineStart id z
  | killLineEnd => LineEditor.killLineEnd id z

def isMove : EditorOp → Bool
  | moveLeft | moveRight | moveStart | moveEnd | moveWordLeft | moveWordRight | moveUp
  | moveDown => true
  | _ => false

theorem spec_text {op : EditorOp} (h : op.isMove = true) (z : Zipper ℕ) :
    (op.spec z).text = z.text := by
  cases op with
  | moveLeft => exact left_text z
  | moveRight => exact right_text z
  | moveStart => exact toStart_text z
  | moveEnd => exact toEnd_text z
  | moveWordLeft => rw [spec, LineEditor.moveWordLeft, back_text, back_text]
  | moveWordRight => rw [spec, LineEditor.moveWordRight, forth_text, forth_text]
  | moveUp => exact up_text z _
  | moveDown => exact down_text z _
  | _ => cases h

end EditorOp

namespace RawEditor

variable {e : RawEditor} {z : Zipper ℕ}

/-- One operation, from every text and cursor. -/
theorem apply_gives (h : e.Shows z) (room : List ℕ) (op : EditorOp) :
    Gives (op.apply room e) (op.spec z) := by
  cases op with
  | clear => exact ⟨_, rfl, clear_shows⟩
  | setString value => exact ⟨_, rfl, setString_shows value⟩
  | insertRune r => exact insertRune_gives h room r
  | backspace => exact backspace_gives h room
  | delete => exact delete_gives h room
  | moveLeft => exact moveLeft_gives h
  | moveRight => exact moveRight_gives h
  | moveStart => exact h.moves (toStart_text z) rfl
  | moveEnd => exact moveEnd_gives h
  | moveWordLeft => exact moveWordLeft_gives h
  | moveWordRight => exact moveWordRight_gives h
  | deleteWordBackward => exact deleteWordBackward_gives h room
  | moveUp => exact moveUp_gives h
  | moveDown => exact moveDown_gives h
  | killLineStart => exact killLineStart_gives h room
  | killLineEnd => exact killLineEnd_gives h room

/-- Operations in turn, each with its own room behind new arrays. -/
def run (e : RawEditor) : List (List ℕ × EditorOp) → Option RawEditor
  | [] => some e
  | o :: ops => (o.2.apply o.1 e).bind fun e' => e'.run ops

theorem run_gives (h : e.Shows z) (ops : List (List ℕ × EditorOp)) :
    Gives (e.run ops) (ops.foldl (fun z o => o.2.spec z) z) := by
  induction ops generalizing e z with
  | nil => exact ⟨e, rfl, h⟩
  | cons o ops ih =>
    obtain ⟨e', he', hshows⟩ := apply_gives h o.1 o.2
    rw [run, he']
    exact ih hshows

/-- The editor's text before the cursor and behind it. -/
def zipper (e : RawEditor) : Zipper ℕ :=
  ⟨(e.mem.items e.buf).take e.cursor.toNat, (e.mem.items e.buf).drop e.cursor.toNat⟩

structure InRange (e : RawEditor) : Prop where
  has : e.mem.Has e.buf
  nonneg : 0 ≤ e.cursor
  le : e.cursor ≤ e.len

theorem InRange.shows (h : e.InRange) : e.Shows e.zipper := by
  have hlen := Arrays.length_items h.has
  have hle := h.le
  have hnonneg := h.nonneg
  rw [len] at hle
  refine ⟨⟨h.has, (take_append_drop _ _).symm⟩, ?_⟩
  rw [zipper, length_take, hlen]
  omega

theorem Shows.inRange (h : e.Shows z) : e.InRange ∧ e.zipper = z := by
  have hcursor := h.cursor
  have hlen := h.len_eq
  refine ⟨⟨h.has, by omega, by omega⟩, ?_⟩
  rw [zipper, hcursor, h.items, Int.toNat_natCast, Zipper.text, take_left, drop_left]

end RawEditor

open EditorOp Zipper

/-- The editor never panics, its cursor stays in its text, and every operation does to the text
before the cursor and behind it what it is for. Moves keep the text; up and down go to the line
next to the cursor's, at its column or at the end of a shorter line, and down undoes up where the
column was kept. -/
theorem editor_run_zipper (e : RawEditor) (he : e.InRange) (ops : List (List ℕ × EditorOp)) :
    ∃ e', e.run ops = some e' ∧ e'.InRange ∧
      e'.zipper = ops.foldl (fun z o => o.2.spec z) e.zipper ∧
      (∀ op : EditorOp, op.isMove = true → (op.spec e'.zipper).text = e'.zipper.text) ∧
      (Unbroken isNewline e'.zipper.before → moveUp.spec e'.zipper = e'.zipper) ∧
      (∀ front above cur after, e'.zipper = ⟨front ++ above ++ 0x0A :: cur, after⟩ →
        Begins isNewline front → Unbroken isNewline above → Unbroken isNewline cur →
        moveUp.spec e'.zipper =
          ⟨front ++ above.take cur.length, above.drop cur.length ++ 0x0A :: (cur ++ after)⟩ ∧
        (cur.length ≤ above.length → moveDown.spec (moveUp.spec e'.zipper) = e'.zipper)) ∧
      (Unbroken isNewline e'.zipper.after → moveDown.spec e'.zipper = e'.zipper) ∧
      (∀ front cur rest below back,
        e'.zipper = ⟨front ++ cur, rest ++ 0x0A :: (below ++ back)⟩ →
        Begins isNewline front → Unbroken isNewline cur → Unbroken isNewline rest →
        Unbroken isNewline below → Ends isNewline back →
        moveDown.spec e'.zipper =
          ⟨front ++ cur ++ rest ++ 0x0A :: below.take cur.length,
            below.drop cur.length ++ back⟩) := by
  obtain ⟨e', hrun, hshows⟩ := RawEditor.run_gives he.shows ops
  obtain ⟨hrange, hzipper⟩ := hshows.inRange
  refine ⟨e', hrun, hrange, hzipper, fun op hop => spec_text hop _, up_first, ?_,
    down_last, ?_⟩
  · intro front above cur after hz hfront habove hcur
    rw [hz]
    exact ⟨up_line hfront habove rfl hcur after,
      down_up hfront habove rfl hcur after⟩
  · intro front cur rest below back hz hfront hcur hrest hbelow hback
    rw [hz]
    exact down_line hfront hcur hrest rfl hbelow hback

/-- From "ab\ncd" with the cursor behind `c`: up, a new rune, and down. -/
theorem editor_run_zipper_two_lines :
    ∃ e', RawEditor.run ⟨[[0x61, 0x62, 0x0A, 0x63, 0x64]], ⟨0, 5⟩, 4⟩
        [([], moveUp), ([], insertRune 0x78), ([], moveDown)] = some e' ∧ e'.InRange ∧
      e'.zipper = ⟨[0x61, 0x78, 0x62, 0x0A, 0x63, 0x64], []⟩ := by
  have hrange : RawEditor.InRange ⟨[[0x61, 0x62, 0x0A, 0x63, 0x64]], ⟨0, 5⟩, 4⟩ :=
    ⟨⟨by decide, by decide⟩, by decide, by decide⟩
  obtain ⟨e', hrun, he', hzipper, -⟩ := editor_run_zipper _ hrange
    [([], moveUp), ([], insertRune 0x78), ([], moveDown)]
  refine ⟨e', hrun, he', hzipper.trans ?_⟩
  decide

end Centaurx.SshServer
