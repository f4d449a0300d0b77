import Mathlib.Data.List.DropRight

namespace Centaurx
open List

structure Zipper (α : Type*) where
  before : List α
  after : List α
  deriving DecidableEq

namespace Zipper

variable {α : Type*} (z : Zipper α)

def text : List α := z.before ++ z.after

def insert (x : α) : Zipper α := ⟨z.before ++ [x], z.after⟩

def backspace : Zipper α := ⟨z.before.dropLast, z.after⟩

def delete : Zipper α := ⟨z.before, z.after.tail⟩

def left : Zipper α :=
  match z.before.getLast? with
  | none => z
  | some x => ⟨z.before.dropLast, x :: z.after⟩

def right : Zipper α :=
  match z.after with
  | [] => z
  | x :: rest => ⟨z.before ++ [x], rest⟩

def toStart : Zipper α := ⟨[], z.text⟩

def toEnd : Zipper α := ⟨z.text, []⟩

/-- Back over the items next to the cursor for which the test holds. -/
def back (p : α → Bool) : Zipper α := ⟨z.before.rdropWhile p, z.before.rtakeWhile p ++ z.after⟩

def forth (p : α → Bool) : Zipper α := ⟨z.before ++ z.after.takeWhile p, z.after.dropWhile p⟩

/-- These items are taken out. -/
def killBack (p : α → Bool) : Zipper α := ⟨z.before.rdropWhile p, z.after⟩

def killForth (p : α → Bool) : Zipper α := ⟨z.before, z.after.dropWhile p⟩

/-- Forth over at most so many of these items. -/
def advance (p : α → Bool) (n : ℕ) : Zipper α :=
  ⟨z.before ++ (z.after.takeWhile p).take n, (z.after.takeWhile p).drop n ++ z.after.dropWhile p⟩

variable (br : α → Bool)

/-- The items of a line. -/
def plain (x : α) : Bool := !br x

def col : ℕ := (z.before.rtakeWhile (plain br)).length

def up : Zipper α :=
  let start := z.back (plain br)
  if start.before = [] then z else (start.left.back (plain br)).advance (plain br) (z.col br)

def down : Zipper α :=
  let stop := z.forth (plain br)
  if stop.after = [] then z else stop.right.advance (plain br) (z.col br)

theorem left_text : z.left.text = z.text := by
  rw [left]
  split
  · rfl
  · next x hx =>
    rw [text, text, ← singleton_append, ← append_assoc,
      dropLast_append_getLast? x hx]

theorem right_text : z.right.text = z.text := by
  rw [right, text, text]
  split
  · rfl
  · next x rest hx => rw [hx, append_assoc, singleton_append]

theorem toStart_text : z.toStart.text = z.text := rfl

theorem toEnd_text : z.toEnd.text = z.text := append_nil _

theorem back_text (p : α → Bool) : (z.back p).text = z.text := by
  rw [back, text, text, ← append_assoc, rdropWhile_append_rtakeWhile]

theorem forth_text (p : α → Bool) : (z.forth p).text = z.text := by
  rw [forth, text, text, append_assoc, takeWhile_append_dropWhile]

theorem advance_text (p : α → Bool) (n : ℕ) : (z.advance p n).text = z.text := by
  rw [advance, text, text, append_assoc, ← append_assoc _ _ (z.after.dropWhile p),
    take_append_drop, takeWhile_append_dropWhile]

theorem up_text : (z.up br).text = z.text := by
  simp only [up]
  split_ifs
  · rfl
  · rw [advance_text, back_text, left_text, back_text]

theorem down_text : (z.down br).text = z.text := by
  simp only [down]
  split_ifs
  · rfl
  · rw [advance_text, right_text, forth_text]

variable {z} {br}

theorem left_of_start (h : z.before = []) : z.left = z := by
  rw [left, h]
  rfl

theorem right_of_end (h : z.after = []) : z.right = z := by
  rw [right, h]

theorem left_before : z.left.before = z.before.dropLast := by
  rw [left]
  split
  · next h => rw [getLast?_eq_none_iff.mp h, dropLast_nil]
  · rfl

theorem right_after : z.right.after = z.after.tail := by
  rw [right]
  split
  · next h => rw [h, tail_nil]
  · next h => rw [h, tail_cons]

theorem length_left : z.left.before.length = z.before.length - 1 := by
  rw [left_before, length_dropLast]

theorem length_right (h : z.after ≠ []) : z.right.before.length = z.before.length + 1 := by
  obtain ⟨x, rest, hx⟩ := exists_cons_of_ne_nil h
  rw [right, hx, length_append, length_singleton]

theorem length_back (p : α → Bool) :
    (z.back p).before.length + (z.before.rtakeWhile p).length = z.before.length := by
  rw [back, ← length_append, rdropWhile_append_rtakeWhile]

theorem length_back_le (p : α → Bool) : (z.back p).before.length ≤ z.before.length :=
  length_back (z := z) p ▸ Nat.le_add_right _ _

theorem length_forth (p : α → Bool) :
    (z.forth p).before.length = z.before.length + (z.after.takeWhile p).length :=
  length_append

theorem length_forth_le (p : α → Bool) : z.before.length ≤ (z.forth p).before.length :=
  length_forth (z := z) p ▸ Nat.le_add_right _ _

variable {p : α → Bool}

theorem killBack_of_length (h : z.before.length ≤ (z.back p).before.length) : z.killBack p = z := by
  have hsub : z.before.rdropWhile p <+: z.before := rdropWhile_prefix _ _
  rw [killBack, hsub.eq_of_length_le h]

theorem back_of_start (h : z.before = []) : z.back p = z := by
  obtain ⟨before, after⟩ := z
  cases h
  rfl

theorem killBack_of_start (h : z.before = []) : z.killBack p = z :=
  killBack_of_length (by rw [back_of_start h])

theorem forth_of_end (h : z.after = []) : z.forth p = z := by
  obtain ⟨before, after⟩ := z
  cases h
  simp [forth]

theorem killForth_of_length (h : (z.forth p).before.length ≤ z.before.length) :
    z.killForth p = z := by
  have hnil : z.after.takeWhile p = [] := by
    rw [length_forth] at h
    exact eq_nil_of_length_eq_zero (by omega)
  have hsplit := takeWhile_append_dropWhile (p := p) (l := z.after)
  rw [hnil, nil_append] at hsplit
  rw [killForth, hsplit]

theorem killForth_of_end (h : z.after = []) : z.killForth p = z :=
  killForth_of_length (by rw [forth_of_end h])

/-- No break. -/
def Unbroken (br : α → Bool) (l : List α) : Prop := ∀ x ∈ l, plain br x = true

/-- A line begins behind this: at the start of the text, or behind a break. -/
def Begins (br : α → Bool) (front : List α) : Prop := ∀ b ∈ front.getLast?, br b = true

/-- A line ends in front of this. -/
def Ends (br : α → Bool) (rest : List α) : Prop := ∀ b ∈ rest.head?, br b = true

section

variable {front cur rest : List α} {b : α}

theorem begins_concat (hb : br b = true) (l : List α) : Begins br (l ++ [b]) := by
  intro b' hb'
  rw [getLast?_concat, Option.mem_some] at hb'
  rwa [← hb']

theorem ends_cons (hb : br b = true) (l : List α) : Ends br (b :: l) := by
  intro b' hb'
  rw [head?_cons, Option.mem_some] at hb'
  rwa [← hb']

theorem unbroken_takeWhile (br : α → Bool) (l : List α) : Unbroken br (l.takeWhile (plain br)) :=
  fun _ hx => mem_takeWhile_imp hx

theorem unbroken_rtakeWhile (br : α → Bool) (l : List α) : Unbroken br (l.rtakeWhile (plain br)) :=
  fun _ => mem_rtakeWhile_imp

theorem begins_rdropWhile (br : α → Bool) (l : List α) : Begins br (l.rdropWhile (plain br)) := by
  intro b hb
  have hne : l.rdropWhile (plain br) ≠ [] := fun hnil => by simp [hnil] at hb
  have hlast := rdropWhile_last_not (plain br) l hne
  rw [getLast?_eq_some_getLast hne, Option.mem_some] at hb
  simpa [plain, hb] using hlast

theorem ends_dropWhile (br : α → Bool) (l : List α) : Ends br (l.dropWhile (plain br)) := by
  intro b hb
  have hhead := head?_dropWhile_not (plain br) l
  rw [Option.mem_def.mp hb] at hhead
  simpa [plain] using hhead

theorem takeWhile_line (hcur : Unbroken br cur) (hrest : Ends br rest) :
    (cur ++ rest).takeWhile (plain br) = cur := by
  have hnil : rest.takeWhile (plain br) = [] := by
    cases rest with
    | nil => rfl
    | cons b rest => exact takeWhile_cons_of_neg (by simp [plain, hrest b rfl])
  rw [takeWhile_append_of_pos hcur, hnil, append_nil]

theorem rtakeWhile_line (hfront : Begins br front) (hcur : Unbroken br cur) :
    (front ++ cur).rtakeWhile (plain br) = cur := by
  have hcur' : Unbroken br cur.reverse := fun x hx => hcur x (mem_reverse.mp hx)
  have hfront' : Ends br front.reverse := fun b hb => hfront b (head?_reverse ▸ hb)
  rw [rtakeWhile, reverse_append, takeWhile_line hcur' hfront', reverse_reverse]

/-- Back to the start of the line, forth to its end, and to a column of it. -/
theorem back_line (hfront : Begins br front) (hcur : Unbroken br cur) (after : List α) :
    back ⟨front ++ cur, after⟩ (plain br) = ⟨front, cur ++ after⟩ := by
  have hsplit := rdropWhile_append_rtakeWhile (p := plain br) (l := front ++ cur)
  rw [rtakeWhile_line hfront hcur] at hsplit
  rw [back, rtakeWhile_line hfront hcur, append_cancel_right hsplit]

theorem forth_line (hcur : Unbroken br cur) (hrest : Ends br rest) (before : List α) :
    forth ⟨before, cur ++ rest⟩ (plain br) = ⟨before ++ cur, rest⟩ := by
  have hsplit := takeWhile_append_dropWhile (p := plain br) (l := cur ++ rest)
  rw [takeWhile_line hcur hrest] at hsplit
  rw [forth, takeWhile_line hcur hrest, append_cancel_left hsplit]

theorem advance_line (hcur : Unbroken br cur) (hrest : Ends br rest) (before : List α) (n : ℕ) :
    advance ⟨before, cur ++ rest⟩ (plain br) n = ⟨before ++ cur.take n, cur.drop n ++ rest⟩ := by
  have hsplit := takeWhile_append_dropWhile (p := plain br) (l := cur ++ rest)
  rw [takeWhile_line hcur hrest] at hsplit
  rw [advance, takeWhile_line hcur hrest, append_cancel_left hsplit]

theorem col_line (hfront : Begins br front) (hcur : Unbroken br cur) (after : List α) :
    col ⟨front ++ cur, after⟩ br = cur.length := by
  rw [col, rtakeWhile_line hfront hcur]

end

theorem up_of_start (h : (z.back (plain br)).before = []) : z.up br = z := by
  simp only [up, if_pos h]

theorem down_of_end (h : (z.forth (plain br)).after = []) : z.down br = z := by
  simp only [down, if_pos h]

theorem up_first (h : Unbroken br z.before) : z.up br = z :=
  up_of_start (rdropWhile_eq_nil_iff.mpr h)

theorem down_last (h : Unbroken br z.after) : z.down br = z :=
  down_of_end (dropWhile_eq_nil_iff.mpr h)

theorem up_line {front above cur : List α} {b : α} (hfront : Begins br front)
    (habove : Unbroken br above) (hb : br b = true) (hcur : Unbroken br cur) (after : List α) :
    up ⟨front ++ above ++ b :: cur, after⟩ br =
      ⟨front ++ above.take cur.length, above.drop cur.length ++ b :: (cur ++ after)⟩ := by
  have hstart := back_line (begins_concat hb (front ++ above)) hcur after
  have hcol := col_line (begins_concat hb (front ++ above)) hcur after
  have hleft : left ⟨front ++ above ++ [b], cur ++ after⟩ =
      ⟨front ++ above, b :: (cur ++ after)⟩ := by
    rw [left, getLast?_concat, dropLast_concat]
  have hne : front ++ above ++ [b] ≠ [] := append_ne_nil_of_right_ne_nil _ (by simp)
  rw [append_cons]
  simp only [up, hstart, hcol, if_neg hne]
  rw [hleft, back_line hfront habove, advance_line habove (ends_cons hb _)]

theorem down_line {front cur rest below back : List α} {b : α} (hfront : Begins br front)
    (hcur : Unbroken br cur) (hrest : Unbroken br rest) (hb : br b = true)
    (hbelow : Unbroken br below) (hback : Ends br back) :
    down ⟨front ++ cur, rest ++ b :: (below ++ back)⟩ br =
      ⟨front ++ cur ++ rest ++ b :: below.take cur.length, below.drop cur.length ++ back⟩ := by
  have hstop := forth_line hrest (ends_cons hb (below ++ back)) (front ++ cur)
  have hcol := col_line hfront hcur (rest ++ b :: (below ++ back))
  have hright : right ⟨front ++ cur ++ rest, b :: (below ++ back)⟩ =
      ⟨front ++ cur ++ rest ++ [b], below ++ back⟩ := rfl
  simp only [down, hstop, hcol, if_neg (cons_ne_nil b (below ++ back))]
  rw [hright, advance_line hbelow hback, append_assoc _ [b], singleton_append]

/-- Up and down again, when the line above is long enough. -/
theorem down_up {front above cur : List α} {b : α} (hfront : Begins br front)
    (habove : Unbroken br above) (hb : br b = true) (hcur : Unbroken br cur) (after : List α)
    (hle : cur.length ≤ above.length) :
    down (up ⟨front ++ above ++ b :: cur, after⟩ br) br = ⟨front ++ above ++ b :: cur, after⟩ := by
  have hline : Unbroken br (cur ++ after.takeWhile (plain br)) :=
    forall_mem_append.mpr ⟨hcur, unbroken_takeWhile br after⟩
  have htake : Unbroken br (above.take cur.length) := fun x hx => habove x (mem_of_mem_take hx)
  have hdrop : Unbroken br (above.drop cur.length) := fun x hx => habove x (mem_of_mem_drop hx)
  have hdown := down_line hfront htake hdrop hb hline (ends_dropWhile br after)
  rw [append_assoc cur, takeWhile_append_dropWhile, length_take,
    Nat.min_eq_left hle, take_left, drop_left, takeWhile_append_dropWhile,
    append_assoc front (above.take _), take_append_drop] at hdown
  rw [up_line hfront habove hb hcur, hdown]

theorem length_advance (p : α → Bool) (n : ℕ) :
    (z.advance p n).before.length = z.before.length + min n (z.after.takeWhile p).length := by
  rw [advance, length_append, length_take]

theorem length_rtakeWhile (p : α → Bool) :
    (z.before.rtakeWhile p).length = z.before.length - (z.back p).before.length := by
  have hback := length_back (z := z) p
  omega

theorem length_up (h : (z.back (plain br)).before ≠ []) :
    (z.up br).before.length = ((z.back (plain br)).left.back (plain br)).before.length +
      min (z.before.length - (z.back (plain br)).before.length)
        ((z.back (plain br)).before.length - 1 -
          ((z.back (plain br)).left.back (plain br)).before.length) := by
  -- behind the line above stands the break
  have hbreak : (z.back (plain br)).left.after.takeWhile (plain br) = [] := by
    have hlast := getLast?_eq_some_getLast h
    have hb := begins_rdropWhile br z.before _ hlast
    rw [left, hlast]
    exact takeWhile_cons_of_neg (by simp [plain, hb])
  have hline : (((z.back (plain br)).left.back (plain br)).after.takeWhile (plain br)).length =
      (z.back (plain br)).before.length - 1 -
        ((z.back (plain br)).left.back (plain br)).before.length := by
    rw [← length_left, ← length_rtakeWhile, back,
      takeWhile_append_of_pos fun _ => mem_rtakeWhile_imp, hbreak, append_nil]
  simp only [up, if_neg h]
  rw [length_advance, hline, col, length_rtakeWhile]

theorem length_down (h : (z.forth (plain br)).after ≠ []) :
    (z.down br).before.length = (z.forth (plain br)).right.before.length +
      min (z.before.length - (z.back (plain br)).before.length)
        (((z.forth (plain br)).right.forth (plain br)).before.length -
          (z.forth (plain br)).right.before.length) := by
  simp only [down, if_neg h]
  rw [length_advance, col, length_rtakeWhile, length_forth (z := (z.forth (plain br)).right),
    Nat.add_sub_cancel_left]

end Zipper

end Centaurx
