import Centaurx.Schema

namespace Centaurx
open Go List

structure Buffer (α : Type := GoString) where
  lines : List α := []
  scrollOffset : Int := 0
  maxLines : Int
  deriving DecidableEq, Repr

structure BufferView (α : Type := GoString) where
  lines : List α
  totalLines : Int
  scrollOffset : Int
  atBottom : Bool
  deriving DecidableEq, Repr

structure PersistedBuffer where
  lines : List GoString
  scrollOffset : Int
  deriving DecidableEq, Repr

def defaultMaxLines : Int := defaultBufferMaxLines

/-- Addition of Go `int` values. -/
def addInt (a b : Int) : Int := Int.bmod (a + b) (2 ^ 64)

def maxScroll (total limit : Int) : Int :=
  if total ≤ 0 ∨ limit ≤ 0 then 0
  else if total ≤ limit then 0
  else total - limit

def clampScroll (offset total limit : Int) : Int :=
  let max := maxScroll total limit
  if offset < 0 then 0 else if offset > max then max else offset

namespace Buffer

variable {α : Type}

/-- `Append`. A scrolled view is kept on its lines by moving the offset with the batch. -/
def append (b : Buffer α) (ls : List α) : Buffer α :=
  if ls.length = 0 then b
  else
    let lines := b.lines ++ ls
    let offset := if b.scrollOffset > 0 then b.scrollOffset + ls.length else b.scrollOffset
    let maxLines := if b.maxLines ≤ 0 then defaultMaxLines else b.maxLines
    -- The offset is brought back within the lines only when lines are trimmed.
    if maxLines > 0 ∧ lines.length > maxLines then
      let trimmed := lines.drop (lines.length - maxLines).toNat
      let offset := if offset > trimmed.length then (trimmed.length : Int) else offset
      let offset := if offset < 0 then 0 else offset
      { b with lines := trimmed, scrollOffset := offset }
    else { b with lines := lines, scrollOffset := offset }

def resetScroll (b : Buffer α) : Buffer α := { b with scrollOffset := 0 }

/-- `Scroll`. -/
def scroll (b : Buffer α) (delta limit : Int) : Buffer α :=
  { b with scrollOffset := clampScroll (addInt b.scrollOffset delta) b.lines.length limit }

/-- The viewport height `Snapshot` works with: no limit, or one beyond the line count,
means all lines. -/
def viewLimit (total limit : Int) : Int := if limit ≤ 0 ∨ limit > total then total else limit

/-- The offset `Snapshot` clamps to. -/
def viewMax (total limit : Int) : Int := maxScroll total (viewLimit total limit)

/-- The end of the shown range of lines. -/
def viewEnd (total offset : Int) : Int := if total - offset < 0 then 0 else total - offset

/-- The start of the shown range of lines. -/
def viewStart (total offset limit : Int) : Int :=
  if viewEnd total offset - viewLimit total limit < 0 then 0
  else viewEnd total offset - viewLimit total limit

/-- `copy(lines, b.lines[start:end])`. -/
def slice (lines : List α) (start stop : Int) : List α :=
  (lines.drop start.toNat).take (stop - start).toNat

/-- The write of `Snapshot`: an offset beyond the highest position is pulled back. -/
def clampTo (b : Buffer α) (max : Int) : Buffer α :=
  if b.scrollOffset > max then { b with scrollOffset := max } else b

/-- What `Snapshot` shows of a buffer whose offset has been clamped. -/
def view (b : Buffer α) (limit : Int) : BufferView α where
  lines := slice b.lines (viewStart b.lines.length b.scrollOffset limit)
    (viewEnd b.lines.length b.scrollOffset)
  totalLines := b.lines.length
  scrollOffset := b.scrollOffset
  atBottom := b.scrollOffset = 0

/-- `Snapshot` writes the clamped offset back, then reads the view. -/
def snapshot (b : Buffer α) (limit : Int) : BufferView α × Buffer α :=
  let b := b.clampTo (viewMax b.lines.length limit)
  (b.view limit, b)

/-- `Export`. -/
def exportBuffer (b : Buffer) : PersistedBuffer :=
  let offset := if b.scrollOffset < 0 then 0 else b.scrollOffset
  let offset := if offset > b.lines.length then (b.lines.length : Int) else offset
  { lines := b.lines, scrollOffset := offset }

def new : Buffer := { lines := [], scrollOffset := 0, maxLines := defaultMaxLines }

def newWithMaxLines (maxLines : Int) : Buffer :=
  if maxLines > 0 then { new with maxLines := maxLines } else new

/-- `newBufferFromPersistedWithMaxLines`. -/
def newFromPersistedWithMaxLines (state : PersistedBuffer) (maxLines : Int) : Buffer :=
  let b := newWithMaxLines maxLines
  let lines :=
    if b.maxLines > 0 ∧ state.lines.length > b.maxLines then
      state.lines.drop (state.lines.length - b.maxLines).toNat
    else state.lines
  let offset := if state.scrollOffset < 0 then 0 else state.scrollOffset
  let offset := if offset > lines.length then (lines.length : Int) else offset
  { b with lines := lines, scrollOffset := offset }

/-- A buffer of a service with line cap `cap`. -/
structure Ok (cap : Int) (b : Buffer α) : Prop where
  cap_pos : 0 < cap
  maxLines_eq : b.maxLines = cap
  offset_nonneg : 0 ≤ b.scrollOffset
  offset_le : b.scrollOffset ≤ b.lines.length
  length_le : b.lines.length ≤ cap

theorem newWithMaxLines_lines (maxLines : Int) : (newWithMaxLines maxLines).lines = [] := by
  simp only [newWithMaxLines]
  split_ifs <;> rfl

variable {cap : Int}

theorem newWithMaxLines_ok (hc : 0 < cap) : (newWithMaxLines cap).Ok cap := by
  have h : newWithMaxLines cap = { lines := [], scrollOffset := 0, maxLines := cap } := by
    simp [newWithMaxLines, new, hc]
  rw [h]
  exact ⟨hc, rfl, le_rfl, le_rfl, by simpa using hc.le⟩

theorem append_nil (b : Buffer α) : b.append [] = b := by simp [append]

theorem append_suffix (b : Buffer α) (ls : List α) :
    (b.append ls).lines <:+ b.lines ++ ls := by
  rw [append]
  split
  · next h0 =>
    exact ⟨[], by simp [length_eq_zero_iff.mp h0]⟩
  · dsimp only
    generalize (if b.maxLines ≤ 0 then defaultMaxLines else b.maxLines) = maxLines
    split
    · exact drop_suffix _ _
    · exact suffix_refl _

variable {b : Buffer α}

/-- The lines after an append are the last ones of all lines, up to the cap. -/
theorem append_lines (hb : b.Ok cap) (ls : List α) :
    (b.append ls).lines =
      (b.lines ++ ls).drop ((b.lines ++ ls).length - cap).toNat := by
  have hcap := hb.cap_pos
  have hlen := hb.length_le
  by_cases h0 : ls.length = 0
  · have hnil : ls = [] := length_eq_zero_iff.mp h0
    subst hnil
    rw [append_nil, List.append_nil]
    have hz : ((b.lines.length : Int) - cap).toNat = 0 := by omega
    rw [hz, drop_zero]
  · have hm : ¬ cap ≤ 0 := by omega
    simp only [append, h0, if_false, hb.maxLines_eq, hm]
    by_cases h : cap > 0 ∧ ((b.lines ++ ls).length : Int) > cap
    · rw [if_pos h]
    · have hz : (((b.lines ++ ls).length : Int) - cap).toNat = 0 := by
        have : ¬ ((b.lines ++ ls).length : Int) > cap := fun hl => h ⟨hcap, hl⟩
        omega
      rw [if_neg h, hz, drop_zero]

theorem append_maxLines (b : Buffer α) (ls : List α) :
    (b.append ls).maxLines = b.maxLines := by
  rw [append]
  split
  · rfl
  · dsimp only
    generalize (if b.maxLines ≤ 0 then defaultMaxLines else b.maxLines) = maxLines
    split <;> rfl

/-- A scrolled view moves with the batch, as far as there are lines. -/
theorem append_scrollOffset (hb : b.Ok cap) (ls : List α) :
    (b.append ls).scrollOffset =
      min (if 0 < b.scrollOffset then b.scrollOffset + ls.length else 0)
        (b.append ls).lines.length := by
  have h0 := hb.offset_nonneg
  have h1 := hb.offset_le
  have hcap := hb.cap_pos
  have hm : ¬ b.maxLines ≤ 0 := by rw [hb.maxLines_eq]; omega
  by_cases hl : ls.length = 0
  · simp only [append, hl, if_true]
    split_ifs <;> omega
  · simp only [append, hl, if_false, hm]
    split_ifs <;> simp only [length_append, length_drop, Nat.cast_add] at * <;> omega

theorem append_offset (hb : b.Ok cap) (ls : List α) :
    0 ≤ (b.append ls).scrollOffset ∧
      (b.append ls).scrollOffset ≤ (b.append ls).lines.length := by
  rw [append_scrollOffset hb]
  split_ifs <;> omega

theorem append_ok (hb : b.Ok cap) (ls : List α) :
    (b.append ls).Ok cap where
  cap_pos := hb.cap_pos
  maxLines_eq := by rw [append_maxLines, hb.maxLines_eq]
  offset_nonneg := (append_offset hb ls).1
  offset_le := (append_offset hb ls).2
  length_le := by
    have hcap := hb.cap_pos
    rw [append_lines hb, length_drop]
    omega

/-- Appending never shortens a buffer: trimming stops at the cap. -/
theorem length_le_append (hb : b.Ok cap) (ls : List α) :
    b.lines.length ≤ (b.append ls).lines.length := by
  have hlen := hb.length_le
  rw [append_lines hb, length_drop, length_append]
  omega

theorem maxScroll_nonneg (total limit : Int) : 0 ≤ maxScroll total limit := by
  simp only [maxScroll]
  split_ifs <;> omega

theorem maxScroll_le {total : Int} (ht : 0 ≤ total) (limit : Int) :
    maxScroll total limit ≤ total := by
  simp only [maxScroll]
  split_ifs <;> omega

theorem viewMax_nonneg (total limit : Int) : 0 ≤ viewMax total limit := maxScroll_nonneg _ _

theorem viewMax_le {total : Int} (ht : 0 ≤ total) (limit : Int) : viewMax total limit ≤ total :=
  maxScroll_le ht _

theorem Ok.setOffset (hb : b.Ok cap) {n : Int} (h0 : 0 ≤ n) (h1 : n ≤ b.lines.length) :
    ({ b with scrollOffset := n } : Buffer α).Ok cap :=
  ⟨hb.cap_pos, hb.maxLines_eq, h0, h1, hb.length_le⟩

theorem scroll_ok (hb : b.Ok cap) (delta limit : Int) : (b.scroll delta limit).Ok cap := by
  have hn := maxScroll_nonneg b.lines.length limit
  have hl := maxScroll_le (Int.natCast_nonneg b.lines.length) limit
  apply hb.setOffset
  · simp only [clampScroll]
    split_ifs <;> omega
  · simp only [clampScroll]
    split_ifs <;> omega

theorem clampTo_ok (hb : b.Ok cap) {max : Int} (h0 : 0 ≤ max) : (b.clampTo max).Ok cap := by
  have := hb.offset_le
  simp only [clampTo]
  split_ifs with h
  · exact hb.setOffset h0 (by omega)
  · exact hb

theorem snapshot_ok (hb : b.Ok cap) (limit : Int) :
    (b.snapshot limit).2.Ok cap := clampTo_ok hb (viewMax_nonneg _ _)

theorem exportBuffer_of_ok {b : Buffer} (hb : b.Ok cap) :
    b.exportBuffer = { lines := b.lines, scrollOffset := b.scrollOffset } := by
  have h0 : ¬ b.scrollOffset < 0 := not_lt.mpr hb.offset_nonneg
  have h1 : ¬ b.scrollOffset > b.lines.length := not_lt.mpr hb.offset_le
  simp only [exportBuffer, h0, h1, if_false]

theorem newFromPersisted_ok (hc : 0 < cap) (state : PersistedBuffer) :
    (newFromPersistedWithMaxLines state cap).Ok cap := by
  have hn : newWithMaxLines cap = { lines := [], scrollOffset := 0, maxLines := cap } := by
    simp [newWithMaxLines, new, hc]
  simp only [newFromPersistedWithMaxLines, hn]
  constructor
  · exact hc
  · rfl
  · dsimp only
    split_ifs <;> omega
  · dsimp only
    split_ifs <;> omega
  · dsimp only
    split_ifs with h
    · rw [length_drop]
      omega
    · have : ¬ (state.lines.length : Int) > cap := fun hl => h ⟨hc, hl⟩
      omega

/-- Every clamp on the save and load paths is the identity on a buffer within its bounds. -/
theorem newFromPersisted_exportBuffer {b : Buffer} (hb : b.Ok cap) :
    newFromPersistedWithMaxLines b.exportBuffer cap = b := by
  have h0 : ¬ b.scrollOffset < 0 := not_lt.mpr hb.offset_nonneg
  have h1 : ¬ b.scrollOffset > b.lines.length := not_lt.mpr hb.offset_le
  have h2 : ¬ (b.lines.length : Int) > cap := not_lt.mpr hb.length_le
  have hn : newWithMaxLines cap = { lines := [], scrollOffset := 0, maxLines := cap } := by
    simp [newWithMaxLines, new, hb.cap_pos]
  rw [exportBuffer_of_ok hb]
  simp only [newFromPersistedWithMaxLines, hn, h2, and_false, if_false, h0, h1]
  rw [← hb.maxLines_eq]

end Buffer

end Centaurx
