import Centaurx.Core.Buffer
import Centaurx.Lib.Newest
import Centaurx.Lib.Runs

namespace Centaurx
open Go Runs Newest List Buffer

namespace Buffer

/-- The line cap of a buffer made with this setting. -/
def capOf (maxLines : Int) : Int := if maxLines > 0 then maxLines else defaultMaxLines

theorem capOf_pos (maxLines : Int) : 0 < capOf maxLines := by
  rw [capOf]
  split_ifs with h
  · exact h
  · decide

theorem newWithMaxLines_eq (maxLines : Int) :
    newWithMaxLines maxLines = { lines := [], scrollOffset := 0, maxLines := capOf maxLines } := by
  rw [newWithMaxLines, capOf]
  split_ifs <;> rfl

theorem drop_eq_rtake (lines : List GoString) {cap : Int} (hc : 0 < cap) :
    lines.drop ((lines.length : Int) - cap).toNat = lines.rtake cap.toNat := by
  rw [rtake]
  congr 1
  omega

theorem newFromPersisted_lines (state : PersistedBuffer) (maxLines : Int) :
    (newFromPersistedWithMaxLines state maxLines).lines =
      state.lines.rtake (capOf maxLines).toNat := by
  have hcap := capOf_pos maxLines
  simp only [newFromPersistedWithMaxLines, newWithMaxLines_eq]
  split_ifs with h
  · exact drop_eq_rtake _ hcap
  · rw [rtake_of_length_le (by omega)]

theorem newFromPersisted_capOf (state : PersistedBuffer) (maxLines : Int) :
    newFromPersistedWithMaxLines state maxLines =
      newFromPersistedWithMaxLines state (capOf maxLines) := by
  have hcap : capOf (capOf maxLines) = capOf maxLines := if_pos (capOf_pos maxLines)
  simp only [newFromPersistedWithMaxLines, newWithMaxLines_eq, hcap]

theorem viewMax_of_le {total limit : Int} (h0 : 0 < limit) (hle : limit ≤ total) :
    viewMax total limit = total - limit := by
  simp only [viewMax, viewLimit, maxScroll]
  split_ifs <;> omega

@[simp] theorem clampTo_lines (b : Buffer) (max : Int) : (b.clampTo max).lines = b.lines := by
  rw [clampTo]
  split_ifs <;> rfl

theorem clampTo_scrollOffset (b : Buffer) (m : Int) :
    (b.clampTo m).scrollOffset = min b.scrollOffset m := by
  rw [clampTo]
  split_ifs with h
  · exact (min_eq_right h.le).symm
  · exact (min_eq_left (not_lt.mp h)).symm

/-- The position of the first line in a viewport that the buffer fills. -/
def firstShown (b : Buffer) (limit : Int) : ℕ :=
  (b.lines.length - limit - min b.scrollOffset (b.lines.length - limit)).toNat

theorem snapshot_lines {b : Buffer} {limit : Int} (h0 : 0 < limit) (hle : limit ≤ b.lines.length)
    (hoffset : 0 ≤ b.scrollOffset) :
    (b.snapshot limit).1.lines = (b.lines.drop (b.firstShown limit)).take limit.toNat := by
  have hlimit : viewLimit b.lines.length limit = limit := by
    rw [viewLimit, if_neg (by omega)]
  simp only [snapshot, view, slice, clampTo_lines, clampTo_scrollOffset, viewMax_of_le h0 hle,
    viewStart, viewEnd, hlimit, firstShown]
  have ho : 0 ≤ min b.scrollOffset (b.lines.length - limit) := by omega
  have ho' : min b.scrollOffset (b.lines.length - limit) ≤ b.lines.length - limit := by omega
  generalize min b.scrollOffset (b.lines.length - limit) = o at ho ho'
  rw [if_neg (by omega), if_neg (by omega)]
  congr 2 <;> omega

end Buffer

/-- A method of the buffer, or a restart of the service between the two. -/
inductive BufferCall
  | append (ls : List GoString)
  | scroll (delta limit : Int)
  | resetScroll
  | snapshot (limit : Int)
  | reload
  /-- The buffer is made from what a file holds. -/
  | load (state : PersistedBuffer)
  deriving DecidableEq

structure BufferLife where
  buffer : Buffer
  /-- All lines that were loaded or appended. No method reads it. -/
  history : List GoString
  deriving DecidableEq

namespace BufferLife

def init (maxLines : Int) : BufferLife := ⟨newWithMaxLines maxLines, []⟩

def step (maxLines : Int) (s : BufferLife) : BufferCall → BufferLife
  | .append ls => ⟨s.buffer.append ls, s.history ++ ls⟩
  | .scroll delta limit => { s with buffer := s.buffer.scroll delta limit }
  | .resetScroll => { s with buffer := s.buffer.resetScroll }
  | .snapshot limit => { s with buffer := (s.buffer.snapshot limit).2 }
  | .reload =>
    { s with buffer := newFromPersistedWithMaxLines s.buffer.exportBuffer maxLines }
  | .load state => ⟨newFromPersistedWithMaxLines state maxLines, state.lines⟩

/-- The position in the history of the oldest line in the buffer. -/
def oldest (s : BufferLife) : ℕ := s.history.length - s.buffer.lines.length

/-- The buffer is within its bounds and holds the end of the history. -/
structure Holds (cap : Int) (s : BufferLife) : Prop where
  ok : s.buffer.Ok cap
  lines : s.buffer.lines = s.history.rtake cap.toNat

section
variable {maxLines : Int} {s : BufferLife}

theorem holds_init (maxLines : Int) : (init maxLines).Holds (capOf maxLines) := by
  have hcap := capOf_pos maxLines
  rw [init, newWithMaxLines_eq]
  exact ⟨⟨hcap, rfl, le_rfl, le_rfl, hcap.le⟩, drop_nil.symm⟩

variable {cap : Int}

theorem Holds.of_lines (h : s.Holds cap) {b : Buffer} (hb : b.Ok cap)
    (hlines : b.lines = s.buffer.lines) : Holds cap { s with buffer := b } :=
  ⟨hb, hlines.trans h.lines⟩

theorem Holds.append (h : s.Holds cap) (ls : List GoString) :
    Holds cap ⟨s.buffer.append ls, s.history ++ ls⟩ := by
  refine ⟨append_ok h.ok ls, ?_⟩
  show (s.buffer.append ls).lines = (s.history ++ ls).rtake cap.toNat
  rw [append_lines h.ok, drop_eq_rtake _ h.ok.cap_pos, h.lines, rtake_append_rtake]

theorem Holds.step (h : s.Holds (capOf maxLines)) (call : BufferCall) :
    (s.step maxLines call).Holds (capOf maxLines) := by
  cases call with
  | append ls => exact h.append ls
  | scroll delta limit => exact h.of_lines (scroll_ok h.ok delta limit) rfl
  | resetScroll =>
    exact h.of_lines (h.ok.setOffset le_rfl (Int.natCast_nonneg _)) rfl
  | snapshot limit =>
    exact h.of_lines (snapshot_ok h.ok limit) (clampTo_lines _ _)
  | reload =>
    have hsame : newFromPersistedWithMaxLines s.buffer.exportBuffer maxLines = s.buffer := by
      rw [newFromPersisted_capOf, newFromPersisted_exportBuffer h.ok]
    exact h.of_lines (hsame.symm ▸ h.ok) (congrArg Buffer.lines hsame)
  | load state =>
    refine ⟨?_, newFromPersisted_lines state maxLines⟩
    show Buffer.Ok _ (newFromPersistedWithMaxLines state maxLines)
    rw [newFromPersisted_capOf]
    exact newFromPersisted_ok h.ok.cap_pos state

theorem holds_exec (maxLines : Int) (run : List BufferCall) :
    (exec (step maxLines) (init maxLines) run).Holds (capOf maxLines) :=
  exec_invariant (fun _ call h => h.step call) (holds_init maxLines) run

/-- The position in the history of the first line that a viewport shows. -/
def firstShown (s : BufferLife) (limit : Int) : ℕ := s.oldest + s.buffer.firstShown limit

theorem Holds.length_le (h : s.Holds cap) : s.buffer.lines.length ≤ s.history.length := by
  rw [h.lines, length_rtake]
  exact min_le_right ..

theorem Holds.drop (h : s.Holds cap) (n : ℕ) :
    s.buffer.lines.drop n = s.history.drop (s.oldest + n) := by
  have hlen : s.buffer.lines.length = min cap.toNat s.history.length := by
    rw [h.lines, length_rtake]
  rw [oldest, ← drop_drop, h.lines, rtake, length_drop]
  congr 2
  omega

/-- After an append, a scrolled viewport starts where it started, or at the oldest line. -/
theorem firstShown_append (maxLines : Int) (h : s.Holds cap) {limit : Int} (hlimit : 0 < limit)
    (h0 : 0 < s.buffer.scrollOffset) (hle : s.buffer.scrollOffset ≤ s.buffer.lines.length - limit)
    (ls : List GoString) :
    firstShown (s.step maxLines (.append ls)) limit =
      max (s.firstShown limit) (s.step maxLines (.append ls)).oldest := by
  have hgrow := length_le_append h.ok ls
  have hoffset := append_scrollOffset h.ok ls
  rw [if_pos h0] at hoffset
  have hlen := h.length_le
  have hlen' := (h.append ls).length_le
  simp only [length_append] at hlen'
  simp only [firstShown, oldest, Buffer.firstShown, step, length_append]
  omega

theorem snapshot_append (h : s.Holds cap) {limit : Int} (hlimit : 0 < limit)
    (h0 : 0 < s.buffer.scrollOffset) (hle : s.buffer.scrollOffset ≤ s.buffer.lines.length - limit)
    (ls : List GoString) :
    ((s.buffer.append ls).snapshot limit).1.lines =
      if (s.step maxLines (.append ls)).oldest ≤ s.firstShown limit then
        (s.buffer.snapshot limit).1.lines
      else (s.buffer.append ls).lines.take limit.toNat := by
  have hgrow := length_le_append h.ok ls
  have hfirst := firstShown_append maxLines h hlimit h0 hle ls
  have h' := h.append ls
  rw [snapshot_lines hlimit (by omega) (append_offset h.ok ls).1,
    snapshot_lines hlimit (by omega) h0.le]
  split_ifs with hkept
  · -- the same positions of the history, which has only grown at its end
    have hsame : firstShown (s.step maxLines (.append ls)) limit = s.firstShown limit := by
      rw [hfirst, max_eq_left hkept]
    have hroom : s.firstShown limit + limit.toNat ≤ s.history.length := by
      have hlen := h.length_le
      simp only [firstShown, oldest, Buffer.firstShown]
      omega
    rw [h'.drop, h.drop]
    show ((s.history ++ ls).drop (firstShown (s.step maxLines (.append ls)) limit)).take _ =
      (s.history.drop (s.firstShown limit)).take _
    rw [hsame, drop_append_of_le_length (by omega), take_append_of_le_length]
    rw [length_drop]
    omega
  · have hzero : (s.buffer.append ls).firstShown limit = 0 := by
      have heq : firstShown (s.step maxLines (.append ls)) limit =
          (s.step maxLines (.append ls)).oldest := by
        rw [hfirst, max_eq_right (by omega)]
      simp only [firstShown, step] at heq
      omega
    rw [hzero, drop_zero]

/-- **Anchoring.** At every point of a buffer's life it holds the newest lines up to its cap, and
its offset is within them. A view that is scrolled up shows after an append what it showed before
it, unless the first of these lines was dropped; then it shows the oldest lines there are. -/
theorem view_anchored (maxLines : Int) (run : List BufferCall) :
    let s := exec (step maxLines) (init maxLines) run
    s.buffer.lines = s.history.rtake (capOf maxLines).toNat ∧
      0 ≤ s.buffer.scrollOffset ∧ s.buffer.scrollOffset ≤ s.buffer.lines.length ∧
      ∀ (limit : Int) (ls : List GoString), 0 < limit → 0 < s.buffer.scrollOffset →
        s.buffer.scrollOffset ≤ s.buffer.lines.length - limit →
        ((s.buffer.append ls).snapshot limit).1.lines =
          if (s.step maxLines (.append ls)).oldest ≤ s.firstShown limit then
            (s.buffer.snapshot limit).1.lines
          else (s.buffer.append ls).lines.take limit.toNat := by
  intro s
  have h : s.Holds (capOf maxLines) := holds_exec maxLines run
  exact ⟨h.lines, h.ok.offset_nonneg, h.ok.offset_le,
    fun limit ls hlimit h0 hle => snapshot_append h hlimit h0 hle ls⟩

/-- Four lines, one of them scrolled away: a short batch does not move the view of two lines, a
batch that drops the first of them does. -/
theorem view_anchored_full :
    let s := exec (step 5) (init 5)
      [.append [lit "a", lit "b", lit "c", lit "d"], .scroll 1 2]
    ((s.buffer.append [lit "e"]).snapshot 2).1.lines = [lit "b", lit "c"] ∧
      ((s.buffer.append [lit "e", lit "f", lit "g"]).snapshot 2).1.lines =
        [lit "c", lit "d"] := by
  intro s
  have h := (view_anchored 5 [.append [lit "a", lit "b", lit "c", lit "d"], .scroll 1 2]).2.2.2 2
  refine ⟨(h [lit "e"] (by decide) (by decide) (by decide)).trans (by decide), ?_⟩
  exact (h [lit "e", lit "f", lit "g"] (by decide) (by decide) (by decide)).trans (by decide)

end

/-- Reading with limit `l` does not show in what is read, or scrolled and read, with `l'`. -/
def Undisturbed (b : Buffer) (l l' : Int) : Prop :=
  ((b.snapshot l).2.snapshot l').1 = (b.snapshot l').1 ∧
    ∀ delta : Int, (((b.snapshot l).2.scroll delta l').snapshot l').1 =
      ((b.scroll delta l').snapshot l').1

/-- A view is determined by the lines and the clamped offset. -/
theorem snapshot_eq_iff {b b' : Buffer} (hlines : b.lines = b'.lines) (l : Int) :
    (b.snapshot l).1 = (b'.snapshot l).1 ↔
      min b.scrollOffset (viewMax b.lines.length l) =
        min b'.scrollOffset (viewMax b.lines.length l) := by
  simp only [snapshot, view, clampTo_lines, clampTo_scrollOffset,
    ← hlines]
  constructor
  · intro h
    exact (BufferView.mk.inj h).2.2.1
  · intro h
    rw [h]

theorem scroll_scrollOffset (b : Buffer) (delta l : Int) :
    (b.scroll delta l).scrollOffset =
      max 0 (min (addInt b.scrollOffset delta) (viewMax b.lines.length l)) := by
  have hmax : viewMax b.lines.length l = maxScroll b.lines.length l := by
    simp only [viewMax, viewLimit, maxScroll]
    split_ifs <;> omega
  have hnonneg := maxScroll_nonneg b.lines.length l
  rw [hmax]
  simp only [scroll, clampScroll]
  split_ifs <;> omega

theorem scroll_snapshot_eq_iff {b b' : Buffer} (hlines : b.lines = b'.lines) (delta l : Int) :
    ((b.scroll delta l).snapshot l).1 = ((b'.scroll delta l).snapshot l).1 ↔
      max 0 (min (addInt b.scrollOffset delta) (viewMax b.lines.length l)) =
        max 0 (min (addInt b'.scrollOffset delta) (viewMax b.lines.length l)) := by
  have hnonneg := viewMax_nonneg b.lines.length l
  have hscrolled : (b.scroll delta l).lines = (b'.scroll delta l).lines := hlines
  rw [snapshot_eq_iff hscrolled, scroll_scrollOffset, scroll_scrollOffset, ← hlines]
  show min _ (viewMax b.lines.length l) = min _ (viewMax b.lines.length l) ↔ _
  rw [min_eq_left (max_le hnonneg (min_le_right _ _)),
    min_eq_left (max_le hnonneg (min_le_right _ _))]

theorem addInt_eq {a b : Int} (hlo : -2 ^ 63 ≤ a + b) (hhi : a + b < 2 ^ 63) :
    addInt a b = a + b :=
  Int.bmod_eq_of_le (by simpa using hlo) (by simpa using hhi)

/-- A read that moves the offset shows in every viewport that can be scrolled. -/
theorem undisturbed_iff {cap : Int} {b : Buffer} (hb : b.Ok cap) (hcap : cap < 2 ^ 63)
    (l l' : Int) :
    Undisturbed b l l' ↔ b.scrollOffset ≤ viewMax b.lines.length l ∨
      viewMax b.lines.length l' = 0 := by
  have hlines : (b.snapshot l).2.lines = b.lines := clampTo_lines _ _
  have hoffset : (b.snapshot l).2.scrollOffset =
      min b.scrollOffset (viewMax b.lines.length l) := clampTo_scrollOffset _ _
  simp only [Undisturbed, snapshot_eq_iff hlines, scroll_snapshot_eq_iff hlines, hoffset, hlines]
  have hm := viewMax_nonneg b.lines.length l
  have hm' := viewMax_nonneg b.lines.length l'
  have hlen := hb.offset_le.trans hb.length_le
  generalize viewMax b.lines.length l = m at *
  generalize viewMax b.lines.length l' = m' at *
  constructor
  · rintro ⟨-, h⟩
    by_contra hcon
    rw [not_or, not_le] at hcon
    -- scrolled down by the clamped offset, one view is at the bottom and the other is not
    have hbottom := h (-m)
    rw [min_eq_right hcon.1.le, addInt_eq (by omega) (by omega),
      addInt_eq (by omega) (by omega)] at hbottom
    omega
  · rintro (hle | rfl)
    · rw [min_eq_left hle]
      exact ⟨rfl, fun _ => rfl⟩
    · have hzero : ∀ x : Int, max 0 (min x 0) = 0 := fun x => max_eq_left (min_le_right _ _)
      refine ⟨?_, fun delta => by rw [hzero, hzero]⟩
      have h0 := hb.offset_nonneg
      omega

/-- **Reading.** A read leaves every other viewport as it was if and only if it does not have to
pull the offset back, or the other viewport shows the whole buffer anyway. -/
theorem reading_undisturbed_iff (maxLines : Int) (hmax : maxLines < 2 ^ 63)
    (run : List BufferCall) (l l' : Int) :
    let b := (exec (step maxLines) (init maxLines) run).buffer
    Undisturbed b l l' ↔ b.scrollOffset ≤ viewMax b.lines.length l ∨
      viewMax b.lines.length l' = 0 := by
  refine undisturbed_iff (holds_exec maxLines run).ok ?_ l l'
  rw [capOf]
  split_ifs
  · exact hmax
  · decide

/-- Two readers of a buffer that is scrolled up by one line. -/
theorem reading_undisturbed_scrolled :
    let b := (exec (step 5) (init 5) [.append [lit "a", lit "b", lit "c"], .scroll 1 2]).buffer
    b.scrollOffset = 1 ∧ Undisturbed b 2 1 :=
  ⟨by decide, (reading_undisturbed_iff 5 (by decide) _ 2 1).mpr (.inl (by decide))⟩

/-- One session has scrolled its viewport of one line to the top; another one reads two lines and
so moves it down by a line. -/
theorem reading_moves_view :
    let b := (exec (step 5) (init 5) [.append [lit "a", lit "b", lit "c"], .scroll 2 1]).buffer
    (b.snapshot 1).1.lines = [lit "a"] ∧ ((b.snapshot 2).2.snapshot 1).1.lines = [lit "b"] := by
  decide

end BufferLife

end Centaurx
