import Centaurx.HttpApi.Stream

namespace Centaurx
open Go Newest List

namespace Buffer

/-- The buffers that the service can come to have. -/
inductive Reachable : Buffer → Prop
  | new (maxLines : Int) : Reachable (newWithMaxLines maxLines)
  | load (state : PersistedBuffer) (maxLines : Int) :
      Reachable (newFromPersistedWithMaxLines state maxLines)
  | append {b : Buffer} (h : Reachable b) (ls : List GoString) : Reachable (b.append ls)
  | scroll {b : Buffer} (h : Reachable b) (delta limit : Int) : Reachable (b.scroll delta limit)
  | resetScroll {b : Buffer} (h : Reachable b) : Reachable b.resetScroll
  | snapshot {b : Buffer} (h : Reachable b) (limit : Int) : Reachable (b.snapshot limit).2

theorem Reachable.offset_nonneg {b : Buffer} (h : Reachable b) : 0 ≤ b.scrollOffset := by
  induction h with
  | new maxLines =>
    simp only [newWithMaxLines, Buffer.new]
    split_ifs <;> exact le_rfl
  | load state maxLines =>
    simp only [newFromPersistedWithMaxLines]
    split_ifs <;> omega
  | append h ls ih => exact append_offset_nonneg ih ls
  | @scroll b h delta limit ih =>
    have := maxScroll_nonneg b.lines.length limit
    simp only [Buffer.scroll, clampScroll]
    split_ifs <;> omega
  | resetScroll h ih => exact le_rfl
  | @snapshot b h limit ih =>
    have := viewMax_nonneg b.lines.length limit
    simp only [Buffer.snapshot, clampTo]
    split_ifs
    · exact this
    · exact ih

variable {α β : Type}

def map (f : α → β) (b : Buffer α) : Buffer β := ⟨b.lines.map f, b.scrollOffset, b.maxLines⟩

theorem append_map (f : α → β) (b : Buffer α) (ls : List α) :
    (b.append ls).map f = (b.map f).append (ls.map f) := by
  simp only [append, apply_ite (map f)]
  simp only [map, length_map, length_append, length_drop, map_append, map_drop]
  rfl

theorem snapshot_map (f : α → β) (b : Buffer α) (limit : Int) :
    ((b.map f).snapshot limit).1.lines = (b.snapshot limit).1.lines.map f := by
  simp only [snapshot, view, clampTo, slice, map, length_map, map_take, map_drop]
  by_cases h : b.scrollOffset > viewMax b.lines.length limit
  · simp [h]
  · simp [h]

theorem snapshot_window {b : Buffer α} (h0 : 0 ≤ b.scrollOffset) {limit : ℕ} (hl : 0 < limit) :
    (b.snapshot limit).1.lines =
      (b.lines.drop (b.lines.length - min limit b.lines.length -
        min b.scrollOffset.toNat (b.lines.length - limit))).take (min limit b.lines.length) := by
  have hlimit : viewLimit b.lines.length limit = (min limit b.lines.length : ℕ) := by
    rw [viewLimit]
    split_ifs <;> omega
  have hmax : viewMax b.lines.length limit = (b.lines.length - limit : ℕ) := by
    rw [viewMax, hlimit, maxScroll]
    split_ifs <;> omega
  have hoffset : b.clampTo (viewMax b.lines.length limit) =
      { b with scrollOffset := (min b.scrollOffset.toNat (b.lines.length - limit) : ℕ) } := by
    rw [hmax, clampTo]
    obtain ⟨lines, offset, maxLines⟩ := b
    dsimp only at h0 ⊢
    split_ifs <;> simp only [mk.injEq, true_and, and_true] <;> omega
  simp only [snapshot, hoffset, view, slice, viewStart, viewEnd, hlimit]
  congr 1
  · split_ifs <;> omega
  · congr 1
    split_ifs <;> omega

end Buffer

/-- The places of the lines, in a buffer like this one. -/
def Buffer.places (b : Buffer) : Buffer ℕ :=
  ⟨range b.lines.length, b.scrollOffset, b.maxLines⟩

/-- **The snapshot of a tab.** The lines are those at the places that are shown, and these are the
last ones, as many as there is room for, if and only if the buffer is at its bottom or all of it
is shown. -/
theorem snapshot_is_tail (b : Buffer) (hb : b.Reachable) (limit : ℕ) (hlimit : 0 < limit) :
    (b.snapshot limit).1.lines.map some = (b.places.snapshot limit).1.lines.map (b.lines[·]?) ∧
      ((b.places.snapshot limit).1.lines =
          (range b.lines.length).rtake (min limit b.lines.length) ↔
        b.scrollOffset = 0 ∨ b.lines.length ≤ limit) := by
  have h0 := hb.offset_nonneg
  constructor
  · have hplaces : b.places.map (b.lines[·]?) = b.map some := by
      have hlines : (range b.lines.length).map (b.lines[·]?) = b.lines.map some :=
        ext_getElem (by simp) fun i hi _ => by simp
      simp only [Buffer.map, Buffer.places, hlines]
    rw [← Buffer.snapshot_map, ← Buffer.snapshot_map, hplaces]
  · have hshown := Buffer.snapshot_window (b := b.places) h0 hlimit
    simp only [Buffer.places, length_range] at hshown ⊢
    rw [hshown, rtake, length_range]
    constructor
    · intro heq
      by_contra hne
      -- the first shown place is above the one where the last lines begin
      have hfirst := congrArg (·[0]?) heq
      simp only [getElem?_take, getElem?_drop] at hfirst
      rw [if_pos (by omega), getElem?_range (by omega), getElem?_range (by omega)]
        at hfirst
      have := Option.some.inj hfirst
      omega
    · intro h
      have hzero : min b.scrollOffset.toNat (b.lines.length - limit) = 0 := by omega
      rw [hzero, Nat.sub_zero, take_of_length_le]
      simp only [length_drop, length_range]
      omega

/-- Three lines, and a session that has scrolled up by one. -/
def scrolledByOne : Buffer :=
  ((Buffer.newWithMaxLines 5000).append [lit "a", lit "b", lit "c"]).scroll 1 2

theorem scrolledByOne_reachable : scrolledByOne.Reachable :=
  .scroll (.append (.new 5000) _) 1 2

/-- All three lines fit. -/
theorem snapshot_is_tail_allShown :
    (scrolledByOne.places.snapshot (3 : ℕ)).1.lines = (range 3).rtake (min 3 3) :=
  (snapshot_is_tail scrolledByOne scrolledByOne_reachable 3 (by decide)).2.mpr (.inr (by decide))

/-- With room for two lines, the last one is missing. -/
theorem scrolled_snapshot_misses_last :
    scrolledByOne.Reachable ∧ scrolledByOne.lines = [lit "a", lit "b", lit "c"] ∧
      (scrolledByOne.snapshot 2).1.lines = [lit "a", lit "b"] :=
  ⟨scrolledByOne_reachable, by decide⟩

end Centaurx
