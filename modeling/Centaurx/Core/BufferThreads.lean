import Centaurx.Core.Buffer
import Centaurx.Lib.Threads

namespace Centaurx
open Go Threads List

namespace Buffer

open Thread

/-- The move of a scrolled view with a batch of `count` lines. -/
def anchorThread (count : Int) : Thread Buffer Unit := do
  if (← read fun b => b.scrollOffset) > 0 then
    let offset ← read fun b => b.scrollOffset
    write fun b => { b with scrollOffset := offset + count }

/-- The bounds on the offset of a trimmed buffer. -/
def boundThread : Thread Buffer Unit := do
  let offset ← read fun b => b.scrollOffset
  let total ← read fun b => (b.lines.length : Int)
  if offset > total then
    write fun b => { b with scrollOffset := total }
  if (← read fun b => b.scrollOffset) < 0 then
    write fun b => { b with scrollOffset := 0 }

def trimThread : Thread Buffer Unit := do
  let maxLines ← read fun b => if b.maxLines ≤ 0 then defaultMaxLines else b.maxLines
  let total ← read fun b => (b.lines.length : Int)
  if maxLines > 0 ∧ total > maxLines then
    write fun b => { b with lines := b.lines.drop (b.lines.length - maxLines).toNat }
    boundThread

def appendThread (ls : List GoString) : Thread Buffer Unit := do
  if ls.length = 0 then
    return ()
  write fun b => { b with lines := b.lines ++ ls }
  anchorThread ls.length
  trimThread

def scrollThread (delta limit : Int) : Thread Buffer Unit := do
  let offset ← read fun b => b.scrollOffset
  let total ← read fun b => (b.lines.length : Int)
  write fun b => { b with scrollOffset := clampScroll (addInt offset delta) total limit }

/-- What `Snapshot` reads after its write. A slice expression reaches beyond the length of the
slice, up to its capacity: `beyond` is what the array behind `b.lines` has there. Without a
result the call panics. -/
def viewThread (beyond : List GoString) (limit total : Int) :
    Thread Buffer (Option BufferView) := do
  let offset ← read fun b => b.scrollOffset
  let array ← read fun b => b.lines ++ beyond
  -- The bounds check of `b.lines[start:end]`; the start is never above the end.
  if viewEnd total offset > array.length then
    return none
  let scrollOffset ← read fun b => b.scrollOffset
  let atBottom ← read fun b => decide (b.scrollOffset = 0)
  return some
    { lines := slice array (viewStart total offset limit) (viewEnd total offset)
      totalLines := total
      scrollOffset := scrollOffset
      atBottom := atBottom }

def snapshotThread (beyond : List GoString) (limit : Int) :
    Thread Buffer (Option BufferView) := do
  let total ← read fun b => (b.lines.length : Int)
  -- The bound comes from the line count, which may be out of date when it is written.
  if (← read fun b => b.scrollOffset) > viewMax total limit then
    write fun b => { b with scrollOffset := viewMax total limit }
  viewThread beyond limit total

theorem run_anchorThread (count : Int) (b : Buffer) :
    (anchorThread count).run b =
      ((), { b with
        scrollOffset :=
          if b.scrollOffset > 0 then b.scrollOffset + count else b.scrollOffset }) := by
  simp only [anchorThread, run_read_bind, run_ite, run_write, run_pure]
  split_ifs <;> rfl

theorem run_boundThread (b : Buffer) :
    boundThread.run b =
      (let offset := if b.scrollOffset > b.lines.length then (b.lines.length : Int)
        else b.scrollOffset
      ((), { b with scrollOffset := if offset < 0 then 0 else offset })) := by
  simp only [boundThread, run_read_bind, run_write_bind, run_ite, run_write, run_pure]
  split_ifs <;> rfl

theorem run_trimThread (b : Buffer) :
    trimThread.run b =
      (let maxLines := if b.maxLines ≤ 0 then defaultMaxLines else b.maxLines
      if maxLines > 0 ∧ b.lines.length > maxLines then
        boundThread.run { b with lines := b.lines.drop (b.lines.length - maxLines).toNat }
      else ((), b)) := by
  simp only [trimThread, run_read_bind, run_write_bind, run_ite, run_pure]

theorem run_appendThread (ls : List GoString) (b : Buffer) :
    (appendThread ls).run b = ((), b.append ls) := by
  by_cases hls : ls.length = 0
  · simp only [appendThread, append, hls, if_true, run_pure]
  · simp only [appendThread, append, hls, if_false, run_bind, run_write, run_anchorThread,
      run_trimThread, run_boundThread]
    generalize (if b.maxLines ≤ 0 then defaultMaxLines else b.maxLines) = maxLines
    split <;> rfl

theorem run_scrollThread (delta limit : Int) (b : Buffer) :
    (scrollThread delta limit).run b = ((), b.scroll delta limit) := rfl

theorem viewEnd_le {total offset : Int} (h0 : 0 ≤ offset) (ht : 0 ≤ total) :
    viewEnd total offset ≤ total := by
  simp only [viewEnd]
  split_ifs <;> omega

theorem slice_append {lines beyond : List GoString} {start stop : Int} (h0 : 0 ≤ start)
    (h1 : start ≤ stop) (h : stop ≤ lines.length) :
    slice (lines ++ beyond) start stop = slice lines start stop := by
  have hstart : start.toNat ≤ lines.length := by omega
  have hlen : (stop - start).toNat ≤ (lines.drop start.toNat).length := by
    rw [length_drop]
    omega
  rw [slice, drop_append_of_le_length hstart, take_append_of_le_length hlen, slice]

theorem viewStart_bounds {total : Int} (ht : 0 ≤ total) (offset limit : Int) :
    0 ≤ viewStart total offset limit ∧ viewStart total offset limit ≤ viewEnd total offset := by
  simp only [viewStart, viewEnd, viewLimit]
  split_ifs <;> omega

theorem run_viewThread (beyond : List GoString) (limit : Int) {b : Buffer}
    (hb : 0 ≤ b.scrollOffset) :
    (viewThread beyond limit b.lines.length).run b = (some (b.view limit), b) := by
  have ht := Int.natCast_nonneg b.lines.length
  have hend := viewEnd_le hb ht
  have hin : ¬ viewEnd b.lines.length b.scrollOffset > (b.lines ++ beyond).length := by
    rw [length_append]
    omega
  have hstart := viewStart_bounds ht b.scrollOffset limit
  simp only [viewThread, run_read_bind, hin, if_false, run_pure, view,
    slice_append hstart.1 hstart.2 hend]

theorem run_snapshotThread (beyond : List GoString) (limit : Int) {b : Buffer}
    (hb : 0 ≤ b.scrollOffset) : (snapshotThread beyond limit).run b =
      (some (b.snapshot limit).1, (b.snapshot limit).2) := by
  have hmax := viewMax_nonneg b.lines.length limit
  simp only [snapshotThread, run_read_bind, run_ite, run_write_bind, snapshot, clampTo]
  split_ifs
  · exact run_viewThread beyond limit (b := { b with scrollOffset := _ }) hmax
  · exact run_viewThread beyond limit hb

theorem quiet_viewThread (beyond : List GoString) (limit total : Int) (b : Buffer) :
    (viewThread beyond limit total).Quiet b := by
  refine .read (.read ?_)
  split_ifs
  · trivial
  · exact .read (.read trivial)

theorem commits_snapshotThread (beyond : List GoString) (limit : Int) (b : Buffer) :
    (snapshotThread beyond limit).Commits b (b.snapshot limit).2 := by
  refine .read (.read ?_)
  simp only [snapshot, clampTo]
  split_ifs
  · exact .write rfl (quiet_viewThread ..)
  · exact (quiet_viewThread ..).commits _

end Buffer

end Centaurx
