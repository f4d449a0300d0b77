import Centaurx.Lib.Newest

namespace Centaurx.Shipohoy
open List Newest

/-- `ringBuffer` without its lock, which every call holds from begin to end. -/
structure RingBuffer where
  buf : List UInt8 := []
  size : ℕ
  start : ℕ := 0
  length : ℕ := 0

def newRingBuffer (size : Int) : RingBuffer := { size := (if size < 0 then 0 else size).toNat }

/-- `buf[i] = b`. -/
def setByte (buf : List UInt8) (i : ℕ) (b : UInt8) : Option (List UInt8) :=
  if i < buf.length then some (buf.set i b) else none

/-- `buf[lo:hi]`. -/
def slice (buf : List UInt8) (lo hi : ℕ) : Option (List UInt8) :=
  if lo ≤ hi ∧ hi ≤ buf.length then some ((buf.take hi).drop lo) else none

/-- `copy`: what `dst` is after it. -/
def copy (dst src : List UInt8) : List UInt8 := src.take dst.length ++ dst.drop src.length

namespace RingBuffer

/-- One round of the loop of `Write`. -/
def writeByte (r : RingBuffer) (b : UInt8) : Option RingBuffer :=
  if r.length < r.size then
    (setByte r.buf ((r.start + r.length) % r.size) b).map fun buf =>
      { r with buf := buf, length := r.length + 1 }
  else
    (setByte r.buf r.start b).map fun buf =>
      { r with buf := buf, start := (r.start + 1) % r.size }

def write (r : RingBuffer) (p : List UInt8) : Option RingBuffer :=
  if r.size = 0 then some r
  else
    let r := if r.buf = [] then { r with buf := replicate r.size 0 } else r
    if r.size ≤ p.length then
      some { r with buf := copy r.buf (p.drop (p.length - r.size)), start := 0, length := r.size }
    else p.foldlM writeByte r

def snapshot (r : RingBuffer) : Option (List UInt8) :=
  if r.length = 0 then some []
  else
    let out := replicate r.length 0
    if r.start + r.length ≤ r.size then (slice r.buf r.start (r.start + r.length)).map (copy out)
    else do
      let n := r.size - r.start
      let out := copy out (← slice r.buf r.start r.buf.length)
      let back ← slice r.buf 0 (r.length - n)
      return out.take n ++ copy (out.drop n) back

/-- The buffer has room left, or its oldest byte is at `start`. -/
inductive Holds (n : ℕ) : RingBuffer → List UInt8 → Prop
  | filling {written free : List UInt8} (hfree : free ≠ []) (hlen : (written ++ free).length = n) :
      Holds n ⟨written ++ free, n, 0, written.length⟩ written
  | full {newer older written : List UInt8} (holder : older ≠ [])
      (hlen : (newer ++ older).length = n) (heq : older ++ newer = written.rtake n) :
      Holds n ⟨newer ++ older, n, newer.length, n⟩ written

variable {n : ℕ} {r : RingBuffer} {written : List UInt8}

theorem slice_left (l m : List UInt8) : slice (l ++ m) 0 l.length = some l := by
  simp [slice]

theorem slice_right (l m : List UInt8) :
    slice (l ++ m) l.length (l ++ m).length = some m := by
  rw [slice, if_pos ⟨by simp, le_rfl⟩, take_length, drop_left]

theorem copy_eq {dst src : List UInt8} (h : src.length = dst.length) : copy dst src = src := by
  rw [copy, ← h, take_length, drop_eq_nil_of_le h.ge, append_nil]

theorem setByte_append (l : List UInt8) (x : UInt8) (m : List UInt8) (b : UInt8) :
    setByte (l ++ x :: m) l.length b = some (l ++ b :: m) := by
  simp [setByte]

theorem Holds.of_newest (hn : 0 < n) {l : List UInt8} (hlen : l.length = n)
    (heq : l = written.rtake n) : Holds n ⟨l, n, 0, n⟩ written :=
  @full n [] l written (ne_nil_of_length_pos (hlen.symm ▸ hn)) hlen (by rwa [append_nil])

theorem Holds.pos (h : Holds n r written) : 0 < n := by
  cases h with
  | filling hfree hlen =>
    rw [← hlen, length_append]
    exact Nat.add_pos_right _ (length_pos_of_ne_nil hfree)
  | full holder hlen heq =>
    rw [← hlen, length_append]
    exact Nat.add_pos_right _ (length_pos_of_ne_nil holder)

theorem Holds.writeByte (h : Holds n r written) (b : UInt8) :
    ∃ r', r.writeByte b = some r' ∧ Holds n r' (written ++ [b]) := by
  have hn := h.pos
  cases h with
  | @filling _ free hfree hlen =>
    obtain ⟨x, free, rfl⟩ := exists_cons_of_ne_nil hfree
    have hlt : written.length < n := by
      rw [← hlen, length_append, length_cons]
      omega
    have hlen' : ((written ++ [b]) ++ free).length = n := by simpa using hlen
    refine ⟨⟨(written ++ [b]) ++ free, n, 0, (written ++ [b]).length⟩, ?_, ?_⟩
    · rw [RingBuffer.writeByte, if_pos hlt, Nat.zero_add, Nat.mod_eq_of_lt hlt, setByte_append,
        append_assoc, length_append]
      rfl
    · cases free with
      | cons y free => exact .filling (cons_ne_nil y free) hlen'
      | nil =>
        -- the last free byte is written, and the oldest one is the first
        rw [append_nil] at hlen' ⊢
        rw [hlen']
        exact .of_newest hn hlen' (rtake_of_length_le hlen'.le).symm
  | @full newer older _ holder hlen heq =>
    obtain ⟨x, older, rfl⟩ := exists_cons_of_ne_nil holder
    have hlen' : ((newer ++ [b]) ++ older).length = n := by simpa using hlen
    have hnewest : older ++ (newer ++ [b]) = (written ++ [b]).rtake n := by
      rw [← rtake_append_rtake, ← heq, rtake, show (x :: older ++ newer ++ [b]).length - n = 1
        by rw [← hlen]; simp only [length_append, length_cons, length_nil]; omega]
      simp
    refine ⟨⟨(newer ++ [b]) ++ older, n, (newer ++ [b]).length % n, n⟩, ?_, ?_⟩
    · rw [RingBuffer.writeByte, if_neg (lt_irrefl n), setByte_append, append_assoc, length_append]
      rfl
    · cases older with
      | cons y older =>
        have hlt : (newer ++ [b]).length < n := by
          simp only [length_append, length_cons] at hlen' ⊢
          omega
        rw [Nat.mod_eq_of_lt hlt]
        exact .full (cons_ne_nil y older) hlen' hnewest
      | nil =>
        rw [append_nil] at hlen' ⊢
        rw [hlen', Nat.mod_self]
        exact .of_newest hn hlen' hnewest

theorem Holds.foldlM {β : Type} {f : RingBuffer → β → Option RingBuffer} {out : β → List UInt8}
    (hstep : ∀ {r written}, Holds n r written → ∀ x,
      ∃ r', f r x = some r' ∧ Holds n r' (written ++ out x))
    (h : Holds n r written) (xs : List β) :
    ∃ r', xs.foldlM f r = some r' ∧ Holds n r' (written ++ xs.flatMap out) := by
  induction xs generalizing r written with
  | nil => exact ⟨r, rfl, by rwa [flatMap_nil, append_nil]⟩
  | cons x xs ih =>
    obtain ⟨r₁, h₁, hr₁⟩ := hstep h x
    obtain ⟨r', h', hr'⟩ := ih hr₁
    refine ⟨r', ?_, by rwa [append_assoc] at hr'⟩
    rw [foldlM_cons, h₁]
    exact h'

theorem Holds.buf_length (h : Holds n r written) : r.buf.length = n ∧ r.size = n := by
  cases h with
  | filling _ hlen | full _ hlen _ => exact ⟨hlen, rfl⟩

theorem Holds.write (h : Holds n r written) (p : List UInt8) :
    ∃ r', r.write p = some r' ∧ Holds n r' (written ++ p) := by
  have hn := h.pos
  obtain ⟨hbuf, hsize⟩ := h.buf_length
  have hne : r.buf ≠ [] := ne_nil_of_length_pos (hbuf.symm ▸ hn)
  rw [RingBuffer.write, if_neg (hsize.symm ▸ hn.ne'), if_neg hne]
  dsimp only
  split_ifs with hlong
  · -- only the end of this write is left
    have hlen : (p.rtake n).length = n := by
      rw [length_rtake, Nat.min_eq_left (hsize ▸ hlong)]
    refine ⟨_, rfl, ?_⟩
    rw [hsize, copy, hbuf, ← rtake, take_of_length_le hlen.le, drop_eq_nil_of_le
      (by rw [hbuf, hlen]), append_nil]
    refine .of_newest hn hlen ?_
    rw [rtake_append, Nat.sub_eq_zero_of_le (hsize ▸ hlong), rtake_zero, nil_append]
  · have hloop := h.foldlM (fun h b => h.writeByte b) p
    rwa [flatMap_singleton'] at hloop

theorem Holds.snapshot (h : Holds n r written) : r.snapshot = some (written.rtake n) := by
  cases h with
  | @filling _ free hfree hlen =>
    have hle : written.length ≤ n := by
      rw [← hlen, length_append]
      omega
    rw [rtake_of_length_le hle, RingBuffer.snapshot]
    dsimp only
    split_ifs with hnil hfits
    · rw [length_eq_zero_iff.mp hnil]
    · rw [Nat.zero_add, slice_left, Option.map_some, copy_eq length_replicate.symm]
    · omega
  | @full newer older _ holder hlen heq =>
    have hpos : 0 < older.length := length_pos_of_ne_nil holder
    rw [length_append] at hlen
    rw [← heq, RingBuffer.snapshot]
    dsimp only
    rw [if_neg (by omega)]
    split_ifs with hfits
    · have hnil : newer = [] := length_eq_zero_iff.mp (by omega)
      subst hnil
      have hall := slice_left older []
      rw [length_nil, Nat.zero_add] at hlen
      rw [append_nil] at hall ⊢
      rw [nil_append, length_nil, Nat.zero_add, ← hlen, hall, Option.map_some,
        copy_eq length_replicate.symm]
    · have hback : n - newer.length = older.length := by omega
      have hfront : n - older.length = newer.length := by omega
      have hcopy : copy (replicate n 0) older = older ++ replicate newer.length 0 := by
        rw [copy, length_replicate, take_of_length_le (by omega), drop_replicate, hfront]
      simp only [slice_right, slice_left, hback, hfront, hcopy, take_left, drop_left,
        copy_eq length_replicate.symm, Option.bind_eq_bind, Option.bind_some, Option.pure_def]

theorem write_new (n : ℕ) (p : List UInt8) :
    ({ size := n } : RingBuffer).write p = RingBuffer.write ⟨replicate n 0, n, 0, 0⟩ p := by
  cases n with
  | zero | succ n => rfl

end RingBuffer

/-- **Log ring buffer.** After any writes the snapshot is the end of all bytes that were written,
and no write goes outside of the buffer. -/
theorem snapshot_newest (size : Int) (writes : List (List UInt8)) :
    ∃ r, writes.foldlM RingBuffer.write (newRingBuffer size) = some r ∧
      r.snapshot = some (writes.flatten.rtake size.toNat) := by
  have hnew : newRingBuffer size = { size := size.toNat } := by
    rw [newRingBuffer]
    congr 1
    split_ifs <;> omega
  rw [hnew]
  rcases Nat.eq_zero_or_pos size.toNat with hzero | hpos
  · have hkeep : ∀ p, RingBuffer.write { size := 0 } p = some { size := 0 } := fun _ => rfl
    refine ⟨{ size := 0 }, ?_, by rw [hzero, rtake_zero]; rfl⟩
    rw [hzero]
    induction writes with
    | nil => rfl
    | cons p writes ih => rwa [foldlM_cons, hkeep]
  · cases writes with
    | nil => exact ⟨{ size := size.toNat }, rfl, by simp [RingBuffer.snapshot, rtake]⟩
    | cons p writes =>
      have hholds : RingBuffer.Holds size.toNat ⟨replicate size.toNat 0, size.toNat, 0, 0⟩ [] :=
        @RingBuffer.Holds.filling _ [] _ (ne_nil_of_length_pos (by simpa using hpos)) (by simp)
      rw [foldlM_cons, RingBuffer.write_new, ← foldlM_cons]
      obtain ⟨r, hr, hholds⟩ := hholds.foldlM (fun h p => h.write p) (p :: writes)
      rw [nil_append, flatMap_id'] at hholds
      exact ⟨r, hr, hholds.snapshot⟩

end Centaurx.Shipohoy
