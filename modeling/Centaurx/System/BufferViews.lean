import Centaurx.Core.BufferThreads
import Centaurx.Lib.Runs
import Mathlib.Data.Fintype.Basic

namespace Centaurx
open Go Runs Threads List Function

/-- What runs under the lock: `Append`, or the `Scroll` of the `ScrollBuffer` call `i`. -/
inductive BufferOp (n : ℕ)
  | append (ls : List GoString)
  | scroll (i : Fin n) (delta limit : Int) (beyond : List GoString)

namespace BufferOp

variable {n : ℕ}

def thread : BufferOp n → Thread Buffer Unit
  | .append ls => Buffer.appendThread ls
  | .scroll _ delta limit _ => Buffer.scrollThread delta limit

def apply : BufferOp n → Buffer → Buffer
  | .append ls, b => b.append ls
  | .scroll _ delta limit _, b => b.scroll delta limit

theorem run_thread (op : BufferOp n) (b : Buffer) : op.thread.run b = ((), op.apply b) := by
  cases op with
  | append ls => exact Buffer.run_appendThread ls b
  | scroll i delta limit beyond => exact Buffer.run_scrollThread delta limit b

theorem apply_ok {cap : Int} {b : Buffer} (hb : b.Ok cap) (op : BufferOp n) :
    (op.apply b).Ok cap := by
  cases op with
  | append ls => exact Buffer.append_ok hb ls
  | scroll i delta limit beyond => exact Buffer.scroll_ok hb delta limit

end BufferOp

/-- A call of `GetBuffer` or `ScrollBuffer` after its critical section. -/
inductive ViewCall
  | idle
  | ready (limit : Int) (beyond : List GoString)
  | viewing (limit : Int) (thread : Thread Buffer (Option BufferView))
  | returned (limit : Int) (view : Option BufferView)

namespace ViewCall

def isReady : ViewCall → Bool
  | .ready _ _ => true
  | _ => false

/-- `Snapshot` has begun and has an action to do. -/
def midway : ViewCall → Bool
  | .viewing _ thread => thread.pending
  | _ => false

def inProgress : ViewCall → Bool
  | .ready _ _ => true
  | .viewing _ _ => true
  | _ => false

/-- What a call will return from here, or has returned, is the view of one of its moments. -/
def Fits (b : Buffer) (moments : List Buffer) : ViewCall → Prop
  | .viewing limit thread => thread.Commits b (b.snapshot limit).2 ∧
      ∃ m ∈ moments, (thread.run b).1 = some (m.snapshot limit).1
  | .returned limit view => ∃ m ∈ moments, view = some (m.snapshot limit).1
  | _ => True

theorem Fits.mono {b : Buffer} {ms ms' : List Buffer} {c : ViewCall} (h : c.Fits b ms)
    (hsub : ms ⊆ ms') : c.Fits b ms' := by
  cases c with
  | idle | ready limit beyond => trivial
  | viewing limit thread =>
    obtain ⟨hc, m, hm, hv⟩ := h
    exact ⟨hc, m, hsub hm, hv⟩
  | returned limit view =>
    obtain ⟨m, hm, hv⟩ := h
    exact ⟨m, hsub hm, hv⟩

/-- A change of the buffer does not matter to a call that is not in its `Snapshot`. -/
theorem Fits.change {b b' : Buffer} {ms : List Buffer} {c : ViewCall} (h : c.Fits b ms)
    (hc : b' ≠ b → c.midway = false) : c.Fits b' ms := by
  by_cases hb : b' = b
  · exact hb ▸ h
  · cases c with
    | idle | ready limit beyond => trivial
    | viewing limit thread =>
      obtain ⟨-, m, hm, hv⟩ := h
      have hp : thread.pending = false := hc hb
      exact ⟨Thread.commits_of_not_pending hp _ _, m, hm,
        (Thread.run_of_not_pending hp b' b).trans hv⟩
    | returned limit view => exact h

end ViewCall

structure Holder (n : ℕ) where
  op : BufferOp n
  thread : Thread Buffer Unit

structure BufferViews (n : ℕ) where
  buffer : Buffer
  holder : Option (Holder n)
  calls : Fin n → ViewCall
  /-- The buffer as `Append`, `Scroll` and the write of `Snapshot` would make it one at a time:
  the first two count when the lock is released, the last when it happens. -/
  atomic : Buffer
  /-- The buffers of each call's time at which the lock was free. -/
  moments : Fin n → List Buffer

inductive ViewLabel (n : ℕ)
  | append (ls : List GoString)
  | scroll (i : Fin n) (delta limit : Int) (beyond : List GoString)
  | get (i : Fin n) (limit : Int) (beyond : List GoString)
  /-- The next action under the lock, or its release. -/
  | hold
  /-- The next action of the `Snapshot` of a call, or its return. -/
  | view (i : Fin n)

/-- The call whose `Snapshot` acts. -/
def ViewLabel.viewer {n : ℕ} : ViewLabel n → Option (Fin n)
  | .view i => some i
  | _ => none

namespace BufferViews

variable {n : ℕ}

def init (b : Buffer) : BufferViews n where
  buffer := b
  holder := none
  calls _ := .idle
  atomic := b
  moments _ := []

def acquire (s : BufferViews n) (op : BufferOp n) : BufferViews n :=
  if s.holder.isNone then { s with holder := some ⟨op, op.thread⟩ } else s

/-- A call leaves its critical section. -/
def ready (s : BufferViews n) (i : Fin n) (limit : Int) (beyond : List GoString) :
    BufferViews n :=
  { s with
    calls := update s.calls i (.ready limit beyond)
    moments := update s.moments i [] }

def release (s : BufferViews n) (op : BufferOp n) : BufferViews n :=
  let s := { s with holder := none, atomic := op.apply s.atomic }
  match op with
  | .append _ => s
  | .scroll i _ limit beyond => s.ready i limit beyond

def hold (s : BufferViews n) : BufferViews n :=
  match s.holder with
  | none => s
  | some ⟨op, thread⟩ =>
    if thread.pending then
      { s with
        buffer := thread.effect s.buffer
        holder := some ⟨op, thread.rest s.buffer⟩ }
    -- Nothing is left to do under the lock.
    else s.release op

def viewAction (s : BufferViews n) (i : Fin n) (limit : Int) :
    Thread Buffer (Option BufferView) → BufferViews n
  | .ret view => { s with calls := update s.calls i (.returned limit view) }
  | .act write next =>
    { s with
      buffer := write s.buffer
      calls := update s.calls i (.viewing limit (next s.buffer))
      atomic := if write s.buffer = s.buffer then s.atomic else (s.atomic.snapshot limit).2 }

def view (s : BufferViews n) (i : Fin n) : BufferViews n :=
  match s.calls i with
  | .ready limit beyond => s.viewAction i limit (Buffer.snapshotThread beyond limit)
  | .viewing limit thread => s.viewAction i limit thread
  | _ => s

def move (s : BufferViews n) : ViewLabel n → BufferViews n
  | .append ls => s.acquire (.append ls)
  | .scroll i delta limit beyond =>
    if (s.calls i).inProgress then s else s.acquire (.scroll i delta limit beyond)
  | .get i limit beyond =>
    if (s.calls i).inProgress || s.holder.isSome then s else s.ready i limit beyond
  | .hold => s.hold
  | .view i => s.view i

def observe (s : BufferViews n) : BufferViews n :=
  { s with
    moments := fun i =>
      if (s.calls i).inProgress && s.holder.isNone then s.moments i ++ [s.buffer]
      else s.moments i }

def step (s : BufferViews n) (l : ViewLabel n) : BufferViews n := (s.move l).observe

/-- A `Snapshot` begins while the lock is free; and a change of the buffer does not fall into the
`Snapshot` of another call, nor that of a `Snapshot` between the actions under the lock. -/
structure Undisturbed (s : BufferViews n) (l : ViewLabel n) : Prop where
  start : ∀ i, l.viewer = some i → (s.calls i).isReady = true → s.holder.isNone = true
  change : (s.move l).buffer ≠ s.buffer → ∀ j, l.viewer ≠ some j → (s.calls j).midway = false
  unlocked : (s.move l).buffer ≠ s.buffer → l.viewer.isSome = true → s.holder.isNone = true

instance (s : BufferViews n) (l : ViewLabel n) : Decidable (s.Undisturbed l) :=
  decidable_of_iff
    ((∀ i, l.viewer = some i → (s.calls i).isReady = true → s.holder.isNone = true) ∧
      ((s.move l).buffer ≠ s.buffer → ∀ j, l.viewer ≠ some j → (s.calls j).midway = false) ∧
      ((s.move l).buffer ≠ s.buffer → l.viewer.isSome = true → s.holder.isNone = true))
    ⟨fun h => ⟨h.1, h.2.1, h.2.2⟩, fun h => ⟨h.start, h.change, h.unlocked⟩⟩

structure Serial (cap : Int) (s : BufferViews n) : Prop where
  ok : s.atomic.Ok cap
  free : s.holder = none → s.buffer = s.atomic
  held : ∀ h, s.holder = some h → (h.thread.run s.buffer).2 = h.op.apply s.atomic
  calls : ∀ i, (s.calls i).Fits s.buffer (s.moments i)

/-- The present buffer is one of the moments of every call in progress, while the lock is free. -/
def Seen (s : BufferViews n) : Prop :=
  s.holder = none → ∀ i, (s.calls i).inProgress = true → s.buffer ∈ s.moments i

variable {cap : Int} {s : BufferViews n}

theorem seen_observe (s : BufferViews n) : s.observe.Seen := by
  intro hfree i hi
  have hfree' : s.holder = none := hfree
  have hi' : (s.calls i).inProgress = true := hi
  simp [observe, hfree', hi']

theorem Serial.observe (h : s.Serial cap) : s.observe.Serial cap := by
  refine ⟨h.ok, h.free, h.held, fun i => (h.calls i).mono ?_⟩
  simp only [BufferViews.observe]
  split_ifs
  · exact subset_append_left _ _
  · exact List.Subset.refl _

theorem Serial.acquire (h : s.Serial cap) (op : BufferOp n) : (s.acquire op).Serial cap := by
  simp only [BufferViews.acquire]
  split_ifs with hfree
  · refine ⟨h.ok, by simp, ?_, h.calls⟩
    rintro _ ⟨⟩
    rw [BufferOp.run_thread, h.free (Option.isNone_iff_eq_none.mp hfree)]
  · exact h

theorem Serial.ready (h : s.Serial cap) (i : Fin n) (limit : Int) (beyond : List GoString) :
    (s.ready i limit beyond).Serial cap := by
  refine ⟨h.ok, h.free, h.held, ?_⟩
  intro j
  by_cases hj : j = i
  · subst hj
    simp [BufferViews.ready, ViewCall.Fits]
  · simpa [BufferViews.ready, hj] using h.calls j

theorem Serial.release (h : s.Serial cap) {op : BufferOp n}
    (hdone : s.buffer = op.apply s.atomic) : (s.release op).Serial cap := by
  have hs : ({ s with holder := none, atomic := op.apply s.atomic } : BufferViews n).Serial cap :=
    ⟨BufferOp.apply_ok h.ok op, fun _ => hdone, by simp, h.calls⟩
  cases op with
  | append ls => exact hs
  | scroll i delta limit beyond => exact hs.ready i limit beyond

theorem Serial.hold (h : s.Serial cap)
    (hl : s.hold.buffer ≠ s.buffer → ∀ j, (s.calls j).midway = false) : s.hold.Serial cap := by
  revert hl
  simp only [BufferViews.hold]
  split
  · exact fun _ => h
  · next op thread hheld =>
    have hrun := h.held _ hheld
    split_ifs with hp
    · intro hl
      refine ⟨h.ok, by simp, ?_, fun j => (h.calls j).change (fun hc => hl hc j)⟩
      rintro _ ⟨⟩
      rw [Thread.run_rest]
      exact hrun
    · intro _
      refine h.release ?_
      cases thread with
      | ret a => exact hrun
      | act write next => simp [Thread.pending] at hp

theorem Serial.viewAction (h : s.Serial cap) {i : Fin n} {limit : Int}
    {thread : Thread Buffer (Option BufferView)}
    (hfits : (ViewCall.viewing limit thread).Fits s.buffer (s.moments i))
    (hother : (s.viewAction i limit thread).buffer ≠ s.buffer →
      ∀ j, j ≠ i → (s.calls j).midway = false)
    (hfree : (s.viewAction i limit thread).buffer ≠ s.buffer → s.holder = none) :
    (s.viewAction i limit thread).Serial cap := by
  obtain ⟨hcommits, m, hm, hv⟩ := hfits
  cases thread with
  | ret view =>
    refine ⟨h.ok, h.free, h.held, ?_⟩
    intro j
    by_cases hj : j = i
    · subst hj
      simp only [BufferViews.viewAction, update_self]
      exact ⟨m, hm, hv⟩
    · simpa only [BufferViews.viewAction, update_of_ne hj] using h.calls j
  | act write next =>
    have hrest := Thread.Commits.rest (f := fun b : Buffer => (b.snapshot limit).2) hcommits
    have hcalls : ∀ j, ((s.viewAction i limit (.act write next)).calls j).Fits (write s.buffer)
        (s.moments j) := by
      intro j
      by_cases hj : j = i
      · subst hj
        simp only [BufferViews.viewAction, update_self]
        exact ⟨hrest, m, hm, hv⟩
      · simp only [BufferViews.viewAction, update_of_ne hj]
        exact (h.calls j).change (fun hc => hother hc j hj)
    by_cases hw : write s.buffer = s.buffer
    · simp only [BufferViews.viewAction, hw, if_true] at hcalls ⊢
      exact ⟨h.ok, h.free, h.held, hcalls⟩
    · -- The clamp: the lock is free, so it is that of an undisturbed `Snapshot`.
      have hnone := hfree hw
      have hset : write s.buffer = (s.buffer.snapshot limit).2 := hcommits.effect.resolve_left hw
      simp only [BufferViews.viewAction, hw, if_false] at hcalls ⊢
      refine ⟨Buffer.snapshot_ok h.ok limit, fun _ => ?_, by simp [hnone], hcalls⟩
      rw [hset, h.free hnone]

theorem Serial.view (h : s.Serial cap) (hseen : s.Seen) {i : Fin n}
    (hl : s.Undisturbed (.view i)) : (s.view i).Serial cap := by
  have hother : (s.view i).buffer ≠ s.buffer → ∀ j, j ≠ i → (s.calls j).midway = false :=
    fun hc j hj => hl.change hc j (by simpa [ViewLabel.viewer] using Ne.symm hj)
  have hfree : (s.view i).buffer ≠ s.buffer → s.holder = none :=
    fun hc => Option.isNone_iff_eq_none.mp (hl.unlocked hc rfl)
  have hfits := h.calls i
  have hstart := hl.start i rfl
  have hseen' := fun hnone => hseen hnone i
  revert hother hfree hfits hstart hseen'
  simp only [BufferViews.view]
  cases hi : s.calls i with
  | idle | returned limit view => exact fun _ _ _ _ _ => h
  | viewing limit thread => exact fun hother hfree hfits _ _ => h.viewAction hfits hother hfree
  | ready limit beyond =>
    intro hother hfree _ hstart hseen'
    have hnone := Option.isNone_iff_eq_none.mp (hstart rfl)
    have hok : s.buffer.Ok cap := h.free hnone ▸ h.ok
    -- The present buffer is the moment whose view the call will return.
    refine h.viewAction ⟨?_, s.buffer, hseen' hnone rfl, ?_⟩ hother hfree
    · exact Buffer.commits_snapshotThread beyond limit s.buffer
    · rw [Buffer.run_snapshotThread beyond limit hok.offset_nonneg]

theorem Serial.step (h : s.Serial cap ∧ s.Seen) {l : ViewLabel n} (hl : s.Undisturbed l) :
    (s.step l).Serial cap ∧ (s.step l).Seen := by
  refine ⟨Serial.observe ?_, seen_observe _⟩
  cases l with
  | append ls => exact h.1.acquire _
  | scroll i delta limit beyond =>
    simp only [move]
    split_ifs
    · exact h.1
    · exact h.1.acquire _
  | get i limit beyond =>
    simp only [move]
    split_ifs
    · exact h.1
    · exact h.1.ready i limit beyond
  | hold => exact h.1.hold (fun hc j => hl.change hc j (by simp [ViewLabel.viewer]))
  | view i => exact h.1.view h.2 hl

/-- In every run that meets the condition, each returned view is the `Snapshot` of the buffer at
one moment of the call at which the lock was free; and whenever the lock is free, the buffer is
what the operations make of it one at a time. -/
theorem views_are_atomic (b : Buffer) (hb : b.Ok cap) (ls : List (ViewLabel n))
    (hclean : Meets step Undisturbed (init b) ls) :
    let s := exec step (init b) ls
    (∀ i limit view, s.calls i = .returned limit view →
      ∃ m ∈ s.moments i, view = some (m.snapshot limit).1) ∧
    (s.holder = none → s.buffer = s.atomic) := by
  intro s
  have hinit : (init b : BufferViews n).Serial cap ∧ (init b : BufferViews n).Seen :=
    ⟨⟨hb, fun _ => rfl, by simp [init], fun _ => trivial⟩,
      fun _ i hi => by simp [init, ViewCall.inProgress] at hi⟩
  have h : s.Serial cap ∧ s.Seen :=
    hclean.invariant (I := fun s => s.Serial cap ∧ s.Seen) (fun _ _ h hl => Serial.step h hl) hinit
  refine ⟨?_, h.1.free⟩
  intro i limit view hi
  have hfits := h.1.calls i
  rwa [hi] at hfits

/-- Four lines, scrolled to the first one. -/
def scrolledUp : Buffer :=
  ((Buffer.newWithMaxLines 100).append [lit "a", lit "b", lit "c", lit "d"]).scroll 3 1

/-- `AppendOutput` of one line to a scrolled buffer, from the lock to its release. -/
def appendLine (line : GoString) : List (ViewLabel n) :=
  .append [line] :: replicate 7 .hold

/-- Two overlapping views that find nothing to clamp, an append, and a scroll with its view. -/
def viewsApart (i j : Fin n) : List (ViewLabel n) :=
  [.get i 1 [], .get j 1 []] ++ replicate 5 (.view i) ++ replicate 7 (.view j) ++
    replicate 2 (.view i) ++ appendLine (lit "e") ++ [.scroll j (-1) 2 []] ++
    replicate 4 .hold ++ replicate 8 (.view j)

theorem views_are_atomic_viewsApart :
    let s := exec step (init scrolledUp) (viewsApart (0 : Fin 2) 1)
    s.calls 1 = .returned 2 (some ⟨[lit "a", lit "b"], 5, 3, false⟩) ∧ s.holder = none ∧
      (∀ i limit view, s.calls i = .returned limit view →
        ∃ m ∈ s.moments i, view = some (m.snapshot limit).1) ∧
      (s.holder = none → s.buffer = s.atomic) := by
  have hb : scrolledUp.Ok 100 :=
    Buffer.scroll_ok (Buffer.append_ok (Buffer.newWithMaxLines_ok (by decide)) _) _ _
  exact ⟨rfl, rfl, views_are_atomic scrolledUp hb _ (by decide)⟩

/-- `GetBuffer`, with one append between the comparison and the write of its `Snapshot` and one
between the write and the other reads. -/
def viewTorn (i : Fin n) : List (ViewLabel n) :=
  [.get i 2 [], .view i, .view i] ++ appendLine (lit "e") ++ [.view i] ++
    appendLine (lit "f") ++ replicate 5 (.view i)

/-- The view is that of no moment of the call, and the move of the offset with the first batch
is lost: in whatever order, the three operations leave the offset at 4. -/
theorem view_torn_and_move_lost :
    let s := exec step (init scrolledUp) (viewTorn (0 : Fin 1))
    s.calls 0 = .returned 2 (some ⟨[lit "a"], 4, 3, false⟩) ∧
      (∀ m ∈ s.moments 0, (m.snapshot 2).1 ≠ ⟨[lit "a"], 4, 3, false⟩) ∧
      s.holder = none ∧ s.buffer.scrollOffset = 3 ∧
      (((scrolledUp.snapshot 2).2.append [lit "e"]).append [lit "f"]).scrollOffset = 4 ∧
      (((scrolledUp.append [lit "e"]).snapshot 2).2.append [lit "f"]).scrollOffset = 4 ∧
      (((scrolledUp.append [lit "e"]).append [lit "f"]).snapshot 2).2.scrollOffset = 4 := by
  refine ⟨rfl, ?_⟩
  decide

end BufferViews

end Centaurx
