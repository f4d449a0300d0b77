import Mathlib.Logic.Function.Basic

namespace Centaurx.Threads

inductive Thread (σ : Type) (α : Type)
  | ret (a : α)
  /-- The state `s` becomes `write s`, and the thread goes on with `next s`. -/
  | act (write : σ → σ) (next : σ → Thread σ α)

namespace Thread

variable {σ α β : Type}

def bind : Thread σ α → (α → Thread σ β) → Thread σ β
  | .ret a, g => g a
  | .act w k, g => .act w (fun s => (k s).bind g)

instance : Monad (Thread σ) where
  pure := .ret
  bind := bind

def read (f : σ → α) : Thread σ α := .act id (fun s => .ret (f s))

def write (f : σ → σ) : Thread σ Unit := .act f (fun _ => .ret ())

/-- The thread alone: its result and the state it leaves. -/
def run : Thread σ α → σ → α × σ
  | .ret a, s => (a, s)
  | .act w k, s => (k s).run (w s)

/-- The state after the next action. -/
def effect : Thread σ α → σ → σ
  | .ret _, s => s
  | .act w _, s => w s

/-- The thread after its next action. -/
def rest : Thread σ α → σ → Thread σ α
  | .ret a, _ => .ret a
  | .act _ k, s => k s

/-- The thread has an action to do. -/
def pending : Thread σ α → Bool
  | .ret _ => false
  | .act _ _ => true

@[simp] theorem run_pure (a : α) (s : σ) : (pure a : Thread σ α).run s = (a, s) := rfl

@[simp] theorem run_write (f : σ → σ) (s : σ) : (write f).run s = ((), f s) := rfl

@[simp] theorem run_bind (p : Thread σ α) (g : α → Thread σ β) (s : σ) :
    (p >>= g).run s = (g (p.run s).1).run (p.run s).2 := by
  change (p.bind g).run s = _
  induction p generalizing s with
  | ret a => rfl
  | act w k ih => exact ih s (w s)

@[simp] theorem run_read_bind (f : σ → α) (g : α → Thread σ β) (s : σ) :
    (read f >>= g).run s = (g (f s)).run s := rfl

@[simp] theorem run_write_bind (f : σ → σ) (g : Unit → Thread σ β) (s : σ) :
    (write f >>= g).run s = (g ()).run (f s) := rfl

@[simp] theorem run_ite (c : Prop) [Decidable c] (p q : Thread σ α) (s : σ) :
    (if c then p else q).run s = if c then p.run s else q.run s := by
  split <;> rfl

@[simp] theorem run_rest (p : Thread σ α) (s : σ) : (p.rest s).run (p.effect s) = p.run s := by
  cases p <;> rfl

variable {p : Thread σ α}

theorem run_of_not_pending (h : p.pending = false) (s t : σ) : (p.run s).1 = (p.run t).1 := by
  cases p with
  | ret a => rfl
  | act w k => simp [pending] at h

/-- Alone from `s`, the thread leaves the state as it is. -/
def Quiet : Thread σ α → σ → Prop
  | .ret _, _ => True
  | .act w k, s => w s = s ∧ (k s).Quiet s

/-- Alone from `s`, the thread changes the state once at most, to `t`. -/
def Commits : Thread σ α → σ → σ → Prop
  | .ret _, _, _ => True
  | .act w k, s, t => (w s = s ∧ (k s).Commits s t) ∨ (w s = t ∧ (k s).Quiet t)

theorem Quiet.read {f : σ → α} {g : α → Thread σ β} {s : σ} (h : (g (f s)).Quiet s) :
    (read f >>= g).Quiet s := ⟨rfl, h⟩

theorem Commits.read {f : σ → α} {g : α → Thread σ β} {s t : σ} (h : (g (f s)).Commits s t) :
    (read f >>= g).Commits s t := .inl ⟨rfl, h⟩

theorem Commits.write {f : σ → σ} {g : Unit → Thread σ β} {s t : σ} (hf : f s = t)
    (h : (g ()).Quiet t) : (write f >>= g).Commits s t := .inr ⟨hf, h⟩

theorem Quiet.commits {s : σ} (h : p.Quiet s) (t : σ) : p.Commits s t := by
  induction p with
  | ret a => trivial
  | act w k ih => exact .inl ⟨h.1, ih s h.2⟩

theorem commits_of_not_pending (h : p.pending = false) (s t : σ) : p.Commits s t := by
  cases p with
  | ret a => trivial
  | act w k => simp [pending] at h

theorem Commits.effect {s t : σ} (h : p.Commits s t) : p.effect s = s ∨ p.effect s = t := by
  cases p with
  | ret a => exact .inl rfl
  | act w k => exact h.imp And.left And.left

theorem Commits.rest {f : σ → σ} {s : σ} (h : p.Commits s (f s)) :
    (p.rest s).Commits (p.effect s) (f (p.effect s)) := by
  cases p with
  | ret a => trivial
  | act w k =>
    rcases h with ⟨hw, hk⟩ | ⟨hw, hk⟩
    · simpa only [Thread.rest, Thread.effect, hw] using hk
    · simp only [Thread.rest, Thread.effect, hw]
      exact hk.commits _

end Thread

end Centaurx.Threads
