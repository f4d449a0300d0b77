import Mathlib.Data.List.Basic

namespace Centaurx.Runs
open List

variable {σ ℓ : Type*} (step : σ → ℓ → σ)

/-- The state after the labels, from the left. -/
def exec (s : σ) (ls : List ℓ) : σ := ls.foldl step s

/-- Every transition of the run meets `P`: the state before, the label, the state after. -/
def Along (P : σ → ℓ → σ → Prop) : σ → List ℓ → Prop
  | _, [] => True
  | s, l :: ls => P s l (step s l) ∧ Along P (step s l) ls

/-- Every step of the run meets a condition on the state before it. -/
def Meets (C : σ → ℓ → Prop) : σ → List ℓ → Prop := Along step (fun s l _ => C s l)

instance decidableAlong (P : σ → ℓ → σ → Prop) [∀ s l t, Decidable (P s l t)] :
    ∀ s ls, Decidable (Along step P s ls)
  | _, [] => isTrue trivial
  | s, l :: ls =>
    have := decidableAlong P (step s l) ls
    inferInstanceAs (Decidable (P s l (step s l) ∧ Along step P (step s l) ls))

instance decidableMeets (C : σ → ℓ → Prop) [∀ s l, Decidable (C s l)] (s : σ) (ls : List ℓ) :
    Decidable (Meets step C s ls) :=
  inferInstanceAs (Decidable (Along step (fun s l _ => C s l) s ls))

variable {step}

@[simp] theorem meets_nil (C : σ → ℓ → Prop) (s : σ) : Meets step C s [] := trivial

@[simp] theorem meets_cons (C : σ → ℓ → Prop) (s : σ) (l : ℓ) (ls : List ℓ) :
    Meets step C s (l :: ls) ↔ C s l ∧ Meets step C (step s l) ls := Iff.rfl

theorem exec_append (s : σ) (ls ls' : List ℓ) :
    exec step s (ls ++ ls') = exec step (exec step s ls) ls' := foldl_append

variable {ls : List ℓ} {s : σ}

theorem meets_append {C : σ → ℓ → Prop} {ls' : List ℓ} :
    Meets step C s (ls ++ ls') ↔ Meets step C s ls ∧ Meets step C (exec step s ls) ls' := by
  induction ls generalizing s with
  | nil => exact (and_iff_right trivial).symm
  | cons l ls ih => exact (and_congr_right fun _ => ih).trans and_assoc.symm

theorem Meets.and {C : σ → ℓ → Prop} {P : ℓ → Prop} (h : Meets step C s ls) (hP : ∀ l ∈ ls, P l) :
    Meets step (fun s l => C s l ∧ P l) s ls := by
  induction ls generalizing s with
  | nil => trivial
  | cons l ls ih =>
    exact ⟨⟨h.1, hP l mem_cons_self⟩, ih h.2 fun l' hl' => hP l' (mem_cons_of_mem _ hl')⟩

variable {I : σ → Prop}

/-- The invariant rule. -/
theorem Meets.invariant {C : σ → ℓ → Prop} (hstep : ∀ s l, I s → C s l → I (step s l)) (hs : I s)
    (h : Meets step C s ls) : I (exec step s ls) := by
  induction ls generalizing s with
  | nil => exact hs
  | cons l ls ih => exact ih (hstep s l hs h.1) h.2

theorem exec_invariant (hstep : ∀ s l, I s → I (step s l)) (hs : I s) (ls : List ℓ) :
    I (exec step s ls) := by
  induction ls generalizing s with
  | nil => exact hs
  | cons l ls ih => exact ih (hstep s l hs)

theorem exec_invariant_of_mem {P : ℓ → Prop} (hstep : ∀ s l, I s → P l → I (step s l)) (hs : I s)
    (hls : ∀ l ∈ ls, P l) : I (exec step s ls) := by
  induction ls generalizing s with
  | nil => exact hs
  | cons l ls ih =>
    exact ih (hstep s l hs (hls l mem_cons_self)) fun l' hl' =>
      hls l' (mem_cons_of_mem _ hl')

/-- The invariant rule for what a state says about the labels so far. -/
theorem Meets.history {C : σ → ℓ → Prop} {I : List ℓ → σ → Prop}
    (hstep : ∀ past s l, I past s → C s l → I (past ++ [l]) (step s l)) {past : List ℓ}
    (hs : I past s) (h : Meets step C s ls) : I (past ++ ls) (exec step s ls) := by
  induction ls generalizing past s with
  | nil =>
    rw [append_nil]
    exact hs
  | cons l ls ih =>
    have hl := ih (hstep past s l hs h.1) h.2
    rwa [append_assoc] at hl

/-- A property of transitions holds along a run when an invariant of the run gives it. -/
theorem Meets.along {C : σ → ℓ → Prop} {P : σ → ℓ → σ → Prop}
    (hstep : ∀ s l, I s → C s l → I (step s l)) (hP : ∀ s l, I s → C s l → P s l (step s l))
    (hs : I s) (h : Meets step C s ls) : Along step P s ls := by
  induction ls generalizing s with
  | nil => trivial
  | cons l ls ih => exact ⟨hP s l hs h.1, ih (hstep s l hs h.1) h.2⟩

theorem forall_prefix_cons {P : List ℓ → Prop} {l : ℓ} :
    (∀ part, part <+: l :: ls → P part) ↔ P [] ∧ ∀ part, part <+: ls → P (l :: part) := by
  refine ⟨fun h => ⟨h [] nil_prefix, fun part hpart =>
    h _ ((prefix_cons_inj l).mpr hpart)⟩, fun h part hpart => ?_⟩
  cases part with
  | nil => exact h.1
  | cons l' part =>
    obtain ⟨rfl, hrest⟩ := cons_prefix_cons.mp hpart
    exact h.2 part hrest

/-- A property holds all along a run if and only if every step meets the condition that it needs. -/
theorem forall_prefix_iff {C : σ → ℓ → Prop} {P : σ → Prop} (hI : ∀ s l, I s → I (step s l))
    (hstep : ∀ s l, I s → P s → (P (step s l) ↔ C s l)) (hs : I s) (hP : P s) (ls : List ℓ) :
    (∀ part, part <+: ls → P (exec step s part)) ↔ Meets step C s ls := by
  induction ls generalizing s with
  | nil =>
    refine iff_of_true (fun part hpart => ?_) trivial
    rw [prefix_nil.mp hpart]
    exact hP
  | cons l ls ih =>
    rw [forall_prefix_cons, meets_cons, ← hstep s l hs hP]
    refine ⟨fun h => ?_, fun h => ⟨hP, (ih (hI s l hs) h.1).mpr h.2⟩⟩
    have hnext : P (step s l) := h.2 [] nil_prefix
    exact ⟨hnext, (ih (hI s l hs) hnext).mp h.2⟩

end Centaurx.Runs
