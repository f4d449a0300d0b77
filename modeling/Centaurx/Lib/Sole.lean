import Mathlib.Data.List.Basic
import Mathlib.Logic.Function.Basic

namespace Centaurx
open List Function

variable {ι α : Type*} {f : ι → List α} {x y : List α}

def Sole (f : ι → List α) (x : List α) : Prop :=
  (x = [] ∧ ∀ i, f i = []) ∨ ∃ i, f i = x ∧ ∀ j, j ≠ i → f j = []

namespace Sole

theorem empty (h : ∀ i, f i = []) : Sole f [] := .inl ⟨rfl, h⟩

theorem eq_nil (h : Sole f x) (hf : ∀ i, f i = []) : x = [] := by
  rcases h with ⟨hx, -⟩ | ⟨i, hi, -⟩
  · exact hx
  · exact hi.symm.trans (hf i)

variable [DecidableEq ι] {i : ι}

/-- A free party takes on `y`, which may be something only when nobody owes anything. -/
theorem fill (h : Sole f x) (hi : f i = []) (hy : y ≠ [] → ∀ j, f j = []) :
    Sole (update f i y) (x ++ y) := by
  by_cases h0 : y = []
  · subst h0
    rwa [append_nil, ← hi, update_eq_self]
  · have hf := hy h0
    rw [h.eq_nil hf, nil_append]
    refine .inr ⟨i, update_self .., ?_⟩
    intro j hj
    rw [update_of_ne hj]
    exact hf j

/-- A party delivers the front `a` of its queue. -/
theorem consume {a : List α} (h : Sole f x) (hi : f i = a ++ y) :
    ∃ x', Sole (update f i y) x' ∧ x = a ++ x' := by
  by_cases h0 : a ++ y = []
  · obtain ⟨rfl, rfl⟩ := append_eq_nil_iff.mp h0
    refine ⟨x, ?_, rfl⟩
    have hid : update f i [] = f := by
      rw [update_eq_iff]
      exact ⟨hi.symm, fun _ _ => rfl⟩
    rwa [hid]
  · rcases h with ⟨-, hf⟩ | ⟨j, rfl, hf⟩
    · exact absurd (hi.symm.trans (hf i)) h0
    · -- The party that owes something is this one.
      obtain rfl : i = j := by
        by_contra hne
        exact h0 (hi.symm.trans (hf i hne))
      refine ⟨y, .inr ⟨i, update_self .., ?_⟩, hi⟩
      intro k hk
      rw [update_of_ne hk]
      exact hf k hk

end Sole

end Centaurx
