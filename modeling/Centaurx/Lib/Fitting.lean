import Mathlib.Algebra.Order.BigOperators.Group.List
import Mathlib.Algebra.Order.Group.Defs
import Mathlib.Algebra.Order.Ring.Int

namespace Centaurx.Fitting
open List

variable {α : Type*} [AddCommGroup α] [LinearOrder α] [IsOrderedAddMonoid α]

/-- The number of entries at the front that fit. -/
def fitCount (room : α) : List α → ℕ
  | [] => 0
  | w :: ws => if room < w then 0 else fitCount (room - w) ws + 1

omit [IsOrderedAddMonoid α] in
theorem fitCount_le_length (room : α) (ws : List α) : fitCount room ws ≤ ws.length := by
  induction ws generalizing room with
  | nil => exact le_rfl
  | cons w ws ih =>
    rw [fitCount, length_cons]
    split_ifs
    · exact Nat.zero_le _
    · exact Nat.succ_le_succ (ih _)

theorem fitCount_mono {room room' : α} (h : room ≤ room') (ws : List α) :
    fitCount room ws ≤ fitCount room' ws := by
  induction ws generalizing room room' with
  | nil => exact le_rfl
  | cons w ws ih =>
    rw [fitCount, fitCount]
    by_cases hfull : room < w
    · rw [if_pos hfull]
      exact Nat.zero_le _
    · rw [if_neg hfull, if_neg fun hless => hfull (h.trans_lt hless)]
      exact Nat.succ_le_succ (ih (sub_le_sub_right h w))

theorem le_fitCount_iff {ws : List α} (hws : ∀ w ∈ ws, 0 ≤ w) {room : α} (hroom : 0 ≤ room) {k : ℕ}
    (hk : k ≤ ws.length) : k ≤ fitCount room ws ↔ (ws.take k).sum ≤ room := by
  induction ws generalizing room k with
  | nil =>
    obtain rfl : k = 0 := Nat.le_zero.mp hk
    simpa [fitCount] using hroom
  | cons w ws ih =>
    rw [forall_mem_cons] at hws
    cases k with
    | zero => simpa using hroom
    | succ k =>
      rw [length_cons, Nat.succ_le_succ_iff] at hk
      rw [fitCount, take_succ_cons, sum_cons]
      split_ifs with hfull
      · have hrest : 0 ≤ (ws.take k).sum :=
          sum_nonneg fun x hx => hws.2 x (mem_of_mem_take hx)
        exact iff_of_false (Nat.not_succ_le_zero k)
          (not_le.mpr (hfull.trans_le (le_add_of_nonneg_right hrest)))
      · rw [Nat.succ_le_succ_iff, ih hws.2 (sub_nonneg.mpr (not_lt.mp hfull)) hk,
          le_sub_iff_add_le']

theorem sum_take_mono {ws : List α} (hws : ∀ w ∈ ws, 0 ≤ w) {j k : ℕ} (h : j ≤ k) :
    (ws.take j).sum ≤ (ws.take k).sum :=
  (take_prefix_take_left h).sublist.sum_le_sum fun w hw => hws w (mem_of_mem_take hw)

/-- The entries that are shown, at least one, when the mark is there or not. -/
def markedCount (room : ℤ) (ws : List ℤ) (marked : Bool) : ℕ :=
  max 1 (fitCount (max 1 (room - if marked then 1 else 0)) ws)

/-- What the first entries take, with a mark if there are more. -/
def markedSum (ws : List ℤ) (k : ℕ) : ℤ := (ws.take k).sum + if k < ws.length then 1 else 0

/-- Whether not all entries are shown when there is no mark. -/
def needsMark (room : ℤ) (ws : List ℤ) : Bool := markedCount room ws false < ws.length

/-- The entries that are shown in the end. -/
def settledCount (room : ℤ) (ws : List ℤ) : ℕ := markedCount room ws (needsMark room ws)

section Marked
variable (room : ℤ) {ws : List ℤ}

theorem markedCount_antitone (ws : List ℤ) :
    markedCount room ws true ≤ markedCount room ws false := by
  have hroom : max 1 (room - if true then 1 else 0) ≤ max 1 (room - if false then 1 else 0) := by
    simp only [if_true, Bool.false_eq_true, if_false]
    omega
  have hmono := fitCount_mono hroom ws
  rw [markedCount, markedCount]
  omega

/-- What is hidden with the mark was hidden without it, so a second round changes nothing. -/
theorem settledCount_lt_iff (ws : List ℤ) :
    settledCount room ws < ws.length ↔ needsMark room ws = true := by
  rw [settledCount]
  cases hmark : needsMark room ws with
  | true =>
    rw [needsMark, decide_eq_true_eq] at hmark
    exact iff_of_true ((markedCount_antitone room ws).trans_lt hmark) rfl
  | false =>
    rw [needsMark, decide_eq_false_iff_not] at hmark
    exact iff_of_false hmark Bool.false_ne_true

theorem decide_settledCount_lt (ws : List ℤ) :
    decide (settledCount room ws < ws.length) = needsMark room ws := by
  simp only [settledCount_lt_iff, Bool.decide_eq_true]

theorem settledCount_pos (ws : List ℤ) : 1 ≤ settledCount room ws := le_max_left _ _

theorem settledCount_le (hne : ws ≠ []) : settledCount room ws ≤ ws.length := by
  have hpos := length_pos_of_ne_nil hne
  exact max_le hpos (fitCount_le_length _ _)

variable (hws : ∀ w ∈ ws, 2 ≤ w)

include hws

theorem nonneg_of_two_le : ∀ w ∈ ws, 0 ≤ w := by
  intro w hw
  have h := hws w hw
  omega

theorem le_markedCount (marked : Bool) {k : ℕ} (hk : k ≤ ws.length)
    (hfits : (ws.take k).sum + (if marked then 1 else 0) ≤ room) :
    k ≤ markedCount room ws marked := by
  apply le_trans _ (le_max_right _ _)
  rw [le_fitCount_iff (nonneg_of_two_le hws) (by omega) hk]
  omega

theorem two_le_sum_take {k : ℕ} (hk : 1 ≤ k) (hne : ws ≠ []) : 2 ≤ (ws.take k).sum := by
  obtain ⟨w, rest, rfl⟩ := exists_cons_of_ne_nil hne
  have hmono := sum_take_mono (nonneg_of_two_le hws) hk
  have hw := hws w mem_cons_self
  simp only [take_succ_cons, take_zero, sum_singleton] at hmono
  omega

theorem settledCount_fits (hne : ws ≠ []) :
    settledCount room ws = 1 ∨ markedSum ws (settledCount room ws) ≤ room := by
  by_cases hone : settledCount room ws = 1
  · exact .inl hone
  right
  have hmark := settledCount_lt_iff room ws
  have hsum := two_le_sum_take hws (settledCount_pos room ws) hne
  have hcount : settledCount room ws ≤
      fitCount (max 1 (room - if needsMark room ws then 1 else 0)) ws := by
    have hpos := settledCount_pos room ws
    rw [settledCount, markedCount] at hone hpos ⊢
    omega
  rw [le_fitCount_iff (nonneg_of_two_le hws) (by omega) (settledCount_le room hne)] at hcount
  rw [markedSum]
  simp only [hmark]
  omega

theorem lt_markedSum (hmore : settledCount room ws < ws.length) :
    room < markedSum ws (settledCount room ws + 1) := by
  have hmark := (settledCount_lt_iff room ws).mp hmore
  by_contra hfits
  rw [not_lt, markedSum] at hfits
  rcases Nat.eq_or_lt_of_le (Nat.succ_le_of_lt hmore) with hlast | hless
  · rw [Nat.succ_eq_add_one] at hlast
    rw [if_neg (by omega)] at hfits
    have hall := le_markedCount room hws false hlast.le (by simpa using hfits)
    rw [needsMark, decide_eq_true_eq] at hmark
    omega
  · rw [if_pos hless] at hfits
    have hnext := le_markedCount room hws true hless.le (by simpa using hfits)
    rw [settledCount, hmark] at hnext
    omega

theorem le_settledCount {k : ℕ} (hk : k ≤ ws.length) (hfits : k = 1 ∨ markedSum ws k ≤ room) :
    k ≤ settledCount room ws := by
  rcases hfits with rfl | hfits
  · exact settledCount_pos room ws
  by_contra hless
  have hmark := (settledCount_lt_iff room ws).mp (lt_of_lt_of_le (not_le.mp hless) hk)
  rw [markedSum] at hfits
  split_ifs at hfits with hmore
  · have hcount := le_markedCount room hws true hk (by simpa using hfits)
    rw [settledCount, hmark] at hless
    omega
  · have hcount := le_markedCount room hws false hk (by simpa using hfits)
    rw [needsMark, decide_eq_true_eq] at hmark
    omega

end Marked

end Centaurx.Fitting
