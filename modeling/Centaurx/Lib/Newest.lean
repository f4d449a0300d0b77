import Mathlib.Data.List.DropRight
import Mathlib.Data.List.Infix

namespace Centaurx.Newest
open List

variable {α β : Type}

theorem rtake_suffix (l : List α) (n : ℕ) : l.rtake n <:+ l := drop_suffix _ _

theorem length_rtake (l : List α) (n : ℕ) : (l.rtake n).length = min n l.length := by
  rw [rtake, length_drop]
  omega

theorem rtake_of_length_le {l : List α} {n : ℕ} (h : l.length ≤ n) : l.rtake n = l := by
  rw [rtake, Nat.sub_eq_zero_of_le h, drop_zero]

theorem rtake_append (l m : List α) (n : ℕ) :
    (l ++ m).rtake n = l.rtake (n - m.length) ++ m.rtake n := by
  rw [rtake, rtake, rtake, drop_append, length_append,
    show l.length + m.length - n - l.length = m.length - n by omega]
  congr 1
  rcases le_total m.length n with h | h
  · congr 1
    omega
  · rw [drop_eq_nil_of_le (by omega), drop_eq_nil_of_le (by omega)]

theorem map_rtake (f : α → β) (l : List α) (n : ℕ) : (l.rtake n).map f = (l.map f).rtake n := by
  rw [rtake, rtake, map_drop, length_map]

theorem rtake_rtake (l : List α) (m n : ℕ) : (l.rtake m).rtake n = l.rtake (min n m) := by
  rw [rtake, length_rtake, rtake, rtake, drop_drop]
  congr 1
  omega

theorem rtake_append_rtake (l m : List α) (n : ℕ) :
    (l.rtake n ++ m).rtake n = (l ++ m).rtake n := by
  rw [rtake_append, rtake_rtake, rtake_append l]
  congr 2
  omega

theorem getLast?_of_suffix {l m : List α} (h : l <:+ m) (hl : l ≠ []) :
    l.getLast? = m.getLast? := by
  obtain ⟨t, rfl⟩ := h
  rw [getLast?_append]
  cases hlast : l.getLast? with
  | none => exact absurd (getLast?_eq_none_iff.mp hlast) hl
  | some x => rfl

/-- A batch is added; nothing happens to an empty one. -/
def keep (n : ℕ) (l batch : List α) : List α :=
  if batch = [] then l else (l ++ batch).rtake n

/-- After any number of batches, the end of everything is left. -/
theorem foldl_keep (n : ℕ) (l : List α) (batches : List (List α)) :
    batches.foldl (keep n) l =
      if batches.flatten = [] then l else (l ++ batches.flatten).rtake n := by
  induction batches generalizing l with
  | nil => rfl
  | cons batch batches ih =>
    rw [foldl_cons, ih, flatten_cons, keep]
    by_cases hbatch : batch = []
    · simp [hbatch]
    · have hall : batch ++ batches.flatten ≠ [] := fun h => hbatch (append_eq_nil_iff.mp h).1
      rw [if_neg hbatch, if_neg hall]
      split_ifs with hrest
      · rw [hrest, append_nil]
      · rw [rtake_append_rtake, append_assoc]

theorem map_keep (f : α → β) (n : ℕ) (l batch : List α) :
    (keep n l batch).map f = keep n (l.map f) (batch.map f) := by
  rw [keep, keep]
  by_cases hbatch : batch = []
  · simp [hbatch]
  · rw [if_neg hbatch, if_neg (by simpa using hbatch), map_rtake, map_append]

/-- Two ends of a log one after the other, and then more: if the entries are told apart, a bounded
log holds the end of everything only when the second one is empty or has pushed out the first. -/
theorem keep_suffix_iff {n : ℕ} {log view again more : List α} (hnodup : log.Nodup)
    (hview : view <:+ log) (hne : log ≠ [] → view ≠ []) (hagain : again ≠ [] → log ≠ []) :
    (if again ++ more = [] then view else (view ++ (again ++ more)).rtake n) <:+ log ++ more ↔
      again = [] ∨ (n ≤ again.length + more.length ∧ again.rtake (n - more.length) <:+ log) := by
  by_cases hempty : again = []
  · subst hempty
    refine iff_of_true ?_ (.inl rfl)
    have hmore : view ++ more <:+ log ++ more := suffix_append_self_iff.mpr hview
    simp only [nil_append]
    split_ifs with h
    · rw [h, append_nil]
      exact hview
    · exact (rtake_suffix _ _).trans hmore
  · have hall : again ++ more ≠ [] := fun h => hempty (append_eq_nil_iff.mp h).1
    rw [if_neg hall, ← append_assoc, rtake_append, or_iff_right hempty]
    by_cases hn : n ≤ more.length
    · -- what comes last fills the log
      rw [Nat.sub_eq_zero_of_le hn, rtake_zero, rtake_zero, nil_append]
      exact iff_of_true ((rtake_suffix _ _).trans (suffix_append _ _))
        ⟨by omega, nil_suffix⟩
    · rw [rtake_of_length_le (l := more) (by omega), suffix_append_self_iff, rtake_append]
      by_cases hk : n - more.length ≤ again.length
      · rw [Nat.sub_eq_zero_of_le hk, rtake_zero, nil_append]
        exact ⟨fun h => ⟨by omega, h⟩, fun h => h.2⟩
      · -- the last entry of the log is in the view and again after it
        refine iff_of_false (fun hsuffix => ?_) fun h => hk (by omega)
        have hview' : view.rtake (n - more.length - again.length) ≠ [] := by
          intro h
          have hlen := length_rtake view (n - more.length - again.length)
          rw [h, length_nil] at hlen
          have hpos := length_pos_of_ne_nil (hne (hagain hempty))
          omega
        rw [rtake_of_length_le (l := again) (by omega)] at hsuffix
        have hlast := getLast?_of_suffix ((rtake_suffix _ _).trans hview) hview'
        have hlast' := getLast?_of_suffix ((suffix_append _ _).trans hsuffix) hempty
        have hdisjoint := (nodup_append.mp (hnodup.sublist hsuffix.sublist)).2.2
        cases hl : log.getLast? with
        | none => exact hagain hempty (getLast?_eq_none_iff.mp hl)
        | some x =>
          rw [hl] at hlast hlast'
          exact hdisjoint x (mem_of_getLast? hlast) x (mem_of_getLast? hlast') rfl

end Centaurx.Newest
