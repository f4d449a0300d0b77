import Mathlib.Data.Finmap

namespace Centaurx.Maps
open List

variable {κ ν ρ : Type} [DecidableEq κ]

theorem lookup_insert_eq (m : Finmap fun _ : κ => ν) (k k' : κ) (v : ν) :
    (m.insert k v).lookup k' = if k' = k then some v else m.lookup k' := by
  split_ifs with h
  · rw [h, Finmap.lookup_insert]
  · exact Finmap.lookup_insert_of_ne _ h

theorem lookup_erase_eq (m : Finmap fun _ : κ => ν) (k k' : κ) :
    (m.erase k).lookup k' = if k' = k then none else m.lookup k' := by
  split_ifs with h
  · rw [h, Finmap.lookup_erase]
  · exact Finmap.lookup_erase_ne h

theorem lookup_foldl_insert {keep : ρ → Bool} {key : ρ → κ} {value : ρ → ν} {records : List ρ}
    (h : (records.map key).Nodup) (k : κ) (v : ν) :
    (records.foldl (fun m r => if keep r then m.insert (key r) (value r) else m)
        (∅ : Finmap fun _ : κ => ν)).lookup k = some v ↔
      ∃ r ∈ records, keep r = true ∧ key r = k ∧ value r = v := by
  induction records using reverseRecOn with
  | nil => simp
  | append_singleton records r ih =>
    rw [map_append, nodup_append] at h
    have hfresh : ∀ r' ∈ records, key r' ≠ key r := fun r' hr' =>
      h.2.2 _ (mem_map_of_mem hr') _ (by simp)
    have hnew : (∃ r' ∈ records ++ [r], keep r' = true ∧ key r' = k ∧ value r' = v) ↔
        (∃ r' ∈ records, keep r' = true ∧ key r' = k ∧ value r' = v) ∨
          keep r = true ∧ key r = k ∧ value r = v := by
      simp [or_and_right, exists_or]
    rw [foldl_append, foldl_cons, foldl_nil, hnew, ← ih h.1]
    by_cases hkeep : keep r = true
    · rw [if_pos hkeep, lookup_insert_eq]
      split_ifs with hk
      · -- no earlier record has this key
        have hnone : ¬(records.foldl (fun m r => if keep r then m.insert (key r) (value r) else m)
            (∅ : Finmap fun _ : κ => ν)).lookup k = some v := by
          rw [ih h.1]
          rintro ⟨r', hr', -, hkey, -⟩
          exact hfresh r' hr' (hkey.trans hk)
        simp [hnone, hkeep, hk]
      · simp [Ne.symm hk]
    · rw [if_neg hkeep]
      simp [hkeep]

end Centaurx.Maps
