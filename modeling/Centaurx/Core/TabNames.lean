import Centaurx.Core.Tab
import Centaurx.Lib.Utf8

namespace Centaurx
open Go List

/-- How much of a name that is too long is kept. -/
def keptBytes (max : Int) (suffix : GoString) : ℕ :=
  if suffix.length < max then (max - suffix.length).toNat else max.toNat

variable {name suffix : GoString} {max : Int}

theorem formatTabName_long (hmax : 1 ≤ max) (hlong : max < name.length) :
    formatTabName name max suffix = name.take (keptBytes max suffix) ++
      if suffix.length < max then suffix else [] := by
  rw [formatTabName, if_neg (by omega), if_neg (by omega), keptBytes]
  dsimp only
  by_cases hroom : suffix.length < max
  · rw [if_neg (by omega), if_pos hroom, if_pos hroom]
  · rw [if_pos (by omega), if_neg hroom, if_neg hroom, append_nil]

theorem length_formatTabName (hmax : 1 ≤ max) : (formatTabName name max suffix).length ≤ max := by
  rcases le_or_gt (name.length : Int) max with hfits | hlong
  · rwa [formatTabName, if_neg (by omega), if_pos hfits]
  · rw [formatTabName_long hmax hlong, keptBytes, length_append, length_take]
    split_ifs with hroom
    · omega
    · rw [length_nil]
      omega

theorem validUTF8_take_iff (hname : validUTF8 name = true) (n : ℕ) :
    validUTF8 (name.take n) = true ↔ Boundary (name.drop n) := by
  constructor
  · intro htake
    refine boundary_of_valid (validUTF8_append_of_valid htake ?_)
    rwa [take_append_drop]
  · intro hcut
    rw [← take_append_drop n name, validUTF8_append hcut] at hname
    exact hname.1

theorem take_eq_ofRunes (hname : validUTF8 name = true) {n : ℕ} (hcut : Boundary (name.drop n)) :
    ∃ k, name.take n = ofRunes ((toRunes name).take k) := by
  refine ⟨(toRunes (name.take n)).length, ?_⟩
  have hsplit := toRunes_append hcut (name.take n)
  rw [take_append_drop] at hsplit
  rw [hsplit, take_left, ofRunes_toRunes_of_valid ((validUTF8_take_iff hname n).mpr hcut)]

/-- **Tab names.** A name that fits is kept. A longer one is cut to at most `max` bytes, and the
result is valid UTF-8, whole characters of the name with the suffix behind them if there is room
for it, exactly if the byte behind the cut is not inside a character. -/
theorem formatTabName_valid_iff (name suffix : GoString) (hname : validUTF8 name = true)
    (hsuffix : validUTF8 suffix = true) (max : Int) (hmax : 1 ≤ max) :
    (formatTabName name max suffix).length ≤ max ∧
      (name.length ≤ max → formatTabName name max suffix = name) ∧
      (max < name.length →
        (validUTF8 (formatTabName name max suffix) = true ↔
          Boundary (name.drop (keptBytes max suffix))) ∧
        (Boundary (name.drop (keptBytes max suffix)) →
          ∃ k, formatTabName name max suffix = ofRunes ((toRunes name).take k) ++
            if suffix.length < max then suffix else [])) := by
  refine ⟨length_formatTabName hmax, fun hfits => ?_, fun hlong => ⟨?_, fun hcut => ?_⟩⟩
  · rw [formatTabName, if_neg (by omega), if_pos hfits]
  · have hend : validUTF8 (if suffix.length < max then suffix else []) = true := by
      split_ifs
      · exact hsuffix
      · rfl
    rw [formatTabName_long hmax hlong, validUTF8_append (boundary_of_valid hend),
      and_iff_left hend, validUTF8_take_iff hname]
  · obtain ⟨k, hk⟩ := take_eq_ofRunes hname hcut
    exact ⟨k, by rw [formatTabName_long hmax hlong, hk]⟩

/-- The cut is between two characters. -/
theorem formatTabName_valid_iff_between :
    formatTabName (lit "éééééé") 9 (lit "$") = lit "éééé$" ∧
      validUTF8 (formatTabName (lit "éééééé") 9 (lit "$")) = true := by
  have h := formatTabName_valid_iff (lit "éééééé") (lit "$") (by decide) (by decide) 9 (by decide)
  refine ⟨by decide, (h.2.2 (by decide)).1.mpr ?_⟩
  rintro _ ⟨⟩
  decide

/-- The default bounds cut the fifth character in two. -/
theorem formatTabName_invalid :
    validUTF8 (lit "éééééé") = true ∧
      validUTF8 (formatTabName (lit "éééééé") 10 (lit "$")) = false := by
  decide

end Centaurx
