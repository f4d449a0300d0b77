import Centaurx.Lib.Utf8

namespace Centaurx.Go

/-- The code units of a rune. -/
def utf16 (r : ℕ) : List ℕ :=
  if r < 0x10000 then [r]
  else [0xD800 + (r - 0x10000) / 0x400, 0xDC00 + (r - 0x10000) % 0x400]

/-- The code units of a string. -/
def units (s : GoString) : List ℕ := (runes s).flatMap fun r => utf16 r.1

@[simp]
theorem units_nil : units [] = [] := rfl

theorem units_ascii_cons {b : UInt8} (hb : b < 0x80) (s : GoString) :
    units (b :: s) = b.toNat :: units s := by
  have hlt : b.toNat < 0x80 := UInt8.lt_iff_toNat_lt.mp hb
  have hunit : utf16 b.toNat = [b.toNat] := if_pos (by omega)
  rw [units, runes_ascii_cons hb, List.flatMap_cons, hunit]
  rfl

theorem utf16_head {r : ℕ} (hr : 0x80 ≤ r) : ∃ u us, utf16 r = u :: us ∧ 0x80 ≤ u := by
  rw [utf16]
  split
  · exact ⟨r, [], rfl, hr⟩
  · exact ⟨_, _, rfl, by omega⟩

theorem units_cons_of_not_ascii {b : UInt8} (hb : ¬b < 0x80) (s : GoString) :
    ∃ u us, units (b :: s) = u :: us ∧ 0x80 ≤ u := by
  have hr : 0x80 ≤ (decodeRune (b :: s)).1 := by
    by_contra h
    exact hb (byte_of_rune_lt (s := s) (by omega))
  obtain ⟨u, us, hu, h⟩ := utf16_head hr
  refine ⟨u, us ++ units ((b :: s).drop (decodeRune (b :: s)).2), ?_, h⟩
  rw [units, runes_cons, List.flatMap_cons, hu]
  rfl

theorem units_head?_eq {b : UInt8} (hb : b < 0x80) (s : GoString) :
    (units s).head? = some b.toNat ↔ s.head? = some b := by
  cases s with
  | nil => simp
  | cons c s =>
    by_cases hc : c < 0x80
    · rw [units_ascii_cons hc]
      simp [UInt8.toNat_inj]
    · obtain ⟨u, us, hu, hlt⟩ := units_cons_of_not_ascii hc s
      have hb' : b.toNat < 0x80 := UInt8.lt_iff_toNat_lt.mp hb
      rw [hu]
      refine ⟨fun h => ?_, fun h => ?_⟩
      · simp only [List.head?_cons, Option.some.injEq] at h
        omega
      · obtain rfl : c = b := by simpa using h
        exact absurd hb hc

/-- An ASCII text is found at the start of the units if it is at the start of the string. -/
theorem isPrefixOf_units {text : GoString} (ht : ∀ b ∈ text, b < 0x80) (s : GoString) :
    (text.map UInt8.toNat).isPrefixOf (units s) = text.isPrefixOf s := by
  induction text generalizing s with
  | nil => simp
  | cons b text ih =>
    have hb := ht b (by simp)
    have hhead := units_head?_eq hb s
    cases s with
    | nil => rfl
    | cons c s =>
      by_cases hc : c = b
      · subst hc
        rw [units_ascii_cons hb]
        simp [List.isPrefixOf, ih (fun x hx => ht x (by simp [hx]))]
      · have hne : (units (c :: s)).head? ≠ some b.toNat := fun h => hc (by simpa using hhead.mp h)
        rw [Bool.eq_iff_iff]
        refine ⟨fun h => ?_, fun h => ?_⟩
        · obtain ⟨t, ht⟩ := List.isPrefixOf_iff_prefix.mp h
          exact absurd (by rw [← ht]; rfl) hne
        · obtain ⟨t, ht⟩ := List.isPrefixOf_iff_prefix.mp h
          exact absurd (List.cons.inj ht).1.symm hc

end Centaurx.Go
