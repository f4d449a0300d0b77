import Centaurx.Lib.GoString

namespace Centaurx.Go
open List UInt8

variable {b : UInt8}

theorem between_iff {lo hi : UInt8} :
    between lo hi b = true ↔ lo.toNat ≤ b.toNat ∧ b.toNat ≤ hi.toNat := by
  simp [between, le_iff_toNat_le]

theorem not_between {lo hi : UInt8} (h : ¬(lo.toNat ≤ b.toNat ∧ b.toNat ≤ hi.toNat)) :
    between lo hi b = false := Bool.eq_false_iff.mpr fun hb => h (between_iff.mp hb)

theorem cont_iff : cont b = true ↔ 0x80 ≤ b.toNat ∧ b.toNat ≤ 0xBF := between_iff

theorem decodeRune_ascii (hb : b < 0x80) (s : GoString) : decodeRune (b :: s) = (b.toNat, 1) := by
  simp [decodeRune, hb]

/-- The runes that UTF-8 encodes. -/
def Scalar (r : ℕ) : Prop := r < 0xD800 ∨ (0xE000 ≤ r ∧ r ≤ 0x10FFFF)

instance (r : ℕ) : Decidable (Scalar r) := inferInstanceAs (Decidable (_ ∨ _))

/-- `utf8.AppendRune`: what is not a scalar value is written as `RuneError`. -/
def encodeRune (r : ℕ) : GoString :=
  if r < 0x80 then [ofNat r]
  else if r < 0x800 then [ofNat (0xC0 + r / 64), ofNat (0x80 + r % 64)]
  else if ¬Scalar r then [0xEF, 0xBF, 0xBD]
  else if r < 0x10000 then
    [ofNat (0xE0 + r / 4096), ofNat (0x80 + r / 64 % 64), ofNat (0x80 + r % 64)]
  else
    [ofNat (0xF0 + r / 262144), ofNat (0x80 + r / 4096 % 64),
      ofNat (0x80 + r / 64 % 64), ofNat (0x80 + r % 64)]

theorem ofNat_of_toNat {n : ℕ} (h : n = b.toNat) : ofNat n = b := by
  subst h
  simp

theorem second_iff {c : UInt8} : between (second b).1 (second b).2 c = true ↔
    (0x80 ≤ c.toNat ∧ c.toNat ≤ 0xBF ∧ (b.toNat = 0xE0 → 0xA0 ≤ c.toNat) ∧
      (b.toNat = 0xED → c.toNat ≤ 0x9F) ∧ (b.toNat = 0xF0 → 0x90 ≤ c.toNat) ∧
      (b.toNat = 0xF4 → c.toNat ≤ 0x8F)) := by
  rw [between_iff, second]
  simp only [← UInt8.toNat_inj, reduceToNat]
  split_ifs <;> simp only [reduceToNat] <;> omega

theorem not_lt_0x80 : ¬b < 0x80 ↔ 0x80 ≤ b.toNat := by
  rw [UInt8.not_lt, le_iff_toNat_le]
  rfl

theorem decodeRune_two {c : UInt8} (hb : between 0xC2 0xDF b = true) (hc : cont c = true)
    (s : GoString) : decodeRune (b :: c :: s) = ((b.toNat - 0xC0) * 64 + (c.toNat - 0x80), 2) := by
  have hb' := between_iff.mp hb
  simp only [reduceToNat] at hb'
  have h1 : ¬b < 0x80 := not_lt_0x80.mpr (by omega)
  simp only [decodeRune, h1, hb, hc, if_true, if_false]

theorem decodeRune_three {c d : UInt8} (hb : between 0xE0 0xEF b = true)
    (hc : between (second b).1 (second b).2 c = true) (hd : cont d = true) (s : GoString) :
    decodeRune (b :: c :: d :: s) =
      (((b.toNat - 0xE0) * 64 + (c.toNat - 0x80)) * 64 + (d.toNat - 0x80), 3) := by
  have hb' := between_iff.mp hb
  simp only [reduceToNat] at hb'
  have h1 : ¬b < 0x80 := not_lt_0x80.mpr (by omega)
  have h2 : between 0xC2 0xDF b = false := not_between (by simp only [reduceToNat]; omega)
  simp only [decodeRune, h1, h2, hb, hc, hd, if_true, if_false, Bool.and_self, Bool.false_eq_true]

theorem decodeRune_four {c d e : UInt8} (hb : between 0xF0 0xF4 b = true)
    (hc : between (second b).1 (second b).2 c = true) (hd : cont d = true) (he : cont e = true)
    (s : GoString) :
    decodeRune (b :: c :: d :: e :: s) =
      ((((b.toNat - 0xF0) * 64 + (c.toNat - 0x80)) * 64 + (d.toNat - 0x80)) * 64 +
        (e.toNat - 0x80), 4) := by
  have hb' := between_iff.mp hb
  simp only [reduceToNat] at hb'
  have h1 : ¬b < 0x80 := not_lt_0x80.mpr (by omega)
  have h2 : between 0xC2 0xDF b = false := not_between (by simp only [reduceToNat]; omega)
  have h3 : between 0xE0 0xEF b = false := not_between (by simp only [reduceToNat]; omega)
  simp only [decodeRune, h1, h2, h3, hb, hc, hd, he, if_true, if_false, Bool.and_self,
    Bool.false_eq_true]

theorem encodeRune_two {c : UInt8} (hb : between 0xC2 0xDF b = true) (hc : cont c = true) :
    Scalar ((b.toNat - 0xC0) * 64 + (c.toNat - 0x80)) ∧
      encodeRune ((b.toNat - 0xC0) * 64 + (c.toNat - 0x80)) = [b, c] := by
  have hb2 := between_iff.mp hb
  have hc2 := cont_iff.mp hc
  simp only [reduceToNat] at hb2
  refine ⟨.inl (by omega), ?_⟩
  rw [encodeRune, if_neg (by omega), if_pos (by omega), ofNat_of_toNat (b := b) (by omega),
    ofNat_of_toNat (b := c) (by omega)]

theorem encodeRune_three {c d : UInt8} {r : ℕ} (hb : between 0xE0 0xEF b = true)
    (hc : between (second b).1 (second b).2 c = true) (hd : cont d = true)
    (hr : r = ((b.toNat - 0xE0) * 64 + (c.toNat - 0x80)) * 64 + (d.toNat - 0x80)) :
    Scalar r ∧ encodeRune r = [b, c, d] := by
  have hb2 := between_iff.mp hb
  have hc2 := second_iff.mp hc
  have hd2 := cont_iff.mp hd
  simp only [reduceToNat] at hb2
  have hs : Scalar r := by
    unfold Scalar
    omega
  refine ⟨hs, ?_⟩
  rw [encodeRune, if_neg (by omega), if_neg (by omega), if_neg (not_not_intro hs),
    if_pos (by omega), ofNat_of_toNat (b := b) (by omega), ofNat_of_toNat (b := c) (by omega),
    ofNat_of_toNat (b := d) (by omega)]

theorem encodeRune_four {c d e : UInt8} {r : ℕ} (hb : between 0xF0 0xF4 b = true)
    (hc : between (second b).1 (second b).2 c = true) (hd : cont d = true) (he : cont e = true)
    (hr : r = (((b.toNat - 0xF0) * 64 + (c.toNat - 0x80)) * 64 + (d.toNat - 0x80)) * 64 +
      (e.toNat - 0x80)) :
    Scalar r ∧ encodeRune r = [b, c, d, e] := by
  have hb2 := between_iff.mp hb
  have hc2 := second_iff.mp hc
  have hd2 := cont_iff.mp hd
  have he2 := cont_iff.mp he
  simp only [reduceToNat] at hb2
  have hs : Scalar r := by
    unfold Scalar
    omega
  refine ⟨hs, ?_⟩
  rw [encodeRune, if_neg (by omega), if_neg (by omega), if_neg (not_not_intro hs),
    if_neg (by omega), ofNat_of_toNat (b := b) (by omega), ofNat_of_toNat (b := c) (by omega),
    ofNat_of_toNat (b := d) (by omega), ofNat_of_toNat (b := e) (by omega)]

/-- What the decoder answers: an error, or a scalar value whose encoding it has read. -/
theorem decodeRune_spec (b : UInt8) (s : GoString) :
    decodeRune (b :: s) = (runeError, 1) ∨
      ∃ r t, Scalar r ∧ b :: s = encodeRune r ++ t ∧
        decodeRune (b :: s) = (r, (encodeRune r).length) := by
  -- a rune whose encoding is known is read with that encoding's width
  have hread : ∀ {r t u}, Scalar r ∧ encodeRune r = u → b :: s = u ++ t →
      decodeRune (b :: s) = (r, u.length) → ∃ r t, Scalar r ∧ b :: s = encodeRune r ++ t ∧
        decodeRune (b :: s) = (r, (encodeRune r).length) := by
    rintro r t u ⟨hr, rfl⟩ hs hd
    exact ⟨r, t, hr, hs, hd⟩
  by_cases h1 : b < 0x80
  · have hb : b.toNat < 0x80 := lt_iff_toNat_lt.mp h1
    have henc : encodeRune b.toNat = [b] := by simp [encodeRune, hb]
    exact .inr (hread ⟨.inl (by omega), henc⟩ rfl (decodeRune_ascii h1 s))
  by_cases h2 : between 0xC2 0xDF b = true
  · rcases s with _ | ⟨c, s⟩
    · simp [decodeRune, h1, h2]
    by_cases hc : cont c = true
    · exact .inr (hread (encodeRune_two h2 hc) rfl (decodeRune_two h2 hc s))
    · simp [decodeRune, h1, h2, hc]
  by_cases h3 : between 0xE0 0xEF b = true
  · rcases s with _ | ⟨c, _ | ⟨d, s⟩⟩
    · simp [decodeRune, h1, h2, h3]
    · simp [decodeRune, h1, h2, h3]
    by_cases hc : (between (second b).1 (second b).2 c && cont d) = true
    · obtain ⟨hc1, hd1⟩ := Bool.and_eq_true_iff.mp hc
      exact .inr (hread (encodeRune_three h3 hc1 hd1 rfl) rfl (decodeRune_three h3 hc1 hd1 s))
    · simp only [decodeRune, h1, h2, h3, hc, if_true, if_false]
      simp
  by_cases h4 : between 0xF0 0xF4 b = true
  · rcases s with _ | ⟨c, _ | ⟨d, _ | ⟨e, s⟩⟩⟩
    · simp [decodeRune, h1, h2, h3, h4]
    · simp [decodeRune, h1, h2, h3, h4]
    · simp [decodeRune, h1, h2, h3, h4]
    by_cases hc : (between (second b).1 (second b).2 c && cont d && cont e) = true
    · obtain ⟨hcd, he1⟩ := Bool.and_eq_true_iff.mp hc
      obtain ⟨hc1, hd1⟩ := Bool.and_eq_true_iff.mp hcd
      exact .inr (hread (encodeRune_four h4 hc1 hd1 he1 rfl) rfl
        (decodeRune_four h4 hc1 hd1 he1 s))
    · simp only [decodeRune, h1, h2, h3, h4, hc, if_true, if_false]
      simp
  · simp [decodeRune, h1, h2, h3, h4]

theorem toNat_ofNat {n : ℕ} (h : n < 256) : (ofNat n).toNat = n := by
  simpa using h

theorem between_ofNat {lo hi : UInt8} {n : ℕ} (h : lo.toNat ≤ n ∧ n ≤ hi.toNat) :
    between lo hi (ofNat n) = true := by
  have hlt := hi.toNat_lt
  rwa [between_iff, toNat_ofNat (by omega)]

theorem cont_ofNat (n : ℕ) : cont (ofNat (0x80 + n % 64)) = true := by
  rw [cont_iff, toNat_ofNat (by omega)]
  omega

variable {r : ℕ}

theorem decodeRune_encodeRune (hr : Scalar r) (t : GoString) :
    decodeRune (encodeRune r ++ t) = (r, (encodeRune r).length) := by
  have hr' := hr
  unfold Scalar at hr'
  by_cases h1 : r < 0x80
  · have hb : ofNat r < 0x80 := by
      rw [lt_iff_toNat_lt, toNat_ofNat (by omega)]
      exact h1
    rw [encodeRune, if_pos h1, singleton_append, decodeRune_ascii hb, toNat_ofNat (by omega)]
    rfl
  by_cases h2 : r < 0x800
  · rw [encodeRune, if_neg h1, if_pos h2]
    have hb := toNat_ofNat (n := 0xC0 + r / 64) (by omega)
    have hc := toNat_ofNat (n := 0x80 + r % 64) (by omega)
    have hb1 : between 0xC2 0xDF (ofNat (0xC0 + r / 64)) = true :=
      between_ofNat (by simp only [reduceToNat]; omega)
    refine (decodeRune_two hb1 (cont_ofNat _) t).trans (Prod.ext ?_ rfl)
    simp only [hb, hc]
    omega
  by_cases h3 : r < 0x10000
  · rw [encodeRune, if_neg h1, if_neg h2, if_neg (not_not_intro hr), if_pos h3]
    have hb := toNat_ofNat (n := 0xE0 + r / 4096) (by omega)
    have hc := toNat_ofNat (n := 0x80 + r / 64 % 64) (by omega)
    have hd := toNat_ofNat (n := 0x80 + r % 64) (by omega)
    have hb1 : between 0xE0 0xEF (ofNat (0xE0 + r / 4096)) = true :=
      between_ofNat (by simp only [reduceToNat]; omega)
    refine (decodeRune_three hb1 (second_iff.mpr ?_) (cont_ofNat _) t).trans (Prod.ext ?_ rfl)
    · rw [hb, hc]
      omega
    · simp only [hb, hc, hd]
      omega
  · rw [encodeRune, if_neg h1, if_neg h2, if_neg (not_not_intro hr), if_neg h3]
    have hb := toNat_ofNat (n := 0xF0 + r / 262144) (by omega)
    have hc := toNat_ofNat (n := 0x80 + r / 4096 % 64) (by omega)
    have hd := toNat_ofNat (n := 0x80 + r / 64 % 64) (by omega)
    have he := toNat_ofNat (n := 0x80 + r % 64) (by omega)
    have hb1 : between 0xF0 0xF4 (ofNat (0xF0 + r / 262144)) = true :=
      between_ofNat (by simp only [reduceToNat]; omega)
    refine (decodeRune_four hb1 (second_iff.mpr ?_) (cont_ofNat _) (cont_ofNat _) t).trans
      (Prod.ext ?_ rfl)
    · rw [hb, hc]
      omega
    · simp only [hb, hc, hd, he]
      omega

theorem encodeRune_cons (r : ℕ) : ∃ b bs, encodeRune r = b :: bs ∧ cont b = false ∧
    ∀ c ∈ bs, cont c = true := by
  have key : ∀ n, n < 256 → (n < 0x80 ∨ 0xC0 ≤ n) → cont (ofNat n) = false := by
    intro n hn h
    rw [← Bool.not_eq_true, cont_iff, toNat_ofNat hn]
    omega
  unfold encodeRune Scalar
  split_ifs with h1 h2 h3 h4
  · exact ⟨_, _, rfl, key _ (by omega) (by omega), by simp⟩
  · exact ⟨_, _, rfl, key _ (by omega) (by omega), forall_mem_singleton.mpr (cont_ofNat _)⟩
  · refine ⟨_, _, rfl, key _ (by omega) (by omega), ?_⟩
    exact forall_mem_cons.mpr ⟨cont_ofNat _, forall_mem_singleton.mpr (cont_ofNat _)⟩
  · refine ⟨_, _, rfl, key _ (by omega) (by omega), ?_⟩
    exact forall_mem_cons.mpr
      ⟨cont_ofNat _, forall_mem_cons.mpr ⟨cont_ofNat _, forall_mem_singleton.mpr (cont_ofNat _)⟩⟩
  · exact ⟨_, _, rfl, by decide, by decide⟩

theorem encodeRune_ne_error (r : ℕ) : (r, (encodeRune r).length) ≠ (runeError, 1) := by
  intro h
  obtain ⟨rfl, hlen⟩ := Prod.mk.inj h
  exact absurd hlen (by decide)

theorem mem_encodeRune_ascii (h : b ∈ encodeRune r) (hb : b < 0x80) : r = b.toNat := by
  have hlt : b.toNat < 0x80 := lt_iff_toNat_lt.mp hb
  have key : ∀ n, 0x80 ≤ n → n < 256 → b ≠ ofNat n := by
    rintro n h hn rfl
    rw [toNat_ofNat hn] at hlt
    omega
  by_cases hr : r < 0x80
  · rw [encodeRune, if_pos hr, mem_singleton] at h
    rw [h, toNat_ofNat (by omega)]
  · exfalso
    rw [encodeRune, if_neg hr] at h
    split_ifs at h with h1 h2 h3
    · simp only [mem_cons, not_mem_nil, or_false] at h
      exact h.elim (key _ (by omega) (by omega)) (key _ (by omega) (by omega))
    · simp only [mem_cons, not_mem_nil, or_false] at h
      exact h.elim (key _ (by omega) (by omega)) fun h =>
        h.elim (key _ (by omega) (by omega)) (key _ (by omega) (by omega))
    · unfold Scalar at h2
      simp only [mem_cons, not_mem_nil, or_false] at h
      exact h.elim (key _ (by omega) (by omega)) fun h =>
        h.elim (key _ (by omega) (by omega)) fun h =>
          h.elim (key _ (by omega) (by omega)) (key _ (by omega) (by omega))
    · simp only [mem_cons, not_mem_nil, or_false] at h
      rcases h with rfl | rfl | rfl <;> exact absurd hb (by decide)

/-- Bytes that do not start inside a rune. -/
def Boundary (t : GoString) : Prop := ∀ b ∈ t.head?, cont b = false

/-- The decoder does not look beyond a boundary. -/
theorem decodeRune_append {s t : GoString} (hs : s ≠ []) (ht : Boundary t) :
    decodeRune (s ++ t) = decodeRune s := by
  obtain ⟨b, s, rfl⟩ := exists_cons_of_ne_nil hs
  rcases decodeRune_spec b s with herr | ⟨r, u, hr, hs', hd⟩
  · rcases decodeRune_spec b (s ++ t) with herr' | ⟨r, u, hr, hs', hd⟩
    · rw [herr, cons_append, herr']
    · -- The encoding would end inside `b :: s`, or go on into `t`.
      exfalso
      rw [← cons_append] at hs'
      rcases append_eq_append_iff.mp hs' with ⟨v, henc, htv⟩ | ⟨v, hsv, -⟩
      · obtain ⟨c, cs, henc', -, hcs⟩ := encodeRune_cons r
        rcases v with _ | ⟨v0, v⟩
        · have hdec := decodeRune_encodeRune hr []
          rw [append_nil, henc, append_nil, herr] at hdec
          rw [← append_nil (b :: s), ← henc] at hdec
          exact encodeRune_ne_error r hdec.symm
        · have hv0 : cont v0 = true := by
            apply hcs
            rw [henc', cons_append] at henc
            rw [(cons.inj henc).2]
            simp
          have := ht v0 (by simp [htv])
          rw [hv0] at this
          exact absurd this (by decide)
      · rw [hsv, decodeRune_encodeRune hr] at herr
        exact encodeRune_ne_error r herr
  · rw [hd, hs', append_assoc, decodeRune_encodeRune hr]

theorem decodeRune_pos (b : UInt8) (s : GoString) : 1 ≤ (decodeRune (b :: s)).2 := by
  rcases decodeRune_spec b s with herr | ⟨r, t, hr, hs, hd⟩
  · rw [herr]
  · obtain ⟨c, cs, henc, -⟩ := encodeRune_cons r
    simp [hd, henc]

theorem decodeRune_le (b : UInt8) (s : GoString) :
    (decodeRune (b :: s)).2 ≤ (b :: s).length := by
  rcases decodeRune_spec b s with herr | ⟨r, t, hr, hs, hd⟩
  · rw [herr]
    simp
  · rw [hd, hs]
    simp

/-- A reader that takes a byte at least in every round needs no more rounds than there are bytes. -/
theorem rounds_of_le {β : Type*} {read : ℕ → GoString → β} (hnil : ∀ n, read n [] = read 0 [])
    (hcons : ∀ b s m n, (∀ t : GoString, t.length ≤ s.length → read m t = read n t) →
      read (m + 1) (b :: s) = read (n + 1) (b :: s))
    (s : GoString) {m n : ℕ} (hm : s.length ≤ m) (hn : s.length ≤ n) : read m s = read n s := by
  induction m generalizing s n with
  | zero =>
    obtain rfl : s = [] := length_eq_zero_iff.mp (by omega)
    exact (hnil n).symm
  | succ m ih =>
    cases s with
    | nil => rw [hnil, hnil n]
    | cons b s =>
      obtain ⟨n, rfl⟩ : ∃ n', n = n' + 1 := ⟨n - 1, by simp at hn; omega⟩
      rw [length_cons] at hm hn
      exact hcons b s m n fun t ht => ih t (by omega) (by omega)

theorem drop_rune_length (b : UInt8) (s : GoString) :
    ((b :: s).drop (decodeRune (b :: s)).2).length ≤ s.length := by
  have hpos := decodeRune_pos b s
  simp
  omega

theorem runesN_of_le (s : GoString) {m n : ℕ} (hm : s.length ≤ m) (hn : s.length ≤ n) :
    runesN m s = runesN n s := by
  refine rounds_of_le (fun n => ?_) (fun b s m n h => ?_) s hm hn
  · cases n <;> rfl
  · rw [runesN, runesN, h _ (drop_rune_length b s)]

@[simp] theorem runes_nil : runes [] = [] := rfl

theorem runes_cons (b : UInt8) (s : GoString) :
    runes (b :: s) =
      decodeRune (b :: s) :: runes ((b :: s).drop (decodeRune (b :: s)).2) := by
  rw [runes, length_cons, runesN, runes, runesN_of_le _ (drop_rune_length b s) le_rfl]

theorem rest_induction {P : GoString → Prop} (nil : P [])
    (cons : ∀ b s, (∀ t : GoString, t.length ≤ s.length → P t) → P (b :: s)) (s : GoString) :
    P s := by
  induction hn : s.length using Nat.strong_induction_on generalizing s with
  | _ n ih =>
    cases s with
    | nil => exact nil
    | cons b s =>
      rw [length_cons] at hn
      exact cons b s fun t ht => ih _ (by omega) t rfl

theorem rune_induction {P : GoString → Prop} (nil : P [])
    (cons : ∀ b s, P ((b :: s).drop (decodeRune (b :: s)).2) → P (b :: s)) (s : GoString) :
    P s :=
  rest_induction nil (fun b s ih => cons b s (ih _ (drop_rune_length b s))) s

theorem runes_append {t : GoString} (ht : Boundary t) (s : GoString) :
    runes (s ++ t) = runes s ++ runes t := by
  induction s using rune_induction with
  | nil => simp
  | cons b s ih =>
    have hd := decodeRune_append (s := b :: s) (by simp) ht
    rw [cons_append] at hd
    rw [cons_append, runes_cons, runes_cons b s, hd, ← cons_append,
      drop_append_of_le_length (decodeRune_le b s), ih, cons_append]

theorem runes_ascii_cons (hb : b < 0x80) (s : GoString) :
    runes (b :: s) = (b.toNat, 1) :: runes s := by
  rw [runes_cons, decodeRune_ascii hb]
  rfl

theorem runes_ascii {s : GoString} (h : ∀ b ∈ s, b < 0x80) :
    runes s = s.map (fun b => (b.toNat, 1)) := by
  induction s with
  | nil => rfl
  | cons b s ih =>
    rw [runes_ascii_cons (h b (by simp)), ih (fun c hc => h c (mem_cons_of_mem _ hc)),
      map_cons]

theorem runes_encodeRune_append (hr : Scalar r) (t : GoString) :
    runes (encodeRune r ++ t) = (r, (encodeRune r).length) :: runes t := by
  obtain ⟨b, bs, henc, -⟩ := encodeRune_cons r
  have hd := decodeRune_encodeRune hr t
  rw [henc, cons_append] at hd ⊢
  rw [runes_cons, hd, ← cons_append, drop_left]

theorem byte_of_rune_lt {s : GoString} (h : (decodeRune (b :: s)).1 < 0x80) : b < 0x80 := by
  rcases decodeRune_spec b s with herr | ⟨r, t, hr, hs, hd⟩
  · rw [herr] at h
    exact absurd h (by decide)
  · rw [hd] at h
    rw [encodeRune, if_pos h, singleton_append] at hs
    obtain ⟨rfl, -⟩ := cons.inj hs
    rw [lt_iff_toNat_lt, toNat_ofNat (by dsimp only at h; omega)]
    exact h

theorem runes_of_lt {s : GoString} (h : ∀ r ∈ runes s, r.1 < 0x80) :
    runes s = s.map (fun b => (b.toNat, 1)) := by
  induction s using rune_induction with
  | nil => rfl
  | cons b s ih =>
    have hb : b < 0x80 := byte_of_rune_lt (s := s) (h _ (by rw [runes_cons]; simp))
    rw [decodeRune_ascii hb] at ih
    rw [runes_ascii_cons hb] at h ⊢
    rw [map_cons]
    congr 1
    exact ih (fun r hr => h r (mem_cons_of_mem _ hr))

/-- The conversion `[]rune(s)`. -/
def toRunes (s : GoString) : List ℕ := (runes s).map Prod.fst

/-- The conversion `string(rs)`. -/
def ofRunes (rs : List ℕ) : GoString := rs.flatMap encodeRune

@[simp]
theorem toRunes_nil : toRunes [] = [] := rfl

@[simp]
theorem ofRunes_nil : ofRunes [] = [] := rfl

theorem ofRunes_cons (r : ℕ) (rs : List ℕ) : ofRunes (r :: rs) = encodeRune r ++ ofRunes rs := rfl

theorem ofRunes_append (rs ts : List ℕ) : ofRunes (rs ++ ts) = ofRunes rs ++ ofRunes ts :=
  flatMap_append

theorem toRunes_append {t : GoString} (ht : Boundary t) (s : GoString) :
    toRunes (s ++ t) = toRunes s ++ toRunes t := by
  rw [toRunes, runes_append ht, map_append]
  rfl

theorem toRunes_cons (b : UInt8) (s : GoString) :
    toRunes (b :: s) =
      (decodeRune (b :: s)).1 :: toRunes ((b :: s).drop (decodeRune (b :: s)).2) := by
  rw [toRunes, runes_cons]
  rfl

theorem toRunes_encodeRune_append (hr : Scalar r) (t : GoString) :
    toRunes (encodeRune r ++ t) = r :: toRunes t := by
  rw [toRunes, runes_encodeRune_append hr]
  rfl

theorem toRunes_ofRunes_append {rs : List ℕ} (h : ∀ r ∈ rs, Scalar r) (t : GoString) :
    toRunes (ofRunes rs ++ t) = rs ++ toRunes t := by
  induction rs with
  | nil => simp
  | cons r rs ih =>
    rw [ofRunes_cons, append_assoc, toRunes_encodeRune_append (h r (by simp)),
      ih fun x hx => h x (by simp [hx])]
    rfl

theorem toRunes_ofRunes {rs : List ℕ} (h : ∀ r ∈ rs, Scalar r) : toRunes (ofRunes rs) = rs := by
  simpa using toRunes_ofRunes_append h []

theorem encodeRune_of_not_scalar (h : ¬Scalar r) : encodeRune r = encodeRune runeError := by
  have hhigh : ¬r < 0x800 := fun hlt => h (.inl (hlt.trans (by decide)))
  rw [encodeRune, if_neg (fun hlt => hhigh (hlt.trans (by decide))), if_neg hhigh, if_pos h]
  decide

/-- What was written from runes is written the same after it was read. -/
theorem ofRunes_toRunes_ofRunes (rs : List ℕ) : ofRunes (toRunes (ofRunes rs)) = ofRunes rs := by
  have hsame : ofRunes (rs.map fun r => if Scalar r then r else runeError) = ofRunes rs := by
    rw [ofRunes, ofRunes, flatMap_map]
    refine congrArg (rs.flatMap ·) (funext fun r => ?_)
    split_ifs with hr
    · rfl
    · exact (encodeRune_of_not_scalar hr).symm
  have hscalar : ∀ r ∈ rs.map fun r => if Scalar r then r else runeError, Scalar r := by
    intro r hr
    obtain ⟨r, -, rfl⟩ := mem_map.mp hr
    split_ifs with hr
    · exact hr
    · decide
  rw [← hsame, toRunes_ofRunes hscalar]

theorem decodeRune_scalar (b : UInt8) (s : GoString) : Scalar (decodeRune (b :: s)).1 := by
  rcases decodeRune_spec b s with h | ⟨r, t, hr, -, h⟩
  · rw [h]
    decide
  · rw [h]
    exact hr

theorem toRunes_scalar (s : GoString) : ∀ r ∈ toRunes s, Scalar r := by
  induction s using rune_induction with
  | nil => simp
  | cons b s ih =>
    rw [toRunes_cons, forall_mem_cons]
    exact ⟨decodeRune_scalar b s, ih⟩

theorem validUTF8_cons (b : UInt8) (s : GoString) : validUTF8 (b :: s) = true ↔
    decodeRune (b :: s) ≠ (runeError, 1) ∧
      validUTF8 ((b :: s).drop (decodeRune (b :: s)).2) = true := by
  rw [validUTF8, runes_cons, all_cons, Bool.and_eq_true, decide_eq_true_eq]
  rfl

/-- A valid string begins with the encoding of its first rune. -/
theorem exists_rune_of_valid {s : GoString} (h : validUTF8 (b :: s) = true) :
    ∃ r t, Scalar r ∧ b :: s = encodeRune r ++ t ∧ validUTF8 t = true ∧ t.length ≤ s.length := by
  obtain ⟨hne, hrest⟩ := (validUTF8_cons b s).mp h
  have hlen := drop_rune_length b s
  rcases decodeRune_spec b s with herr | ⟨r, t, hr, hs, hd⟩
  · exact absurd herr hne
  · rw [hd, hs, drop_left] at hrest hlen
    exact ⟨r, t, hr, hs, hrest, hlen⟩

theorem boundary_of_valid {s : GoString} (h : validUTF8 s = true) : Boundary s := by
  cases s with
  | nil => exact nofun
  | cons b s =>
    obtain ⟨r, t, -, hs, -, -⟩ := exists_rune_of_valid h
    obtain ⟨c, cs, henc, hc, -⟩ := encodeRune_cons r
    rw [hs, henc]
    rintro _ ⟨⟩
    exact hc

theorem validUTF8_append {s t : GoString} (ht : Boundary t) :
    validUTF8 (s ++ t) = true ↔ validUTF8 s = true ∧ validUTF8 t = true := by
  rw [validUTF8, runes_append ht, all_append, Bool.and_eq_true]
  rfl

theorem validUTF8_append_of_valid {s t : GoString} (hs : validUTF8 s = true)
    (h : validUTF8 (s ++ t) = true) : validUTF8 t = true := by
  induction s using rest_induction with
  | nil => exact h
  | cons b s ih =>
    obtain ⟨r, u, hr, hru, hu, hlen⟩ := exists_rune_of_valid hs
    refine ih u hlen hu ?_
    rw [hru, append_assoc, validUTF8, runes_encodeRune_append hr, all_cons, Bool.and_eq_true] at h
    exact h.2

theorem ofRunes_toRunes_of_valid {s : GoString} (h : validUTF8 s = true) :
    ofRunes (toRunes s) = s := by
  induction s using rest_induction with
  | nil => rfl
  | cons b s ih =>
    obtain ⟨r, u, hr, hru, hu, hlen⟩ := exists_rune_of_valid h
    rw [hru, toRunes_encodeRune_append hr, ofRunes_cons, ih u hlen hu]

end Centaurx.Go
