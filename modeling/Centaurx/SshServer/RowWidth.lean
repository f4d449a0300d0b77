import Centaurx.Lib.Newest
import Centaurx.SshServer.VisibleWidth
import Mathlib.Data.List.Chain

namespace Centaurx.SshServer
open Go List Newest

/-- No ESC stands directly before a rune of four bytes, of which only the first would be taken as
escaped. -/
def Unsplit (rs : List ℕ) : Prop := rs.IsChain fun a b => a = 0x1B → b < 0x10000

instance (rs : List ℕ) : Decidable (Unsplit rs) := inferInstanceAs (Decidable (List.IsChain _ _))

theorem unsplit_of_esc_not_mem {rs : List ℕ} (h : 0x1B ∉ rs) : Unsplit rs :=
  (isChain_isInfix rs).imp fun a b hab ha => absurd (hab.subset (by simp [ha])) h

theorem visibleWidth_escape (s : GoString) :
    visibleWidth (esc :: s) = visibleWidth (skipEscape s) := by
  rw [visibleWidth, segments_escape, countP_cons_of_neg (by simp [Segment.isRune])]
  rfl

theorem visibleWidth_rune {b : UInt8} (hb : b ≠ esc) (s : GoString) :
    visibleWidth (b :: s) = visibleWidth ((b :: s).drop (decodeRune (b :: s)).2) + 1 := by
  rw [visibleWidth, segments_rune hb, countP_cons_of_pos rfl]
  rfl

theorem getLast?_eq_of_suffix {α : Type} {a : α} {l m : List α} (h : l <:+ m)
    (hl : l.getLast? = some a) : m.getLast? = some a := by
  rwa [← getLast?_of_suffix h fun hnil => by simp [hnil] at hl]

theorem Skips.append {skip : GoString → GoString} {s t : GoString} (h : Skips skip s)
    (ht : s.getLast? ≠ some esc ∨ t.head? ≠ some 0x5C) :
    (skip (s ++ t) = skip s ++ t ∧ ∃ u, ∃ b < 0x80, s = u ++ b :: skip s) ∨
      skip (s ++ t) = skip t := by
  refine h.imp (fun ⟨u, b, hb, hs, hskip⟩ => ⟨?_, u, b, hb, hs⟩) fun h => h t ht
  have hsplit : s ++ t = u ++ b :: (skip s ++ t) := by
    simpa using congrArg (· ++ t) hs
  rw [hsplit, hskip]

/-- The rest of a row behind any string, whose last sequence may be unfinished. -/
theorem visibleWidth_append_le {s u : GoString} {n : ℕ} (hu : Boundary u)
    (hle : visibleWidth u ≤ n) (hcsi : visibleWidth (skipCSI u) ≤ n)
    (hosc : visibleWidth (skipOSC u) ≤ n)
    (hend : s.getLast? = some esc → visibleWidth (skipEscape u) ≤ n ∧ u.head? ≠ some 0x5C) :
    visibleWidth (s ++ u) ≤ visibleWidth s + n := by
  induction s using segment_induction with
  | nil => exact hle.trans (Nat.le_add_left _ _)
  | escape s ih =>
    rw [cons_append, visibleWidth_escape, visibleWidth_escape]
    cases s with
    | nil => exact (hend rfl).1.trans (Nat.le_add_left _ _)
    | cons b s =>
      have hlast : ∀ {v}, v <:+ b :: s → v.getLast? = some esc → _ := fun hv h =>
        hend (getLast?_eq_of_suffix (hv.trans (suffix_cons _ _)) h)
      have hrest := ih (hlast (skipEscape_suffix _))
      rw [skipEscape] at hrest
      have hskip : ∀ {skip}, Skips skip s → visibleWidth (skip u) ≤ n →
          visibleWidth (skip s ++ u) ≤ visibleWidth (skip s) + n →
          visibleWidth (skip (s ++ u)) ≤ visibleWidth (skip s) + n := fun h hle hrest => by
        have hapart : s.getLast? ≠ some esc ∨ u.head? ≠ some 0x5C :=
          (em _).imp_right fun h => (hlast (suffix_cons b s) (not_not.mp h)).2
        obtain ⟨heq, -⟩ | heq := h.append hapart
        · rwa [heq]
        · rw [heq]
          omega
      rw [cons_append, skipEscape, skipEscape]
      split_ifs at hrest ⊢ with hb hb'
      · exact hskip (skips_csi s) hcsi hrest
      · exact hskip (skips_osc s) hosc hrest
      · exact hrest
  | rune b s hb ih =>
    have hd := decodeRune_append (s := b :: s) (by simp) hu
    have hrest := ih fun h => hend (getLast?_eq_of_suffix (drop_suffix _ _) h)
    rw [cons_append] at hd
    rw [cons_append, visibleWidth_rune hb, visibleWidth_rune hb, hd, ← cons_append,
      drop_append_of_le_length (decodeRune_le b s)]
    omega

theorem toRunes_after {u : GoString} {b : UInt8} (hb : b < 0x80) (s : GoString) :
    toRunes s <:+ toRunes (u ++ b :: s) := by
  rw [toRunes_append (boundary_ascii hb s), toRunes_cons, decodeRune_ascii hb]
  exact (suffix_cons _ _).trans (suffix_append _ _)

theorem toRunes_conts {cs : GoString} (hcs : ∀ c ∈ cs, cont c = true) (s : GoString) :
    toRunes (cs ++ s) = replicate cs.length runeError ++ toRunes s := by
  induction cs with
  | nil => rfl
  | cons c cs ih =>
    rw [forall_mem_cons] at hcs
    have herr : decodeRune (c :: (cs ++ s)) = (runeError, 1) := by
      rcases decodeRune_spec c (cs ++ s) with herr | ⟨r, t, -, hsplit, -⟩
      · exact herr
      · obtain ⟨b, bs, henc, hb, -⟩ := encodeRune_cons r
        rw [henc, cons_append] at hsplit
        rw [(cons.inj hsplit).1, hb] at hcs
        cases hcs.1
    rw [cons_append, toRunes_cons, herr, drop_one, tail_cons, ih hcs.2]
    rfl

/-- Without its first byte, a rune of up to three bytes is read as two runes at most. -/
theorem toRunes_tail {b : UInt8} {s : GoString} (h : (decodeRune (b :: s)).1 < 0x10000) :
    ∃ n ≤ 2, ∃ rs, toRunes s = replicate n runeError ++ rs ∧
      toRunes (b :: s) = (decodeRune (b :: s)).1 :: rs := by
  rcases decodeRune_spec b s with herr | ⟨r, t, -, hsplit, hd⟩
  · exact ⟨0, Nat.zero_le _, toRunes s, rfl, by rw [toRunes_cons, herr]; rfl⟩
  · rw [hd] at h
    obtain ⟨c, cs, henc, -, hcs⟩ := encodeRune_cons r
    have hlen : cs.length ≤ 2 := by
      have hlong : (encodeRune r).length ≤ 3 := by
        unfold encodeRune
        split_ifs <;> simp_all
      rw [henc, length_cons] at hlong
      omega
    refine ⟨cs.length, hlen, toRunes t, ?_, ?_⟩
    · rw [henc, cons_append] at hsplit
      rw [(cons.inj hsplit).2, toRunes_conts hcs]
    · rw [toRunes_cons, hd, hsplit, drop_left]

theorem Unsplit.replicate {rs : List ℕ} (h : Unsplit rs) (n : ℕ) :
    Unsplit (replicate n runeError ++ rs) := by
  induction n with
  | zero => exact h
  | succ n ih =>
    rw [replicate_succ, cons_append]
    exact isChain_cons.mpr ⟨fun _ _ hesc => absurd hesc (by decide), ih⟩

theorem toRunes_ascii_cons {b : UInt8} (hb : b < 0x80) (s : GoString) :
    toRunes (b :: s) = b.toNat :: toRunes s := by
  rw [toRunes_cons, decodeRune_ascii hb]
  rfl

/-- The runes that are left when an ESC hides the first byte and the rest of its rune is read. -/
theorem Unsplit.escaped {b : UInt8} {s : GoString} (h : Unsplit (0x1B :: toRunes (b :: s))) :
    Unsplit (toRunes s) ∧ (toRunes s).length ≤ (toRunes (b :: s)).length + 1 ∧
      ((toRunes s).getLast? = some 0x1B → (toRunes (b :: s)).getLast? = some 0x1B) := by
  have hrune : (decodeRune (b :: s)).1 < 0x10000 := h.rel_head? (by rw [toRunes_cons]; rfl) rfl
  obtain ⟨n, hn, rs, hs, hcons⟩ := toRunes_tail hrune
  rw [hcons] at h ⊢
  rw [hs]
  have hrs : Unsplit rs := h.suffix ((suffix_cons _ _).trans (suffix_cons _ _))
  refine ⟨hrs.replicate n, ?_, fun hlast => ?_⟩
  · rw [length_append, length_replicate, length_cons]
    omega
  · rcases eq_or_ne rs [] with rfl | hne
    · rw [append_nil] at hlast
      exact absurd (eq_of_mem_replicate (mem_of_getLast? hlast)) (by decide)
    · rw [← getLast?_of_suffix (suffix_append _ _) hne] at hlast
      exact getLast?_eq_of_suffix (suffix_cons _ _) hlast

variable {x t : GoString}

/-- A row is not wider than its runes, with what is written behind it. -/
theorem visibleWidth_le_length (hx : Unsplit (toRunes x)) (ht : Boundary t)
    (hle : visibleWidth t = 0) (hcsi : visibleWidth (skipCSI t) ≤ 2)
    (hosc : visibleWidth (skipOSC t) ≤ 2) (hhead : t.head? ≠ some 0x5C)
    (hend : (toRunes x).getLast? = some 0x1B → visibleWidth (skipEscape t) ≤ 1) :
    visibleWidth (x ++ t) ≤ (toRunes x).length := by
  induction x using rest_induction with
  | nil => exact hle.le
  | cons b s ih =>
    -- what is left of the runes is read the same way
    have hrest : ∀ {y}, y.length ≤ s.length → toRunes y <:+ toRunes (b :: s) →
        visibleWidth (y ++ t) ≤ (toRunes y).length := by
      intro y hlen hy
      exact ih y hlen (hx.suffix hy) fun hlast => hend (getLast?_eq_of_suffix hy hlast)
    by_cases hb : b = esc
    · subst hb
      rw [cons_append, visibleWidth_escape, toRunes_ascii_cons (by decide), length_cons]
      cases s with
      | nil => exact hend rfl
      | cons c s =>
        -- a sequence that ends in the row ends at a rune
        have hskip : ∀ {skip}, Skips skip s → c < 0x80 → visibleWidth (skip t) ≤ 2 →
            visibleWidth (skip (s ++ t)) ≤ (toRunes (c :: s)).length + 1 := by
          intro skip h hc htwo
          have hcons := toRunes_ascii_cons hc s
          rw [hcons, length_cons]
          obtain ⟨heq, v, d, hd, hs⟩ | heq := h.append (.inr hhead)
          · have hsuffix := toRunes_after (u := v) hd (skip s)
            rw [← hs] at hsuffix
            have hlen : (skip s).length ≤ (c :: s).length := by
              have hsum := congrArg length hs
              simp only [length_append, length_cons] at hsum ⊢
              omega
            have hin : toRunes s <:+ toRunes (esc :: c :: s) := by
              rw [toRunes_ascii_cons (by decide), hcons]
              exact (suffix_cons _ _).trans (suffix_cons _ _)
            have hle' := hrest hlen (hsuffix.trans hin)
            have hshort := hsuffix.length_le
            rw [heq]
            omega
          · rw [heq]
            omega
        rw [cons_append, skipEscape]
        split_ifs with hc hc'
        · exact hskip (skips_csi s) (hc ▸ by decide) hcsi
        · exact hskip (skips_osc s) (hc' ▸ by decide) hosc
        · rw [toRunes_ascii_cons (by decide)] at hx hend
          obtain ⟨hsplit, hlen, hlast⟩ := Unsplit.escaped hx
          have hle' := ih s (Nat.le_succ _) hsplit fun h =>
            hend (getLast?_eq_of_suffix (suffix_cons _ _) (hlast h))
          exact hle'.trans hlen
    · have hd := decodeRune_append (s := b :: s) (by simp) ht
      rw [cons_append] at hd
      have hle' := hrest (drop_rune_length b s) (toRunes_cons b s ▸ suffix_cons _ _)
      rw [cons_append, visibleWidth_rune hb, hd, ← cons_append,
        drop_append_of_le_length (decodeRune_le b s), toRunes_cons, length_cons]
      omega

theorem visibleWidth_ofRunes_le {row : List ℕ} (hrow : ∀ r ∈ row, Scalar r) (hsplit : Unsplit row)
    {lead : GoString} (hlead : lead.getLast? ≠ some esc) :
    visibleWidth (lead ++ ofRunes row) ≤ visibleWidth lead + row.length := by
  have hrunes := toRunes_ofRunes hrow
  have hle : ∀ {y}, toRunes y <:+ row → visibleWidth y ≤ row.length := by
    intro y hy
    have h := visibleWidth_le_length (x := y) (t := []) (hsplit.suffix hy) boundary_nil rfl
      (Nat.zero_le _) (Nat.zero_le _) (by simp) fun _ => Nat.zero_le _
    rw [append_nil] at h
    exact h.trans hy.length_le
  have hskip : ∀ {skip}, Skips skip (ofRunes row) → skip [] = [] →
      visibleWidth (skip (ofRunes row)) ≤ row.length := by
    intro skip h hnil
    obtain ⟨-, u, b, hb, hu⟩ | heq := h.append (t := []) (.inr (by simp))
    · have hafter := toRunes_after (u := u) hb (skip (ofRunes row))
      rw [← hu, hrunes] at hafter
      exact hle hafter
    · rw [← append_nil (ofRunes row), heq, hnil]
      exact Nat.zero_le _
  exact visibleWidth_append_le (boundary_ofRunes row) (hle (by rw [hrunes]))
    (hskip (skips_csi _) rfl) (hskip (skips_osc _) rfl) fun h => absurd h hlead

theorem visibleWidth_append_esc (s : GoString) : visibleWidth (s ++ [esc]) ≤ visibleWidth s :=
  visibleWidth_append_le (n := 0) (boundary_ascii (by decide) []) le_rfl le_rfl le_rfl
    fun _ => ⟨le_rfl, by decide⟩

end Centaurx.SshServer
