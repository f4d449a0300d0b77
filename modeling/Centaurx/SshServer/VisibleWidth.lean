import Centaurx.SshServer.Styles

namespace Centaurx.SshServer
open Go List Segment

theorem esc_not_mem_encodeRune {r : ℕ} (hr : r ≠ 0x1B) : esc ∉ encodeRune r := fun h =>
  hr (mem_encodeRune_ascii h (by decide))

variable {rs : List ℕ}

theorem esc_not_mem_ofRunes (h : 0x1B ∉ rs) : esc ∉ ofRunes rs := by
  intro hmem
  obtain ⟨r, hr, hesc⟩ := mem_flatMap.mp hmem
  exact esc_not_mem_encodeRune (fun heq => h (heq ▸ hr)) hesc

/-- The byte ESC is never part of a longer rune. -/
theorem esc_mem_iff (s : GoString) : esc ∈ s ↔ 0x1B ∈ toRunes s := by
  induction s using rune_induction with
  | nil => simp
  | cons b s ih =>
    rw [toRunes_cons, mem_cons (a := 0x1B), ← ih]
    rcases decodeRune_spec b s with herr | ⟨r, t, -, hs, hd⟩
    · rw [herr, drop_one, tail_cons, mem_cons]
      have hb : esc ≠ b := by
        rintro rfl
        rw [decodeRune_ascii (by decide)] at herr
        exact absurd herr (by decide)
      simp only [hb, false_or]
      exact (or_iff_right (by decide)).symm
    · rw [hd, hs, drop_left, mem_append]
      have hr : esc ∈ encodeRune r ↔ 0x1B = r := by
        constructor
        · intro h
          exact (mem_encodeRune_ascii h (by decide)).symm
        · rintro rfl
          decide
      rw [hr]

theorem runes_ne_esc {s : GoString} (h : esc ∉ s) : ∀ r ∈ toRunes s, Scalar r ∧ r ≠ 0x1B :=
  fun r hr => ⟨toRunes_scalar s r hr, fun heq => h ((esc_mem_iff s).mpr (heq ▸ hr))⟩

theorem segments_of_esc_not_mem {s : GoString} (h : esc ∉ s) :
    segments s = (runes s).map fun x => .rune x.1 x.2 := by
  induction s using segment_induction with
  | nil => rfl
  | escape s _ => simp at h
  | rune b s hb ih =>
    rw [segments_rune hb, runes_cons, map_cons, ih fun hmem => h (mem_of_mem_drop hmem)]

theorem visibleWidth_of_esc_not_mem {s : GoString} (h : esc ∉ s) :
    visibleWidth s = (toRunes s).length := by
  rw [visibleWidth, segments_of_esc_not_mem h, countP_map, toRunes, length_map]
  exact countP_eq_length.mpr fun _ _ => rfl

theorem visibleWidth_ofRunes (hrs : ∀ r ∈ rs, Scalar r ∧ r ≠ 0x1B) :
    visibleWidth (ofRunes rs) = rs.length := by
  rw [visibleWidth_of_esc_not_mem (esc_not_mem_ofRunes fun h => (hrs _ h).2 rfl),
    toRunes_ofRunes fun r hr => (hrs r hr).1]

/-- Every escape sequence of the string is one of the renderer. -/
def Tidy (s : GoString) : Prop := ∀ bytes, .escape bytes ∈ segments s → ∃ c : SGR, bytes = c.code

variable {s t : GoString}

theorem tidy_nil : Tidy [] := by simp [Tidy, segments_nil]

theorem tidy_of_esc_not_mem (h : esc ∉ s) : Tidy s := by
  intro bytes hmem
  simp [segments_of_esc_not_mem h] at hmem

theorem SGR.tidy_append (c : SGR) (ht : Tidy t) : Tidy (c.code ++ t) := by
  intro bytes hmem
  rw [segments_code, mem_cons] at hmem
  rcases hmem with hmem | hmem
  · exact ⟨c, escape.inj hmem⟩
  · exact ht bytes hmem

theorem SGR.visibleWidth_append (c : SGR) (t : GoString) :
    visibleWidth (c.code ++ t) = visibleWidth t := by
  rw [visibleWidth, segments_code, countP_cons_of_neg (by simp [isRune])]
  rfl

/-- The string after a sequence is read as if it stood alone. -/
theorem escape_eq (s : GoString) {c : SGR}
    (hc : (esc :: s).take (s.length + 1 - (skipEscape s).length) = c.code) :
    esc :: s = c.code ++ skipEscape s := by
  obtain ⟨u, hu⟩ := skipEscape_suffix s
  have hlen : s.length + 1 - (skipEscape s).length = (esc :: u).length := by
    have hsum := congrArg length hu
    rw [length_append] at hsum
    rw [length_cons]
    omega
  have hsplit : esc :: s = (esc :: u) ++ skipEscape s := by rw [cons_append, hu]
  rw [hlen, hsplit, take_left] at hc
  rw [hsplit, hc]

theorem Tidy.segments_append (hs : Tidy s) (ht : Boundary t) :
    segments (s ++ t) = segments s ++ segments t := by
  induction s using segment_induction with
  | nil => rfl
  | escape s ih =>
    rw [Tidy, segments_escape] at hs
    obtain ⟨c, hc⟩ := hs _ mem_cons_self
    have htail : Tidy (skipEscape s) := fun bytes hmem => hs bytes (mem_cons_of_mem _ hmem)
    rw [escape_eq s hc, append_assoc, segments_code, segments_code, ih htail]
    rfl
  | rune b s hb ih =>
    rw [Tidy, segments_rune hb] at hs
    have htail : Tidy ((b :: s).drop (decodeRune (b :: s)).2) := fun bytes hmem =>
      hs bytes (mem_cons_of_mem _ hmem)
    have hd := decodeRune_append (s := b :: s) (by simp) ht
    rw [cons_append] at hd
    rw [cons_append, segments_rune hb, segments_rune hb, hd, ← cons_append,
      drop_append_of_le_length (decodeRune_le b s), ih htail]
    rfl

theorem Tidy.append (hs : Tidy s) (ht : Tidy t) (hb : Boundary t) : Tidy (s ++ t) := by
  intro bytes hmem
  rw [hs.segments_append hb, mem_append] at hmem
  exact hmem.elim (hs bytes) (ht bytes)

theorem Tidy.visibleWidth_append (hs : Tidy s) (hb : Boundary t) :
    visibleWidth (s ++ t) = visibleWidth s + visibleWidth t := by
  rw [visibleWidth, hs.segments_append hb, countP_append]
  rfl

/-- A string that can be put behind another one. -/
structure Part (s : GoString) : Prop where
  tidy : Tidy s
  boundary : Boundary s

theorem part_nil : Part [] := ⟨tidy_nil, boundary_nil⟩

theorem Part.append (hs : Part s) (ht : Part t) : Part (s ++ t) := by
  refine ⟨hs.tidy.append ht.tidy ht.boundary, ?_⟩
  cases s with
  | nil => exact ht.boundary
  | cons b s => exact hs.boundary

theorem Part.visibleWidth_append (hs : Part s) (ht : Part t) :
    visibleWidth (s ++ t) = visibleWidth s + visibleWidth t :=
  hs.tidy.visibleWidth_append ht.boundary

theorem part_of_esc_not_mem (h : esc ∉ s) (hb : Boundary s) : Part s :=
  ⟨tidy_of_esc_not_mem h, hb⟩

theorem esc_not_mem_blanks (n : ℕ) : esc ∉ replicate n (0x20 : UInt8) := by
  simp [mem_replicate, esc]

theorem part_blanks (n : ℕ) : Part (replicate n 0x20) := by
  refine part_of_esc_not_mem (esc_not_mem_blanks n) fun b hb => ?_
  rw [eq_of_mem_replicate (mem_of_mem_head? hb)]
  decide

theorem visibleWidth_blanks (n : ℕ) : visibleWidth (replicate n 0x20) = n := by
  have hascii : ∀ b ∈ replicate n (0x20 : UInt8), b < 0x80 := by
    intro b hb
    rw [eq_of_mem_replicate hb]
    decide
  rw [visibleWidth_of_esc_not_mem (esc_not_mem_blanks n), toRunes, runes_ascii hascii,
    length_map, length_map, length_replicate]

theorem part_ofRunes (h : 0x1B ∉ rs) : Part (ofRunes rs) :=
  part_of_esc_not_mem (esc_not_mem_ofRunes h) (boundary_ofRunes rs)

theorem boundary_code (c : SGR) (t : GoString) : Boundary (c.code ++ t) :=
  boundary_ascii (b := esc) (by decide) _

theorem part_code (c : SGR) : Part c.code := by
  have h := c.tidy_append tidy_nil
  have hb := boundary_code c []
  rw [append_nil] at h hb
  exact ⟨h, hb⟩

theorem visibleWidth_code (c : SGR) : visibleWidth c.code = 0 := by
  have h := c.visibleWidth_append []
  rwa [append_nil] at h

theorem part_flatMap {α : Type} {f : α → GoString} {l : List α} (h : ∀ x ∈ l, Part (f x)) :
    Part (l.flatMap f) := by
  induction l with
  | nil => exact part_nil
  | cons x l ih =>
    rw [forall_mem_cons] at h
    exact h.1.append (ih h.2)

theorem part_style (s : Style) : Part s.code := part_flatMap fun c _ => part_code c

theorem Style.code_cons (c : SGR) (s : Style) (t : GoString) :
    Style.code (c :: s) ++ t = c.code ++ (s.code ++ t) := append_assoc _ _ _

theorem Style.tidy_append (s : Style) (ht : Tidy t) : Tidy (s.code ++ t) := by
  induction s with
  | nil => exact ht
  | cons c s ih =>
    rw [Style.code_cons]
    exact c.tidy_append ih

theorem Style.visibleWidth_append (s : Style) (t : GoString) :
    visibleWidth (s.code ++ t) = visibleWidth t := by
  induction s with
  | nil => rfl
  | cons c s ih => rw [Style.code_cons, c.visibleWidth_append, ih]

theorem visibleWidth_styled (style : Style) {line : GoString} (h : Tidy line) :
    visibleWidth (style.code ++ line ++ ansiReset.code) = visibleWidth line := by
  rw [append_assoc, style.visibleWidth_append, h.visibleWidth_append (part_code _).boundary,
    visibleWidth_code, Nat.add_zero]

def Segment.rune? : Segment → Option ℕ
  | .escape _ => none
  | .rune r _ => some r

/-- The runes that are seen. -/
def visibleRunes (text : GoString) : List ℕ := (segments text).filterMap rune?

theorem length_visibleRunes (text : GoString) : (visibleRunes text).length = visibleWidth text := by
  rw [visibleRunes, visibleWidth]
  induction segments text with
  | nil => rfl
  | cons g gs ih =>
    cases g with
    | escape bytes =>
      rw [filterMap_cons_none rfl, countP_cons_of_neg Bool.false_ne_true, ih]
    | rune r size =>
      have hrune : rune? (.rune r size) = some r := rfl
      rw [filterMap_cons_some hrune, countP_cons_of_pos rfl, length_cons, ih]

theorem Tidy.visibleRunes_append (hs : Tidy s) (ht : Boundary t) :
    visibleRunes (s ++ t) = visibleRunes s ++ visibleRunes t := by
  rw [visibleRunes, hs.segments_append ht, filterMap_append]
  rfl

theorem visibleRunes_of_esc_not_mem (h : esc ∉ s) : visibleRunes s = toRunes s := by
  rw [visibleRunes, segments_of_esc_not_mem h, filterMap_map, toRunes,
    ← filterMap_eq_map]
  rfl

theorem visibleRunes_ofRunes (hrs : ∀ r ∈ rs, Scalar r ∧ r ≠ 0x1B) :
    visibleRunes (ofRunes rs) = rs := by
  rw [visibleRunes_of_esc_not_mem (esc_not_mem_ofRunes fun h => (hrs _ h).2 rfl),
    toRunes_ofRunes fun r hr => (hrs r hr).1]

theorem part_rowString {row : List Ink} (h : ∀ r ∈ inkRunes row, Scalar r ∧ r ≠ 0x1B) :
    Part (rowString (writeOut row)) := by
  rw [rowString, writeOut, flatMap_map]
  refine part_flatMap fun p hp => ?_
  cases p with
  | sgr c => exact part_code c
  | text rs =>
    refine part_ofRunes fun hmem => ?_
    exact (h _ (mem_flatMap.mpr ⟨.text rs, hp, hmem⟩)).2 rfl

theorem visibleRunes_rowString {row : List Ink} (h : ∀ r ∈ inkRunes row, Scalar r ∧ r ≠ 0x1B) :
    visibleRunes (rowString (writeOut row)) = inkRunes row := by
  induction row with
  | nil => rfl
  | cons p row ih =>
    have hcons : rowString (writeOut (p :: row)) =
        (p.map ofRunes).bytes ++ rowString (writeOut row) := rfl
    rw [hcons]
    cases p with
    | sgr c =>
      rw [inkRunes_sgr, ← ih h, visibleRunes]
      simp only [Piece.map, Piece.bytes]
      rw [segments_code, filterMap_cons_none rfl]
      rfl
    | text rs =>
      have hsplit : inkRunes (.text rs :: row) = rs ++ inkRunes row := rfl
      rw [hsplit, forall_mem_append] at h
      have hrs : Tidy (ofRunes rs) := tidy_of_esc_not_mem (esc_not_mem_ofRunes fun hmem =>
        (h.1 _ hmem).2 rfl)
      simp only [Piece.map, Piece.bytes]
      rw [hrs.visibleRunes_append (part_rowString h.2).boundary, visibleRunes_ofRunes h.1,
        ih h.2, hsplit]

theorem visibleWidth_rowString {row : List Ink} (h : ∀ r ∈ inkRunes row, Scalar r ∧ r ≠ 0x1B) :
    Part (rowString (writeOut row)) ∧
      visibleWidth (rowString (writeOut row)) = (inkRunes row).length := by
  refine ⟨part_rowString h, ?_⟩
  rw [← length_visibleRunes, visibleRunes_rowString h]

theorem segments_ne_esc (text : GoString) {r size : ℕ} (h : .rune r size ∈ segments text) :
    r ≠ 0x1B := by
  obtain ⟨b, s, hb, rfl⟩ := decoded_of_mem_segments h
  intro heq
  have hlow : b < 0x80 := byte_of_rune_lt (s := s) (by omega)
  rw [decodeRune_ascii hlow] at heq
  exact hb (UInt8.toNat_inj.mp heq)

/-- A sequence ends by itself at an ASCII byte, or goes on in what follows. The two bytes of the
end of a command may be apart. -/
def Skips (skip : GoString → GoString) (s : GoString) : Prop :=
  (∃ u, ∃ b < 0x80, s = u ++ b :: skip s ∧ ∀ t, skip (u ++ b :: t) = t) ∨
    ∀ t, s.getLast? ≠ some esc ∨ t.head? ≠ some 0x5C → skip (s ++ t) = skip t

theorem Skips.cut {skip : GoString → GoString} {s : GoString} (h : Skips skip s)
    (hnil : skip [] = []) (hne : skip s ≠ []) :
    ∃ u, s = u ++ skip s ∧ ∀ t, skip (u ++ t) = t := by
  obtain ⟨u, c, -, hu, hskip⟩ | hskip := h
  · exact ⟨u ++ [c], by simpa using hu, fun t => by simpa using hskip t⟩
  · exact absurd (by simpa [hnil] using hskip [] (.inr (by simp))) hne

theorem skips_csi (s : GoString) : Skips skipCSI s := by
  suffices h : (∃ u, ∃ b < 0x80, s = u ++ b :: skipCSI s ∧ ∀ t, skipCSI (u ++ b :: t) = t) ∨
      ∀ t, skipCSI (s ++ t) = skipCSI t from h.imp_right fun h t _ => h t
  induction s with
  | nil => exact .inr fun t => rfl
  | cons b s ih =>
    rw [skipCSI]
    split_ifs with hb
    · have hascii : b < 0x80 := UInt8.lt_iff_toNat_lt.mpr (by
        have hle := (between_iff.mp hb).2
        exact Nat.lt_succ_of_le (hle.trans (by decide)))
      exact .inl ⟨[], b, hascii, rfl, fun t => if_pos hb⟩
    · rcases ih with ⟨u, c, hc, hu, hskip⟩ | hskip
      · refine .inl ⟨b :: u, c, hc, congrArg (b :: ·) hu, fun t => ?_⟩
        rw [cons_append, skipCSI, if_neg hb, hskip]
      · refine .inr fun t => ?_
        rw [cons_append, skipCSI, if_neg hb, hskip]

theorem skips_osc (s : GoString) : Skips skipOSC s := by
  induction s with
  | nil => exact .inr fun t _ => rfl
  | cons b s ih =>
    rw [Skips, skipOSC]
    split_ifs with hbel hst
    · exact .inl ⟨[], b, by rw [hbel]; decide, rfl, fun t => if_pos hbel⟩
    · obtain ⟨rfl, hs⟩ := hst
      obtain ⟨s, rfl⟩ := head?_eq_some_iff.mp hs
      exact .inl ⟨[esc], 0x5C, by decide, rfl, fun t => rfl⟩
    · -- the next byte is the same in front of another rest
      have hnext : ∀ {r}, r.head? = s.head? → skipOSC (b :: r) = skipOSC r := by
        intro r hr
        rw [← hr] at hst
        rw [skipOSC, if_neg hbel, if_neg hst]
      rcases ih with ⟨u, c, hc, hu, hskip⟩ | hskip
      · refine .inl ⟨b :: u, c, hc, congrArg (b :: ·) hu, fun t => ?_⟩
        rw [cons_append, hnext, hskip]
        rw [hu]
        cases u <;> rfl
      · refine .inr fun t ht => ?_
        rw [cons_append]
        cases s with
        | nil =>
          rw [nil_append, skipOSC, if_neg hbel, if_neg]
          rintro ⟨rfl, hhead⟩
          exact ht.elim (fun h => h rfl) fun h => h hhead
        | cons c s =>
          rw [getLast?_cons_cons] at ht
          exact (hnext (r := c :: s ++ t) rfl).trans (hskip t ht)

/-- A sequence that something follows ends by itself. -/
theorem skipEscape_append {s : GoString} (h : skipEscape s ≠ []) :
    ∃ u, s = u ++ skipEscape s ∧ ∀ t, skipEscape (u ++ t) = t := by
  cases s with
  | nil => exact absurd rfl h
  | cons b s =>
    rw [skipEscape] at h ⊢
    split_ifs at h ⊢ with hcsi hosc
    · obtain ⟨u, hu, hskip⟩ := (skips_csi s).cut rfl h
      exact ⟨b :: u, congrArg _ hu, fun t => by rw [cons_append, skipEscape, if_pos hcsi, hskip]⟩
    · obtain ⟨u, hu, hskip⟩ := (skips_osc s).cut rfl h
      refine ⟨b :: u, congrArg _ hu, fun t => ?_⟩
      rw [cons_append, skipEscape, if_neg hcsi, if_pos hosc, hskip]
    · refine ⟨[b], rfl, fun t => ?_⟩
      rw [singleton_append, skipEscape, if_neg hcsi, if_neg hosc]

/-- The segments before the rune that is too much. -/
def Segment.upTo : ℕ → List Segment → List Segment
  | _, [] => []
  | width, .escape bytes :: gs => .escape bytes :: upTo width gs
  | 0, .rune _ _ :: _ => []
  | width + 1, .rune r size :: gs => .rune r size :: upTo width gs

/-- What is written for a segment, and how it is read again. A rune for an invalid byte is longer
then. -/
def Segment.bytes : Segment → GoString
  | .escape bytes => bytes
  | .rune r _ => encodeRune r

def Segment.rewritten : Segment → Segment
  | .escape bytes => .escape bytes
  | .rune r _ => .rune r (encodeRune r).length

theorem trimSegments_eq (gs : List Segment) {width visible : ℕ} (hle : visible ≤ width) :
    trimSegments width visible gs = (upTo (width - visible) gs).flatMap bytes := by
  induction gs generalizing visible with
  | nil => rfl
  | cons g gs ih =>
    cases g with
    | escape bytes => rw [trimSegments, ih hle, upTo, flatMap_cons]; rfl
    | rune r size =>
      rw [trimSegments]
      split_ifs with hfull
      · rw [Nat.sub_eq_zero_of_le hfull]
        rfl
      · rw [ih (by omega), show width - visible = width - (visible + 1) + 1 by omega, upTo,
          flatMap_cons]
        rfl

/-- The segments are found again in what is written for them. -/
theorem segments_upTo (s : GoString) (width : ℕ) :
    segments ((upTo width (segments s)).flatMap bytes) =
      (upTo width (segments s)).map rewritten := by
  induction s using segment_induction generalizing width with
  | nil => rfl
  | escape s ih =>
    by_cases hend : skipEscape s = []
    · -- an unfinished sequence is the last segment
      have hlast : segments (esc :: s) = [.escape (esc :: s)] := by
        have happ := segments_escape_append (u := s) (t := []) (by rw [append_nil, hend])
        rwa [append_nil] at happ
      rw [hlast, upTo, upTo, flatMap_singleton]
      exact hlast
    · obtain ⟨u, hu, hskip⟩ := skipEscape_append hend
      rw [hu, ← cons_append, segments_escape_append (hskip _), upTo, flatMap_cons,
        bytes, segments_escape_append (hskip _), ih]
      rfl
  | rune b s hb ih =>
    cases width with
    | zero => rw [segments_rune hb]; rfl
    | succ width =>
      have hmem : .rune (decodeRune (b :: s)).1 (decodeRune (b :: s)).2 ∈ segments (b :: s) := by
        rw [segments_rune hb]
        exact mem_cons_self
      rw [segments_rune hb, upTo, flatMap_cons, bytes,
        segments_encodeRune (segments_scalar _ hmem) (segments_ne_esc _ hmem), ih]
      rfl

/-- Cutting after `width` runes keeps the sequences between them, and those behind the last. -/
theorem upTo_spec (width : ℕ) (gs : List Segment) :
    ∃ after, gs = upTo width gs ++ after ∧
      (after ≠ [] → (upTo width gs).countP isRune = width ∧
        ∃ g, after.head? = some g ∧ g.isRune) := by
  fun_induction upTo width gs with
  | case1 => exact ⟨[], rfl, fun h => absurd rfl h⟩
  | case2 width bytes gs ih =>
    obtain ⟨after, hgs, hcut⟩ := ih
    exact ⟨after, congrArg (escape bytes :: ·) hgs, fun h => hcut h⟩
  | case3 r size gs => exact ⟨_, rfl, fun _ => ⟨rfl, _, rfl, rfl⟩⟩
  | case4 width r size gs ih =>
    obtain ⟨after, hgs, hcut⟩ := ih
    refine ⟨after, congrArg (rune r size :: ·) hgs, fun h => ?_⟩
    rw [countP_cons_of_pos rfl, (hcut h).1]
    exact ⟨rfl, (hcut h).2⟩

theorem filterMap_rune?_upTo (width : ℕ) (gs : List Segment) :
    (upTo width gs).filterMap rune? =
      (gs.filterMap rune?).take width := by
  fun_induction upTo width gs with
  | case1 => rw [filterMap_nil, take_nil]
  | case2 width bytes gs ih => exact ih
  | case3 r size gs => rfl
  | case4 width r size gs ih => exact congrArg (r :: ·) ih

theorem segments_trimANSIToWidth {width : ℕ} (hw : 0 < width) (t : GoString) :
    segments (trimANSIToWidth t width) =
      (upTo width (segments t)).map rewritten := by
  rw [trimANSIToWidth, if_neg hw.ne', trimSegments_eq _ (Nat.zero_le width), Nat.sub_zero,
    segments_upTo]

theorem visibleRunes_trimANSIToWidth (t : GoString) (width : ℕ) :
    visibleRunes (trimANSIToWidth t width) = (visibleRunes t).take width := by
  rcases Nat.eq_zero_or_pos width with rfl | hw
  · rfl
  · have hrune : rune? ∘ rewritten = rune? := by
      funext g
      cases g <;> rfl
    rw [visibleRunes, segments_trimANSIToWidth hw, filterMap_map, hrune, filterMap_rune?_upTo]
    rfl

theorem visibleWidth_trimANSIToWidth (t : GoString) (width : ℕ) :
    visibleWidth (trimANSIToWidth t width) = min width (visibleWidth t) := by
  rw [← length_visibleRunes, visibleRunes_trimANSIToWidth, length_take, length_visibleRunes]

/-- Trimming cuts exactly at the width, for any text: it shows the first runes, and of what stands
before the first rune that is too much every sequence is there. -/
theorem trimANSIToWidth_cut (t : GoString) (width : ℕ) (hw : 0 < width) :
    visibleWidth (trimANSIToWidth t width) = min width (visibleWidth t) ∧
      visibleRunes (trimANSIToWidth t width) = (visibleRunes t).take width ∧
      ∃ before after, segments t = before ++ after ∧
        (after ≠ [] → before.countP isRune = width ∧
          ∃ g, after.head? = some g ∧ g.isRune) ∧
        segments (trimANSIToWidth t width) = before.map rewritten := by
  obtain ⟨after, hsplit, hcut⟩ := upTo_spec width (segments t)
  exact ⟨visibleWidth_trimANSIToWidth t width, visibleRunes_trimANSIToWidth t width,
    _, after, hsplit, hcut, segments_trimANSIToWidth hw t⟩

/-- The sequence at the end is unfinished; it goes with the rune before it. -/
theorem trimANSIToWidth_cut_unfinished :
    trimANSIToWidth (lit "a" ++ esc :: lit "[31mbc" ++ esc :: lit "[3") 1 =
        lit "a" ++ esc :: lit "[31m" ∧
      visibleWidth (trimANSIToWidth (lit "a" ++ esc :: lit "[31mbc" ++ esc :: lit "[3") 1) = 1 :=
  ⟨by decide, (trimANSIToWidth_cut _ 1 Nat.one_pos).1.trans (by decide)⟩

theorem Tidy.trim (hs : Tidy s) (width : ℕ) :
    Tidy (trimANSIToWidth s width) ∧
      visibleWidth (trimANSIToWidth s width) = min width (visibleWidth s) := by
  refine ⟨?_, visibleWidth_trimANSIToWidth s width⟩
  rcases Nat.eq_zero_or_pos width with rfl | hw
  · exact tidy_nil
  · intro bytes hmem
    rw [segments_trimANSIToWidth hw, mem_map] at hmem
    obtain ⟨g, hg, heq⟩ := hmem
    obtain ⟨after, hsplit, -⟩ := upTo_spec width (segments s)
    refine hs bytes ?_
    rw [hsplit, mem_append]
    cases g with
    | escape b => exact Or.inl (heq ▸ hg)
    | rune r size => cases heq

end Centaurx.SshServer
