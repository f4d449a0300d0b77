import Centaurx.Lib.Words

namespace Centaurx.SshServer
open Go List

def esc : UInt8 := 0x1B

/-- What follows a control sequence; it ends with a byte from `@` to `~`. -/
def skipCSI : GoString → GoString
  | [] => []
  | b :: s => if between 0x40 0x7E b then s else skipCSI s

/-- What follows an operating system command; it ends with BEL or with `ESC \`. -/
def skipOSC : GoString → GoString
  | [] => []
  | b :: s =>
    if b = 0x07 then s
    else if b = esc ∧ s.head? = some 0x5C then s.drop 1
    else skipOSC s

/-- What follows an escape sequence, from the byte after the escape on. -/
def skipEscape : GoString → GoString
  | [] => []
  | b :: s => if b = 0x5B then skipCSI s else if b = 0x5D then skipOSC s else s

inductive Segment
  | escape (bytes : GoString)
  | rune (r size : ℕ)
  deriving DecidableEq

def segmentsN : ℕ → GoString → List Segment
  | 0, _ => []
  | _ + 1, [] => []
  | n + 1, ch :: s =>
    if ch = esc then
      .escape ((ch :: s).take (s.length + 1 - (skipEscape s).length)) :: segmentsN n (skipEscape s)
    else
      .rune (decodeRune (ch :: s)).1 (decodeRune (ch :: s)).2 ::
        segmentsN n ((ch :: s).drop (decodeRune (ch :: s)).2)

/-- The escape sequences and runes of a string. -/
def segments (text : GoString) : List Segment := segmentsN text.length text

/-- What `sanitizeOutputLine` writes for a segment. -/
def Segment.sanitize : Segment → GoString
  | .escape _ => []
  | .rune r size =>
    if r = runeError ∧ size = 1 then []
    else if r = 0x0D then []
    else if r = 0x09 then lit "    "
    else if r < 0x20 ∨ r = 0x7F then []
    else encodeRune r

def sanitizeOutputLine (text : GoString) : GoString := (segments text).flatMap Segment.sanitize

def Segment.isRune : Segment → Bool
  | .escape _ => false
  | .rune _ _ => true

def visibleWidth (text : GoString) : ℕ := (segments text).countP Segment.isRune

/-- The loop of `trimANSIToWidth`; the escape sequences before the cut are kept. -/
def trimSegments (width : ℕ) : ℕ → List Segment → GoString
  | _, [] => []
  | visible, .escape bytes :: rest => bytes ++ trimSegments width visible rest
  | visible, .rune r _ :: rest =>
    if visible ≥ width then [] else encodeRune r ++ trimSegments width (visible + 1) rest

def trimANSIToWidth (text : GoString) (width : ℕ) : GoString :=
  if width = 0 then [] else trimSegments width 0 (segments text)

def trimToWidth (value : GoString) (width : ℕ) : GoString :=
  if width = 0 then []
  else if (toRunes value).length ≤ width then value
  else ofRunes ((toRunes value).take width)

theorem skipCSI_suffix (s : GoString) : skipCSI s <:+ s := by
  induction s with
  | nil => exact suffix_rfl
  | cons b s ih =>
    rw [skipCSI]
    split
    · exact suffix_cons b s
    · exact ih.trans (suffix_cons b s)

theorem skipOSC_suffix (s : GoString) : skipOSC s <:+ s := by
  induction s with
  | nil => exact suffix_rfl
  | cons b s ih =>
    rw [skipOSC]
    split_ifs
    · exact suffix_cons b s
    · exact (drop_suffix 1 s).trans (suffix_cons b s)
    · exact ih.trans (suffix_cons b s)

theorem skipEscape_suffix (s : GoString) : skipEscape s <:+ s := by
  cases s with
  | nil => exact suffix_rfl
  | cons b s =>
    rw [skipEscape]
    split_ifs
    · exact (skipCSI_suffix s).trans (suffix_cons b s)
    · exact (skipOSC_suffix s).trans (suffix_cons b s)
    · exact suffix_cons b s

theorem skipEscape_length (s : GoString) : (skipEscape s).length ≤ s.length :=
  (skipEscape_suffix s).length_le

theorem segmentsN_of_le (s : GoString) {m n : ℕ} (hm : s.length ≤ m) (hn : s.length ≤ n) :
    segmentsN m s = segmentsN n s := by
  refine rounds_of_le (fun n => ?_) (fun b s m n h => ?_) s hm hn
  · cases n <;> rfl
  · rw [segmentsN, segmentsN, h _ (skipEscape_length s), h _ (drop_rune_length b s)]

theorem segments_nil : segments [] = [] := rfl

theorem segments_escape (s : GoString) :
    segments (esc :: s) =
      .escape ((esc :: s).take (s.length + 1 - (skipEscape s).length)) ::
        segments (skipEscape s) := by
  rw [segments, length_cons, segmentsN, if_pos rfl, segments,
    segmentsN_of_le _ (skipEscape_length s) le_rfl]

theorem segments_escape_append {u t : GoString} (h : skipEscape (u ++ t) = t) :
    segments (esc :: u ++ t) = .escape (esc :: u) :: segments t := by
  have hlen : (u ++ t).length + 1 - t.length = (esc :: u).length := by
    rw [length_append, length_cons]
    omega
  rw [cons_append, segments_escape, h, hlen, ← cons_append, take_left]

theorem segments_rune {b : UInt8} (hb : b ≠ esc) (s : GoString) :
    segments (b :: s) =
      .rune (decodeRune (b :: s)).1 (decodeRune (b :: s)).2 ::
        segments ((b :: s).drop (decodeRune (b :: s)).2) := by
  rw [segments, length_cons, segmentsN, if_neg hb, segments,
    segmentsN_of_le _ (drop_rune_length b s) le_rfl]

theorem segment_induction {P : GoString → Prop} (nil : P [])
    (escape : ∀ s, P (skipEscape s) → P (esc :: s))
    (rune : ∀ b s, b ≠ esc → P ((b :: s).drop (decodeRune (b :: s)).2) → P (b :: s))
    (s : GoString) : P s := by
  refine rest_induction nil (fun b s ih => ?_) s
  by_cases hb : b = esc
  · subst hb
    exact escape s (ih _ (skipEscape_length s))
  · exact rune b s hb (ih _ (drop_rune_length b s))

theorem segments_encodeRune {r : ℕ} (hr : Scalar r) (hne : r ≠ 0x1B) (t : GoString) :
    segments (encodeRune r ++ t) = .rune r (encodeRune r).length :: segments t := by
  obtain ⟨b, bs, henc, -⟩ := encodeRune_cons r
  have hb : b ≠ esc := by
    rintro rfl
    exact hne (mem_encodeRune_ascii (b := esc) (by rw [henc]; simp) (by decide))
  have hd := decodeRune_encodeRune hr t
  rw [henc, cons_append] at hd ⊢
  rw [segments_rune hb, hd, ← cons_append, drop_left]

theorem segments_ofRunes {rs : List ℕ} (hrs : ∀ r ∈ rs, Scalar r ∧ r ≠ 0x1B) (t : GoString) :
    segments (ofRunes rs ++ t) =
      rs.map (fun r => .rune r (encodeRune r).length) ++ segments t := by
  induction rs with
  | nil => rfl
  | cons r rs ih =>
    obtain ⟨hr, hne⟩ := hrs r (by simp)
    rw [ofRunes_cons, append_assoc, segments_encodeRune hr hne,
      ih fun x hx => hrs x (by simp [hx])]
    rfl

/-- The runes that `sanitizeOutputLine` keeps. -/
def Segment.kept : Segment → List ℕ
  | .escape _ => []
  | .rune r size =>
    if r = runeError ∧ size = 1 then []
    else if r = 0x0D then []
    else if r = 0x09 then [0x20, 0x20, 0x20, 0x20]
    else if r < 0x20 ∨ r = 0x7F then []
    else [r]

theorem Segment.sanitize_eq (g : Segment) : g.sanitize = ofRunes g.kept := by
  cases g with
  | escape bytes => rfl
  | rune r size =>
    rw [Segment.sanitize, Segment.kept]
    split_ifs
    · rfl
    · rfl
    · decide
    · rfl
    · simp [ofRunes]

theorem sanitizeOutputLine_eq (text : GoString) :
    sanitizeOutputLine text = ofRunes ((segments text).flatMap Segment.kept) := by
  rw [sanitizeOutputLine, ofRunes, flatMap_assoc]
  congr 1
  funext g
  exact g.sanitize_eq

theorem decoded_of_mem_segments {text : GoString} {r size : ℕ}
    (h : .rune r size ∈ segments text) : ∃ b s, b ≠ esc ∧ r = (decodeRune (b :: s)).1 := by
  induction text using segment_induction with
  | nil => simp [segments_nil] at h
  | escape s ih =>
    rw [segments_escape, mem_cons] at h
    exact ih (h.resolve_left (by simp))
  | rune b s hb ih =>
    rw [segments_rune hb, mem_cons] at h
    rcases h with h | h
    · exact ⟨b, s, hb, (Segment.rune.inj h).1⟩
    · exact ih h

theorem segments_scalar (text : GoString) {r size : ℕ} (h : .rune r size ∈ segments text) :
    Scalar r := by
  obtain ⟨b, s, -, rfl⟩ := decoded_of_mem_segments h
  exact decodeRune_scalar b s

/-- The runes of a sanitised text. -/
def sanitizedRunes (text : GoString) : List ℕ := (segments text).flatMap Segment.kept

theorem mem_sanitizedRunes {text : GoString} {r : ℕ} (h : r ∈ sanitizedRunes text) :
    Scalar r ∧ 0x20 ≤ r ∧ r ≠ 0x7F := by
  obtain ⟨g, hg, hr⟩ := mem_flatMap.mp h
  cases g with
  | escape bytes => simp [Segment.kept] at hr
  | rune r' size =>
    rw [Segment.kept] at hr
    split_ifs at hr with h1 h2 h3 h4
    · simp at hr
    · simp at hr
    · have : r = 0x20 := by simpa using hr
      subst this
      decide
    · simp at hr
    · obtain rfl := mem_singleton.mp hr
      exact ⟨segments_scalar text hg, by omega, by omega⟩

theorem mem_sanitizedRunes_iff {text : GoString} {r : ℕ} (hr : 0x80 ≤ r) (hne : r ≠ runeError) :
    r ∈ sanitizedRunes text ↔ ∃ size, .rune r size ∈ segments text := by
  constructor
  · intro h
    obtain ⟨g, hg, hr'⟩ := mem_flatMap.mp h
    cases g with
    | escape bytes => simp [Segment.kept] at hr'
    | rune r' size =>
      rw [Segment.kept] at hr'
      split_ifs at hr' with h1 h2 h3 h4
      · simp at hr'
      · simp at hr'
      · have : r = 0x20 := by simpa using hr'
        omega
      · simp at hr'
      · obtain rfl := mem_singleton.mp hr'
        exact ⟨size, hg⟩
  · rintro ⟨size, h⟩
    refine mem_flatMap.mpr ⟨_, h, ?_⟩
    rw [Segment.kept, if_neg (fun h => hne h.1), if_neg (by omega), if_neg (by omega),
      if_neg (by omega)]
    simp

theorem toRunes_sanitizeOutputLine (text : GoString) :
    toRunes (sanitizeOutputLine text) = sanitizedRunes text := by
  rw [sanitizeOutputLine_eq]
  exact toRunes_ofRunes fun r hr => (mem_sanitizedRunes hr).1

end Centaurx.SshServer
