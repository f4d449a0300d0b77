import Centaurx.SshServer.Escapes

namespace Centaurx.SshServer
open Go List

/-- A select-graphic-rendition sequence: its parameters are digits, signs and separators. -/
structure SGR where
  params : GoString
  ok : ∀ b ∈ params, between 0x20 0x3F b = true

def SGR.code (s : SGR) : GoString := esc :: 0x5B :: s.params ++ [0x6D]

/-- The digits of a number. -/
def itoaN : ℕ → ℕ → GoString
  | 0, _ => []
  | fuel + 1, n =>
    if n < 10 then [UInt8.ofNat (0x30 + n)]
    else itoaN fuel (n / 10) ++ [UInt8.ofNat (0x30 + n % 10)]

/-- `strconv.Itoa`. -/
def itoa : ℤ → GoString
  | .ofNat n => itoaN (n + 1) n
  | .negSucc n => 0x2D :: itoaN (n + 2) (n + 1)

structure RGB where
  r : ℤ
  g : ℤ
  b : ℤ

def fgParams (c : RGB) : GoString :=
  lit "38;2;" ++ itoa c.r ++ [0x3B] ++ itoa c.g ++ [0x3B] ++ itoa c.b

theorem digit_between {n : ℕ} (hn : n < 10) :
    between 0x20 0x3F (UInt8.ofNat (0x30 + n)) = true := by
  rw [between_iff, toNat_ofNat (by omega)]
  simp only [UInt8.reduceToNat]
  omega

theorem itoa_ok (n : ℤ) : ∀ b ∈ itoa n, between 0x20 0x3F b = true := by
  have h : ∀ fuel n, ∀ b ∈ itoaN fuel n, between 0x20 0x3F b = true := by
    intro fuel
    induction fuel with
    | zero => simp [itoaN]
    | succ fuel ih =>
      intro n b hb
      rw [itoaN] at hb
      split_ifs at hb with hn
      · rw [mem_singleton.mp hb]
        exact digit_between hn
      · rcases mem_append.mp hb with hb | hb
        · exact ih _ b hb
        · rw [mem_singleton.mp hb]
          exact digit_between (Nat.mod_lt _ (by omega))
  cases n with
  | ofNat n => exact h _ n
  | negSucc n => exact forall_mem_cons.mpr ⟨by decide, h _ (n + 1)⟩

def bgParams (c : RGB) : GoString :=
  lit "48;2;" ++ itoa c.r ++ [0x3B] ++ itoa c.g ++ [0x3B] ++ itoa c.b

theorem rgbParams_ok {lead : GoString} (hlead : ∀ b ∈ lead, between 0x20 0x3F b = true) (c : RGB) :
    ∀ b ∈ lead ++ itoa c.r ++ [0x3B] ++ itoa c.g ++ [0x3B] ++ itoa c.b,
      between 0x20 0x3F b = true := by
  have hsep : ∀ b ∈ [(0x3B : UInt8)], between 0x20 0x3F b = true := by decide
  simp only [forall_mem_append]
  exact ⟨⟨⟨⟨⟨hlead, itoa_ok _⟩, hsep⟩, itoa_ok _⟩, hsep⟩, itoa_ok _⟩

theorem fgParams_ok (c : RGB) : ∀ b ∈ fgParams c, between 0x20 0x3F b = true :=
  rgbParams_ok (by decide) c

theorem bgParams_ok (c : RGB) : ∀ b ∈ bgParams c, between 0x20 0x3F b = true :=
  rgbParams_ok (by decide) c

theorem digit_ok : ∀ d ∈ [lit "0", lit "1", lit "2", lit "3"], ∀ b ∈ d,
    between 0x20 0x3F b = true := by decide

theorem reset_ok : ∀ b ∈ lit "0", between 0x20 0x3F b = true := digit_ok _ (by simp)
theorem bold_ok : ∀ b ∈ lit "1", between 0x20 0x3F b = true := digit_ok _ (by simp)
theorem dim_ok : ∀ b ∈ lit "2", between 0x20 0x3F b = true := digit_ok _ (by simp)
theorem italic_ok : ∀ b ∈ lit "3", between 0x20 0x3F b = true := digit_ok _ (by simp)

def ansiReset : SGR := ⟨lit "0", reset_ok⟩
def ansiBold : SGR := ⟨lit "1", bold_ok⟩
def ansiDim : SGR := ⟨lit "2", dim_ok⟩
def ansiItalic : SGR := ⟨lit "3", italic_ok⟩
def ansiFgRGB (c : RGB) : SGR := ⟨fgParams c, fgParams_ok c⟩
def ansiBgRGB (c : RGB) : SGR := ⟨bgParams c, bgParams_ok c⟩

/-- The colours of a theme that the buffer is shown in. -/
structure TuiTheme where
  errorFG : RGB
  stderrFG : RGB
  metaFG : RGB
  reasoningFG : RGB
  reasoningBold : RGB
  codeFG : RGB
  aboutLinkFG : RGB
  aboutCopyrightFG : RGB
  helpArgFG : RGB

/-- The colours of the theme `outrun`. -/
def outrun : TuiTheme where
  errorFG := ⟨255, 107, 107⟩
  stderrFG := ⟨255, 91, 189⟩
  metaFG := ⟨154, 163, 178⟩
  reasoningFG := ⟨110, 136, 255⟩
  reasoningBold := ⟨255, 91, 189⟩
  codeFG := ⟨112, 214, 255⟩
  aboutLinkFG := ⟨112, 214, 255⟩
  aboutCopyrightFG := ⟨60, 79, 184⟩
  helpArgFG := ⟨154, 182, 255⟩

abbrev Style := List SGR

def Style.code (s : Style) : GoString := s.flatMap SGR.code

/-- A part of a row. -/
inductive Piece (τ : Type)
  | sgr (s : SGR)
  | text (t : τ)

def Piece.map {τ υ : Type} (f : τ → υ) : Piece τ → Piece υ
  | .sgr s => .sgr s
  | .text t => .text (f t)

/-- Text that is not yet written out as bytes. -/
abbrev Ink := Piece (List ℕ)

def Piece.bytes : Piece GoString → GoString
  | .sgr s => s.code
  | .text t => t

def Piece.textBytes : Piece GoString → GoString
  | .sgr _ => []
  | .text t => t

/-- The string of a row. -/
def rowString (row : List (Piece GoString)) : GoString := row.flatMap Piece.bytes

/-- What is left of a row without the sequences of the renderer. -/
def rowText (row : List (Piece GoString)) : GoString := row.flatMap Piece.textBytes

def Piece.runes : Ink → List ℕ
  | .sgr _ => []
  | .text t => t

def inkRunes (row : List Ink) : List ℕ := row.flatMap Piece.runes

/-- The pieces as they are written out. -/
def writeOut (row : List Ink) : List (Piece GoString) := row.map (Piece.map ofRunes)

theorem rowText_writeOut (row : List Ink) : rowText (writeOut row) = ofRunes (inkRunes row) := by
  induction row with
  | nil => rfl
  | cons p row ih =>
    rw [writeOut, map_cons, rowText, flatMap_cons, inkRunes, flatMap_cons,
      ofRunes_append]
    rw [writeOut, rowText, inkRunes] at ih
    rw [ih]
    cases p <;> rfl

@[simp]
theorem inkRunes_append (row row' : List Ink) :
    inkRunes (row ++ row') = inkRunes row ++ inkRunes row' := flatMap_append

@[simp]
theorem inkRunes_text (t : List ℕ) : inkRunes [.text t] = t := by simp [inkRunes, Piece.runes]

@[simp]
theorem inkRunes_sgr (s : SGR) (row : List Ink) : inkRunes (.sgr s :: row) = inkRunes row := rfl

@[simp]
theorem inkRunes_style (s : Style) : inkRunes (s.map Piece.sgr) = [] := by
  induction s with
  | nil => rfl
  | cons c s ih => exact ih

theorem skipCSI_params {params : GoString} (h : ∀ b ∈ params, between 0x20 0x3F b = true)
    (t : GoString) : skipCSI (params ++ 0x6D :: t) = t := by
  induction params with
  | nil => rfl
  | cons b params ih =>
    have hb : between 0x40 0x7E b = false := by
      have := h b (by simp)
      rw [between_iff] at this
      rw [← Bool.not_eq_true, between_iff]
      simp only [UInt8.reduceToNat] at this ⊢
      omega
    rw [cons_append, skipCSI, hb]
    exact ih fun x hx => h x (by simp [hx])

theorem segments_code (s : SGR) (t : GoString) :
    segments (s.code ++ t) = .escape s.code :: segments t := by
  refine segments_escape_append (u := 0x5B :: s.params ++ [0x6D]) ?_
  rw [cons_append, cons_append, skipEscape, if_pos rfl, append_assoc]
  exact skipCSI_params s.ok t

theorem trimSegments_rowString {row : List Ink} {width visible : ℕ}
    (hrunes : ∀ r ∈ inkRunes row, Scalar r ∧ r ≠ 0x1B)
    (hwidth : visible + (inkRunes row).length ≤ width) :
    trimSegments width visible (segments (rowString (writeOut row))) =
      rowString (writeOut row) := by
  induction row generalizing visible with
  | nil => rfl
  | cons p row ih =>
    rw [writeOut, map_cons, ← writeOut, rowString, flatMap_cons, ← rowString]
    cases p with
    | sgr s =>
      simp only [Piece.map, Piece.bytes]
      rw [segments_code, trimSegments, ih hrunes hwidth]
    | text t =>
      have hsplit : inkRunes (.text t :: row) = t ++ inkRunes row := rfl
      rw [hsplit, forall_mem_append] at hrunes
      rw [hsplit, length_append] at hwidth
      simp only [Piece.map, Piece.bytes]
      rw [segments_ofRunes hrunes.1]
      clear hsplit
      induction t generalizing visible with
      | nil => exact ih hrunes.2 (by simpa using hwidth)
      | cons r t iht =>
        rw [length_cons] at hwidth
        rw [map_cons, cons_append, trimSegments, if_neg (by omega),
          iht (by simp at hrunes ⊢; exact ⟨hrunes.1.2, hrunes.2⟩) (by omega), ofRunes_cons,
          append_assoc]

theorem trimANSIToWidth_rowString {row : List Ink} {width : ℕ} (hw : 0 < width)
    (hrunes : ∀ r ∈ inkRunes row, Scalar r ∧ r ≠ 0x1B)
    (hwidth : (inkRunes row).length ≤ width) :
    trimANSIToWidth (rowString (writeOut row)) width = rowString (writeOut row) := by
  rw [trimANSIToWidth, if_neg (by omega)]
  exact trimSegments_rowString hrunes (by omega)

theorem trimToWidth_ofRunes {rs : List ℕ} {width : ℕ} (hw : 0 < width)
    (hrs : ∀ r ∈ rs, Scalar r) (hwidth : rs.length ≤ width) :
    trimToWidth (ofRunes rs) width = ofRunes rs := by
  rw [trimToWidth, if_neg (by omega), toRunes_ofRunes hrs, if_pos hwidth]

end Centaurx.SshServer
