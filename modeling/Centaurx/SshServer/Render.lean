import Centaurx.Output.Lines
import Centaurx.SshServer.Wrap

namespace Centaurx.SshServer
open Go Output Markdown List Function Marks

/-- The rows of plain text, as they are when each is complete. They have no styles. -/
def plainRows (text : GoString) (width : ℕ) : List (List Ink) :=
  (((tokenizeText text).foldl (plainToken width) {}).flush [] false).lines

def wrapPlainLines (text : GoString) (width : ℕ) : List GoString :=
  if width = 0 then [[]]
  else
    let sanitized := sanitizeOutputLine text
    if sanitized = [] then [[]]
    else
      let lines := (plainRows sanitized width).map fun b => trimToWidth (ofRunes (inkRunes b)) width
      if lines = [] then [[]] else lines

def wrapStyledLines (text : GoString) (width : ℕ) (style : Style) : List GoString :=
  let lines := wrapPlainLines text width
  if lines = [[]] then lines
  else lines.map fun line =>
    if line = [] then line else style.code ++ line ++ ansiReset.code

structure MarkdownStyle where
  baseItalic : Bool := false
  baseBold : Bool := false
  baseFG : Option RGB := none
  boldFG : Option RGB := none
  codeFG : Option RGB := none

def fg (c : Option RGB) : Style := c.toList.map ansiFgRGB

def MarkdownStyle.base (style : MarkdownStyle) : Style :=
  (if style.baseItalic then [ansiItalic] else []) ++ (if style.baseBold then [ansiBold] else []) ++
    fg style.baseFG

def styleForSpan (style : MarkdownStyle) (span : Span UInt8) : Style :=
  style.base ++ (if span.code then fg style.codeFG else []) ++
    (if span.bold then ansiBold :: fg style.boldFG else []) ++
    (if span.italic then [ansiItalic] else [])

/-- The tokens of a span go into the rows in its style. -/
def spanRows (style : MarkdownStyle) (width : ℕ) (st : Wrap) (span : Span UInt8) : Wrap :=
  (tokenizeMarkdown span.text).foldl (markdownToken (styleForSpan style span) width) st

def markdownRows (spans : List (Span UInt8)) (width : ℕ) (style : MarkdownStyle) :
    List (List Ink) :=
  ((spans.foldl (spanRows style width) {}).flush [.sgr ansiReset] false).lines

def renderMarkdownLines (text : GoString) (width : ℕ) (style : MarkdownStyle) : List GoString :=
  if width = 0 then [[]]
  else
    let spans := parseInline bytes (sanitizeOutputLine text)
    if spans = [] then [[]]
    else
      let lines := (markdownRows spans width style).map fun b =>
        trimANSIToWidth (rowString (writeOut b)) width ++ ansiReset.code
      if lines = [] then [[]] else lines

def renderWorkedLine (label : GoString) (width : ℕ) : GoString :=
  if width = 0 then []
  else
    let label := if trimSpace label = [] then lit "Worked" else trimSpace label
    let lead := lit "── " ++ label ++ lit " "
    if (toRunes lead).length ≥ width then trimToWidth lead width
    else lead ++ ofRunes (replicate (width - (toRunes lead).length) 0x2500)

def workedStyle (theme : TuiTheme) : Style := [ansiDim, ansiItalic, ansiFgRGB theme.metaFG]

/-- `renderLine` for the separator of a finished turn. -/
def renderLineWorked (text : GoString) (width : ℕ) (theme : TuiTheme) : GoString :=
  let text := if trimSpace text = [] then lit "Worked" else trimSpace text
  (workedStyle theme).code ++ renderWorkedLine text width ++ ansiReset.code

/-- How a line is shown. -/
inductive Layout
  | markdown (style : MarkdownStyle)
  | styled (style : Style)
  | worked
  | plain

def layout (theme : TuiTheme) : LineKind → Layout
  | .lineAgent => .markdown { codeFG := theme.codeFG }
  | .lineReasoning => .markdown
      { baseItalic := true, baseFG := theme.reasoningFG, boldFG := theme.reasoningBold,
        codeFG := theme.codeFG }
  | .lineError => .styled [ansiBold, ansiFgRGB theme.errorFG]
  | .lineStderr => .styled [ansiBold, ansiFgRGB theme.stderrFG]
  | .lineMeta => .styled [ansiDim, ansiItalic, ansiFgRGB theme.metaFG]
  | .lineCommand => .styled [ansiDim, ansiFgRGB theme.metaFG]
  | .lineHelp => .markdown { boldFG := theme.aboutLinkFG, codeFG := theme.helpArgFG }
  | .lineAboutVersion => .styled [ansiBold, ansiItalic]
  | .lineAboutCopyright => .styled [ansiFgRGB theme.aboutCopyrightFG]
  | .lineAboutLink => .styled [ansiItalic, ansiFgRGB theme.aboutLinkFG]
  | .lineWorked => .worked
  | .lineNormal => .plain

def renderLines (raw : GoString) (width : ℕ) (theme : TuiTheme) : List GoString :=
  if width = 0 then [[]]
  else
    let info := classifyLine raw
    match layout theme info.kind with
    | .markdown style => renderMarkdownLines info.text width style
    | .styled style => wrapStyledLines info.text width style
    | .worked => [renderLineWorked info.text width theme]
    | .plain => wrapPlainLines info.text width

/-- There is always a row. -/
def orEmpty {α : Type} (rows : List (List α)) : List (List α) := if rows = [] then [[]] else rows

def plainPieces (text : GoString) (width : ℕ) : List (List (Piece GoString)) :=
  orEmpty ((plainRows (sanitizeOutputLine text) width).map fun b => [.text (ofRunes (inkRunes b))])

def styled (style : Style) (row : List (Piece GoString)) : List (Piece GoString) :=
  if rowString row = [] then row else style.map .sgr ++ row ++ [.sgr ansiReset]

def styledPieces (text : GoString) (width : ℕ) (style : Style) : List (List (Piece GoString)) :=
  (plainPieces text width).map (styled style)

def markdownPieces (text : GoString) (width : ℕ) (style : MarkdownStyle) :
    List (List (Piece GoString)) :=
  orEmpty ((markdownRows (parseInline bytes (sanitizeOutputLine text)) width style).map
    fun b => writeOut b ++ [.sgr ansiReset])

def workedPieces (text : GoString) (width : ℕ) (theme : TuiTheme) :
    List (List (Piece GoString)) :=
  let text := if trimSpace text = [] then lit "Worked" else trimSpace text
  [(workedStyle theme).map .sgr ++ [.text (renderWorkedLine text width), .sgr ansiReset]]

/-- The rows of a line, with the sequences of the renderer apart from the text. -/
def renderPieces (raw : GoString) (width : ℕ) (theme : TuiTheme) :
    List (List (Piece GoString)) :=
  let info := classifyLine raw
  match layout theme info.kind with
  | .markdown style => markdownPieces info.text width style
  | .styled style => styledPieces info.text width style
  | .worked => workedPieces info.text width theme
  | .plain => plainPieces info.text width

/-- The rows hold the text `t`, up to blanks. -/
structure RowsOf (width : ℕ) (rows : List (List Ink)) (t : List ℕ) : Prop where
  width_le : ∀ row ∈ rows, (inkRunes row).length ≤ width
  kept : ∀ p : ℕ → Bool, p 0x20 = false → (rows.flatMap inkRunes).filter p = t.filter p
  origin : rows.flatMap inkRunes ⊆ t

theorem Fills.rowsOf {width : ℕ} {st : Wrap} {t : List ℕ} (h : Fills width {} st t)
    {close : List Ink} (hc : inkRunes close = []) :
    RowsOf width (st.flush close false).lines t := by
  have hb : (st.flush close false).b = [] := by
    rw [Wrap.flush]
    split
    · assumption
    · rfl
  have htext : (st.flush close false).lines.flatMap inkRunes = st.text := by
    rw [← Wrap.text_flush hc st false, Wrap.text, hb]
    simp [inkRunes]
  refine ⟨(h.ok.flush hc false).1.lines_le, fun p hp => ?_, ?_⟩
  · rw [htext, h.kept p hp]
    rfl
  · rw [htext]
    exact h.origin

theorem ok_start (width : ℕ) : Wrap.Ok width {} := ⟨rfl, by simp, by simp⟩

theorem plainRows_rowsOf {width : ℕ} (hpos : 0 < width) (text : GoString) :
    RowsOf width (plainRows text width) ((toRunes text).map squash) := by
  have hspace := tokenizeFrom_space false [] (toRunes text) (by simp)
  have hfills : ∀ st : Wrap, st.Ok width → ∀ tok ∈ tokenizeText text,
      Fills width st (plainToken width st tok) tok.text :=
    fun st hst tok htok => plainToken_fills hpos hst (hspace tok htok)
  have h := Fills.foldl hfills (ok_start width)
  rw [tokenizeText_text] at h
  exact h.rowsOf rfl

theorem markdownRows_rowsOf {width : ℕ} (hpos : 0 < width) (spans : List (Span UInt8))
    (style : MarkdownStyle) :
    RowsOf width (markdownRows spans width style)
      ((spans.flatMap fun span => toRunes span.text).map squash) := by
  have hspan : ∀ st : Wrap, st.Ok width → ∀ span ∈ spans,
      Fills width st (spanRows style width st span) ((toRunes span.text).map squash) := by
    intro st hst span _
    rw [← tokenizeMarkdown_text]
    exact Fills.foldl (fun st hst tok htok =>
      markdownToken_fills hpos hst (tokenizeMarkdown_space _ tok htok)) hst
  have h := Fills.foldl hspan (ok_start width)
  rw [map_flatMap]
  exact h.rowsOf rfl

/-- C0, DEL and C1. -/
def control (r : ℕ) : Bool := r < 0x20 || r = 0x7F || (0x80 ≤ r && r ≤ 0x9F)

theorem RowsOf.control_iff {width : ℕ} {rows : List (List Ink)} {t : List ℕ}
    (h : RowsOf width rows t) :
    (∀ row ∈ rows, ∀ r ∈ inkRunes row, control r = false) ↔ ∀ r ∈ t, control r = false := by
  have hnil := congrArg (· = []) (h.kept control (by decide))
  simp only [filter_eq_nil_iff, mem_flatMap, Bool.not_eq_true] at hnil
  rw [← hnil]
  exact ⟨fun h r ⟨row, hrow, hr⟩ => h row hrow r hr, fun h row hrow r hr => h r ⟨row, hrow, hr⟩⟩

theorem mem_parseInline {rs : List ℕ} {r : ℕ}
    (h : r ∈ (parseInline codes rs).flatMap Span.text) :
    (∃ k, r = codes.char k) ∨ r ∈ rs := by
  by_cases hr : ∃ k, r = codes.char k
  · exact .inl hr
  · right
    have hp : ∀ k, decide (codes.char k = r) = false := fun k =>
      decide_eq_false fun hk => hr ⟨k, hk.symm⟩
    have hmem : r ∈ ((parseInline codes rs).flatMap Span.text).filter (· = r) :=
      mem_filter.mpr ⟨h, by simp⟩
    rw [parseInline_text hp] at hmem
    exact (mem_filter.mp hmem).1

theorem mark_scalar (k : Mark) : Scalar (codes.char k) ∧ codes.char k ≠ 0x1B := by
  cases k <;> decide

theorem spans_runes (text : GoString) :
    (parseInline bytes (sanitizeOutputLine text)).flatMap (fun span => toRunes span.text) =
      (parseInline codes (sanitizedRunes text)).flatMap Span.text := by
  rw [sanitizeOutputLine_eq, parseInline_ofRunes, flatMap_map]
  refine flatMap_congr fun span hspan => toRunes_ofRunes fun r hr => ?_
  rcases mem_parseInline (mem_flatMap.mpr ⟨span, hspan, hr⟩) with ⟨k, rfl⟩ | hr
  · exact (mark_scalar k).1
  · exact (mem_sanitizedRunes hr).1

theorem squash_printable {r : ℕ} (h : Scalar r ∧ r ≠ 0x1B) :
    Scalar (squash r) ∧ squash r ≠ 0x1B := by
  rw [squash]
  split
  · decide
  · exact h

theorem plainRows_spec {width : ℕ} (hpos : 0 < width) (text : GoString) :
    RowsOf width (plainRows (sanitizeOutputLine text) width) ((sanitizedRunes text).map squash) ∧
      ∀ row ∈ plainRows (sanitizeOutputLine text) width, ∀ r ∈ inkRunes row,
        Scalar r ∧ r ≠ 0x1B := by
  have h := plainRows_rowsOf hpos (sanitizeOutputLine text)
  rw [toRunes_sanitizeOutputLine] at h
  refine ⟨h, fun row hrow r hr => ?_⟩
  obtain ⟨r', hr', rfl⟩ := mem_map.mp (h.origin (mem_flatMap.mpr ⟨row, hrow, hr⟩))
  obtain ⟨hs, hlow, -⟩ := mem_sanitizedRunes hr'
  exact squash_printable ⟨hs, by omega⟩

theorem markdownRows_spec {width : ℕ} (hpos : 0 < width) (text : GoString)
    (style : MarkdownStyle) :
    RowsOf width (markdownRows (parseInline bytes (sanitizeOutputLine text)) width style)
        (((parseInline codes (sanitizedRunes text)).flatMap Span.text).map squash) ∧
      ∀ row ∈ markdownRows (parseInline bytes (sanitizeOutputLine text)) width style,
        ∀ r ∈ inkRunes row, Scalar r ∧ r ≠ 0x1B := by
  have h := markdownRows_rowsOf hpos (parseInline bytes (sanitizeOutputLine text)) style
  rw [spans_runes] at h
  refine ⟨h, fun row hrow r hr => ?_⟩
  obtain ⟨r', hr', rfl⟩ := mem_map.mp (h.origin (mem_flatMap.mpr ⟨row, hrow, hr⟩))
  apply squash_printable
  rcases mem_parseInline hr' with ⟨k, rfl⟩ | hr'
  · exact mark_scalar k
  · obtain ⟨hs, hlow, -⟩ := mem_sanitizedRunes hr'
    exact ⟨hs, by omega⟩

theorem orEmpty_map {α β : Type} (f : List α → List β) (hf : f [] = []) (rows : List (List α)) :
    (orEmpty rows).map f = orEmpty (rows.map f) := by
  cases rows with
  | nil => simp [orEmpty, hf]
  | cons row rows => simp [orEmpty]

variable {width : ℕ} {text : GoString}

theorem wrapPlainLines_eq (hpos : 0 < width) :
    wrapPlainLines text width = (plainPieces text width).map rowString := by
  obtain ⟨hrows, hrunes⟩ := plainRows_spec hpos text
  have hlines : (plainRows (sanitizeOutputLine text) width).map
      (fun b => trimToWidth (ofRunes (inkRunes b)) width) =
        (plainRows (sanitizeOutputLine text) width).map fun b => ofRunes (inkRunes b) :=
    map_congr_left fun row hrow =>
      trimToWidth_ofRunes hpos (fun r hr => (hrunes row hrow r hr).1) (hrows.width_le row hrow)
  rw [plainPieces, orEmpty_map _ rfl, map_map, wrapPlainLines, if_neg (by omega)]
  simp only [hlines]
  split_ifs with h1 h2
  · rw [h1]
    rfl
  · rw [map_eq_nil_iff.mp h2]
    rfl
  · rw [orEmpty, if_neg (by simpa using h2)]
    simp [rowString, Piece.bytes, comp_def]

theorem rowText_style (style : Style) (row : List (Piece GoString)) :
    rowText (style.map .sgr ++ row) = rowText row := by
  induction style with
  | nil => rfl
  | cons s style ih => exact ih

theorem rowString_styled (style : Style) (row : List (Piece GoString)) :
    rowString (styled style row) =
      if rowString row = [] then rowString row
      else style.code ++ rowString row ++ ansiReset.code := by
  rw [styled]
  split_ifs
  · rfl
  · simp [rowString, Style.code, Piece.bytes, flatMap_map]

theorem wrapStyledLines_eq (hpos : 0 < width) (style : Style) :
    wrapStyledLines text width style = (styledPieces text width style).map rowString := by
  rw [styledPieces, map_map, wrapStyledLines, wrapPlainLines_eq hpos]
  split_ifs with h
  · obtain ⟨row, hrow, h0⟩ := map_eq_singleton_iff.mp h
    rw [hrow]
    simp [rowString_styled, h0]
  · rw [map_map]
    refine map_congr_left fun row _ => ?_
    simp [rowString_styled]

theorem renderMarkdownLines_eq (hpos : 0 < width) (style : MarkdownStyle) :
    renderMarkdownLines text width style = (markdownPieces text width style).map rowString := by
  obtain ⟨hrows, hrunes⟩ := markdownRows_spec hpos text style
  have hlines : (markdownRows (parseInline bytes (sanitizeOutputLine text)) width style).map
      (fun b => trimANSIToWidth (rowString (writeOut b)) width ++ ansiReset.code) =
        (markdownRows (parseInline bytes (sanitizeOutputLine text)) width style).map
          fun b => rowString (writeOut b ++ [.sgr ansiReset]) := by
    refine map_congr_left fun row hrow => ?_
    rw [trimANSIToWidth_rowString hpos (hrunes row hrow) (hrows.width_le row hrow)]
    simp [rowString, Piece.bytes]
  rw [markdownPieces, orEmpty_map _ rfl, map_map, renderMarkdownLines, if_neg (by omega)]
  simp only [hlines]
  split_ifs with h1 h2
  · rw [h1]
    rfl
  · rw [map_eq_nil_iff.mp h2]
    rfl
  · rw [orEmpty, if_neg (by simpa using h2)]
    rfl

theorem renderLines_eq (hpos : 0 < width) (raw : GoString) (theme : TuiTheme) :
    renderLines raw width theme = (renderPieces raw width theme).map rowString := by
  rw [renderLines, if_neg (by omega), renderPieces]
  simp only
  split
  · exact renderMarkdownLines_eq hpos _
  · exact wrapStyledLines_eq hpos _
  · simp [workedPieces, renderLineWorked, rowString, Style.code, Piece.bytes, flatMap_map]
  · exact wrapPlainLines_eq hpos

/-- The rows show no control character. -/
def Clean (rows : List (List (Piece GoString))) : Prop :=
  ∀ row ∈ rows, ∀ r ∈ toRunes (rowText row), control r = false

instance (rows : List (List (Piece GoString))) : Decidable (Clean rows) :=
  inferInstanceAs (Decidable (∀ row ∈ rows, ∀ r ∈ toRunes (rowText row), control r = false))

theorem RowsOf.clean_iff {rows : List (List Ink)} {t : List ℕ} (h : RowsOf width rows t)
    (hrunes : ∀ row ∈ rows, ∀ r ∈ inkRunes row, Scalar r ∧ r ≠ 0x1B)
    {show' : List Ink → List (Piece GoString)}
    (hshow : ∀ row, rowText (show' row) = ofRunes (inkRunes row)) :
    Clean (orEmpty (rows.map show')) ↔ ∀ r ∈ t, control r = false := by
  have hmap : Clean (rows.map show') ↔ ∀ row ∈ rows, ∀ r ∈ inkRunes row, control r = false := by
    simp only [Clean, forall_mem_map, hshow]
    refine forall₂_congr fun row hrow => ?_
    rw [toRunes_ofRunes fun r hr => (hrunes row hrow r hr).1]
  rw [← h.control_iff, ← hmap, orEmpty]
  split_ifs with hnil
  · simp [hnil, Clean, rowText]
  · rfl

/-- Whether the sanitised text has a control character. The next line is one, but also a space,
and spaces are shown as blanks. -/
def harmless : Segment → Bool
  | .escape _ => true
  | .rune r _ => !(0x80 ≤ r && r ≤ 0x9F) || r = 0x85

theorem control_squash {r : ℕ} (hlow : 0x20 ≤ r) (hdel : r ≠ 0x7F) (size : ℕ) :
    control (squash r) = false ↔ harmless (.rune r size) = true := by
  by_cases hspace : isSpace r
  · have hr : (r < 0x80 ∨ 0x9F < r) ∨ r = 0x85 := by
      simp [isSpace] at hspace
      omega
    simpa [squash, hspace, control, harmless] using hr
  · have hr : r ≠ 0x85 := by
      rintro rfl
      exact hspace (by decide)
    simp [squash, hspace, control, harmless]
    omega

theorem sanitized_clean_iff :
    (∀ r ∈ sanitizedRunes text, control (squash r) = false) ↔
      (segments text).all harmless = true := by
  rw [all_eq_true]
  constructor
  · intro h g hg
    cases g with
    | escape bytes => rfl
    | rune r size =>
      by_cases hr : 0x80 ≤ r ∧ r ≤ 0x9F
      · have hne : r ≠ runeError := by
          rintro rfl
          exact absurd hr.2 (by decide)
        exact (control_squash (by omega) (by omega) size).mp
          (h r ((mem_sanitizedRunes_iff hr.1 hne).mpr ⟨size, hg⟩))
      · simp only [harmless, Bool.or_eq_true, Bool.not_eq_true', Bool.and_eq_false_iff,
          decide_eq_false_iff_not, decide_eq_true_eq]
        omega
  · intro h r hr
    obtain ⟨-, hlow, hdel⟩ := mem_sanitizedRunes hr
    obtain ⟨g, hg, hkept⟩ := mem_flatMap.mp hr
    by_cases hascii : r < 0x80
    · exact (control_squash hlow hdel 0).mpr (by simp [harmless]; omega)
    · by_cases hne : r = runeError
      · subst hne
        decide
      · obtain ⟨size, hmem⟩ := (mem_sanitizedRunes_iff (by omega) hne).mp hr
        exact (control_squash hlow hdel size).mpr (h _ hmem)

theorem clean_plain_iff (hpos : 0 < width) :
    Clean (plainPieces text width) ↔ (segments text).all harmless = true := by
  obtain ⟨hrows, hrunes⟩ := plainRows_spec hpos text
  rw [plainPieces, hrows.clean_iff hrunes (fun row => by simp [rowText, Piece.textBytes]),
    forall_mem_map, sanitized_clean_iff]

theorem clean_styled_iff (hpos : 0 < width) (style : Style) :
    Clean (styledPieces text width style) ↔ (segments text).all harmless = true := by
  have htext : ∀ row, rowText (styled style row) = rowText row := by
    intro row
    rw [styled]
    split_ifs
    · rfl
    · rw [append_assoc, rowText_style]
      simp [rowText, Piece.textBytes]
  rw [← clean_plain_iff hpos]
  simp only [Clean, styledPieces, forall_mem_map, htext]

/-- The marks of markdown are the only runes the spans can lose. -/
theorem clean_markdown_iff (hpos : 0 < width) (style : MarkdownStyle) :
    Clean (markdownPieces text width style) ↔ (segments text).all harmless = true := by
  obtain ⟨hrows, hrunes⟩ := markdownRows_spec hpos text style
  rw [markdownPieces, hrows.clean_iff hrunes, forall_mem_map, ← sanitized_clean_iff]
  · have hmarks : ∀ k, control (squash (codes.char k)) = false := by
      intro k
      cases k <;> decide
    have hkept := parseInline_text (p := fun r => control (squash r)) hmarks (sanitizedRunes text)
    have hnil := congrArg (· = []) hkept
    simpa only [filter_eq_nil_iff, Bool.not_eq_true, eq_iff_iff] using hnil
  · intro row
    rw [← rowText_writeOut]
    simp [rowText, Piece.textBytes]

theorem toRunes_renderWorkedLine (hpos : 0 < width) {label : GoString}
    (hlabel : trimSpace label ≠ []) :
    ∃ n, toRunes (renderWorkedLine label width) =
      ([0x2500, 0x2500, 0x20] ++ (toRunes (trimSpace label) ++
        (0x20 :: replicate n 0x2500))).take width := by
  have hlead : toRunes (lit "── " ++ trimSpace label ++ lit " ") =
      [0x2500, 0x2500, 0x20] ++ (toRunes (trimSpace label) ++ [0x20]) := by
    have hrules : lit "── " = ofRunes [0x2500, 0x2500, 0x20] := by decide
    have hblank : lit " " = ofRunes [0x20] := by decide
    rw [hrules, hblank, append_assoc, toRunes_ofRunes_append (by decide),
      toRunes_append (boundary_ofRunes _), toRunes_ofRunes (by decide)]
  rw [renderWorkedLine, if_neg (by omega)]
  simp only [hlabel, if_false]
  split_ifs with hlen
  · refine ⟨0, ?_⟩
    rw [trimToWidth, if_neg (by omega), replicate_zero, ← hlead]
    split_ifs with hle
    · rw [take_of_length_le hle]
    · exact toRunes_ofRunes fun r hr => toRunes_scalar _ r (mem_of_mem_take hr)
  · refine ⟨width - (toRunes (lit "── " ++ trimSpace label ++ lit " ")).length, ?_⟩
    have hfill : ∀ n, ∀ r ∈ replicate n 0x2500, Scalar r := by
      intro n r hr
      rw [(mem_replicate.mp hr).2]
      decide
    rw [toRunes_append (boundary_ofRunes _), toRunes_ofRunes (hfill _), take_of_length_le]
    · rw [hlead]
      simp
    · rw [hlead] at hlen ⊢
      simp at hlen ⊢
      omega

/-- What the separator shows besides its label is no control character. -/
theorem clean_label_iff (hpos : 0 < width) {label : GoString} (hlabel : trimSpace label ≠ []) :
    (∀ r ∈ toRunes (renderWorkedLine label width), control r = false) ↔
      ((toRunes (trimSpace label)).take (width - 3)).all (fun r => !control r) = true := by
  obtain ⟨n, hn⟩ := toRunes_renderWorkedLine hpos hlabel
  have hrules : ∀ r ∈ ([0x2500, 0x2500, 0x20] : List ℕ).take width, control r = false :=
    fun r hr => (by decide : ∀ r ∈ [0x2500, 0x2500, 0x20], control r = false) r
      (mem_of_mem_take hr)
  have hfill : ∀ k, ∀ r ∈ (0x20 :: replicate n 0x2500).take k, control r = false := by
    intro k r hr
    rcases mem_cons.mp (mem_of_mem_take hr) with rfl | hr
    · decide
    · rw [(mem_replicate.mp hr).2]
      decide
  rw [hn, take_append, take_append]
  simp only [forall_mem_append, all_eq_true, Bool.not_eq_true']
  exact ⟨fun h => h.2.1, fun h => ⟨hrules, h, hfill _⟩⟩

theorem clean_worked_iff (hpos : 0 < width) (theme : TuiTheme) :
    Clean (workedPieces text width theme) ↔
      ((toRunes (trimSpace text)).take (width - 3)).all (fun r => !control r) = true := by
  have hrow : Clean (workedPieces text width theme) ↔ ∀ r ∈ toRunes (renderWorkedLine
      (if trimSpace text = [] then lit "Worked" else trimSpace text) width), control r = false := by
    simp only [Clean, workedPieces, forall_mem_singleton, rowText_style]
    simp [rowText, Piece.textBytes]
  rw [hrow]
  split_ifs with hblank
  · rw [clean_label_iff hpos (by decide), hblank]
    simp only [toRunes_nil, take_nil, all_nil, iff_true, all_eq_true]
    intro r hr
    exact (by decide : ∀ r ∈ toRunes (trimSpace (lit "Worked")), (!control r) = true) r
      (mem_of_mem_take hr)
  · rw [clean_label_iff hpos (by rwa [trimSpace_trimSpace]), trimSpace_trimSpace]

/-- The line has no control character that would be shown at this width. For the separator of a
finished turn these are all of them, in front of the edge; for the other lines the C1 ones that
are not spaces and not part of an escape sequence. -/
def harmlessLine (raw : GoString) (width : ℕ) : Bool :=
  let info := classifyLine raw
  if info.kind = .lineWorked then
    ((toRunes (trimSpace info.text)).take (width - 3)).all fun r => !control r
  else (segments info.text).all harmless

theorem layout_eq_worked {theme : TuiTheme} {kind : LineKind} :
    layout theme kind = .worked ↔ kind = .lineWorked := by
  cases kind <;> simp [layout]

theorem clean_iff (hpos : 0 < width) (raw : GoString) (theme : TuiTheme) :
    Clean (renderPieces raw width theme) ↔ harmlessLine raw width = true := by
  have hworked := @layout_eq_worked theme (classifyLine raw).kind
  rw [renderPieces, harmlessLine]
  cases hlayout : layout theme (classifyLine raw).kind with
  | worked =>
    rw [if_pos (hworked.mp hlayout)]
    exact clean_worked_iff hpos theme
  | markdown style =>
    rw [if_neg fun h => by simp [hworked.mpr h] at hlayout]
    exact clean_markdown_iff hpos style
  | styled style =>
    rw [if_neg fun h => by simp [hworked.mpr h] at hlayout]
    exact clean_styled_iff hpos style
  | plain =>
    rw [if_neg fun h => by simp [hworked.mpr h] at hlayout]
    exact clean_plain_iff hpos

/-- **No injection.** The strings of the renderer are rows of sequences it wrote and text, and
the text is free of control characters exactly for harmless lines. -/
theorem no_terminal_injection (raw : GoString) (hpos : 0 < width) (theme : TuiTheme) :
    renderLines raw width theme = (renderPieces raw width theme).map rowString ∧
      (Clean (renderPieces raw width theme) ↔ harmlessLine raw width = true) :=
  ⟨renderLines_eq hpos raw theme, clean_iff hpos raw theme⟩

/-- A line with tabs, an escape sequence and a next-line character is shown without them. -/
theorem no_terminal_injection_output :
    0 < 20 ∧ Clean (renderPieces (lit "a\tb" ++ esc :: lit "[2J\u0085c") 20 outrun) :=
  ⟨by decide, (no_terminal_injection _ (by decide) outrun).2.mpr (by decide)⟩

/-- The separator of a finished turn clears the screen, and so does a line with the one-character
control sequence introducer. -/
theorem injected_clear_screen :
    renderLines (0x1E :: esc :: lit "[2J") 20 outrun =
        [(workedStyle outrun).code ++ lit "── " ++ esc :: lit "[2J ────────────" ++
          ansiReset.code] ∧
      ¬Clean (renderPieces (0x1E :: esc :: lit "[2J") 20 outrun) ∧
      renderLines (lit "\u009b2J") 20 outrun = [lit "\u009b2J"] ∧
      ¬Clean (renderPieces (lit "\u009b2J") 20 outrun) := by
  decide

end Centaurx.SshServer
