import Centaurx.Core.Buffer
import Centaurx.SshServer.InputLines
import Centaurx.SshServer.Render
import Centaurx.SshServer.Session
import Centaurx.SshServer.TabBar

namespace Centaurx.SshServer
open Go Output List Newest

def ChpasswdState.prompt (c : ChpasswdState) : GoString :=
  match c.step with
  | .chpasswdStepCurrent => lit "current password: "
  | .chpasswdStepNew => lit "new password: "
  | .chpasswdStepConfirm => lit "confirm new password: "
  | .chpasswdStepTOTP => lit "totp: "

def spinnerFrames : List ℕ := [0x7C, 0x2F, 0x2D, 0x5C]

/-- The session, with what it shows. -/
structure Terminal where
  session : Session
  tabs : List TabView := []
  buffer : BufferView := ⟨[], 0, 0, true⟩
  system : BufferView := ⟨[], 0, 0, true⟩
  themeName : ThemeName := []
  tabWindowStart : Int := 0
  promptIdle : GoString := lit "> "
  running : Bool := false
  commandSpinner : Bool := false
  spinnerIdx : Fin spinnerFrames.length := ⟨0, by decide⟩
  width : ℕ
  height : ℕ

structure Frame where
  lines : List GoString
  cursorRow : ℕ
  cursorCol : ℕ

def maskInput (value : GoString) : GoString := replicate (toRunes value).length 0x2A

def spinnerPrefix (prompt : GoString) : GoString :=
  if prompt = [] then []
  else
    let first := (decodeRune prompt).1
    if first ∈ spinnerFrames then encodeRune first else []

def stylePromptPrefix (prompt : GoString) (theme : ScreenTheme) : GoString :=
  if (lit ">").isPrefixOf prompt then
    Style.code [ansiBold, ansiFgRGB theme.promptFG] ++ lit ">" ++ ansiReset.code ++
      trimPrefix prompt (lit ">")
  else
    let spinner := spinnerPrefix prompt
    if spinner ≠ [] then
      Style.code [ansiFgRGB theme.spinnerFG] ++ spinner ++ ansiReset.code ++
        trimPrefix prompt spinner
    else prompt

/-- At the bottom the last rows are shown, elsewhere the first ones; empty rows follow. -/
def renderViewport (viewLines : List GoString) (width height : ℕ) (theme : TuiTheme)
    (atBottom : Bool) : List GoString :=
  if height = 0 then []
  else
    let flattened := viewLines.flatMap fun raw => renderLines raw width theme
    let rendered :=
      if atBottom then flattened.drop (flattened.length - height) else flattened.take height
    rendered ++ replicate (height - rendered.length) []

namespace Terminal

variable (t : Terminal)

def promptPrefix : GoString :=
  if t.running || t.commandSpinner then encodeRune (spinnerFrames.get t.spinnerIdx) ++ lit " "
  else if t.promptIdle = [] then lit "> "
  else t.promptIdle

def inputDisplay : GoString × GoString :=
  let input := (editorText t.session.editor).s
  if t.session.codexauth then (lit "auth.json: ", input)
  else
    match t.session.chpasswd with
    | some c => (c.prompt, maskInput input)
    | none =>
      if t.session.rotateSSH then (lit "type YES to rotate SSH key: ", input)
      else (t.promptPrefix, input)

def viewLines : List GoString :=
  if t.session.activeTab = [] then
    if t.session.notice ≠ [] then [t.session.notice]
    else if t.system.lines ≠ [] then t.system.lines
    else [lit "no active tab; use /new <repo>"]
  else t.buffer.lines

/-- The rows of the buffer that a page holds. -/
def viewHeight : ℕ :=
  if t.height ≤ 1 then 0
  else
    let width := if t.width = 0 then 80 else t.width
    let (prompt, input) := t.inputDisplay
    let shown := renderInputLines prompt input t.session.editor.cursor width
    let inputHeight := if shown.lines.length < 1 then 1 else shown.lines.length
    t.height - 1 - inputHeight

def render : Terminal × Frame :=
  let width := if t.width = 0 then 80 else t.width
  let height := if t.height = 0 then 24 else t.height
  let theme := themeForName t.themeName
  let (tabLine, windowStart) :=
    renderTabBar t.tabs t.session.activeTab width theme t.tabWindowStart
  let (prompt, input) := t.inputDisplay
  let shown := renderInputLines (stylePromptPrefix prompt theme) input t.session.editor.cursor width
  let outputHeight := height - 1 - shown.lines.length
  let atBottom := if t.session.activeTab = [] then t.system.atBottom else t.buffer.atBottom
  let lines := tabLine ::
    (renderViewport t.viewLines width outputHeight theme.toTuiTheme atBottom ++ shown.lines)
  ({ t with tabWindowStart := windowStart },
    ⟨lines, lines.length - shown.lines.length + shown.cursorRow, shown.cursorCol⟩)

end Terminal

/-- The rows are those of the screen, none is too wide, and the cursor is on one of them. -/
def Frame.Fits (f : Frame) (width height : ℕ) : Prop :=
  f.lines.length = height ∧ (∀ line ∈ f.lines, visibleWidth line ≤ width) ∧
    (1 ≤ f.cursorRow ∧ f.cursorRow ≤ height) ∧ 1 ≤ f.cursorCol ∧ f.cursorCol ≤ width

instance (f : Frame) (width height : ℕ) : Decidable (f.Fits width height) :=
  inferInstanceAs (Decidable (_ ∧ _ ∧ _ ∧ _))

/-- Where text is shown as it is, no ESC stands directly before a rune of four bytes. The prompt and
the visible part of a separator do not end with ESC. -/
structure Terminal.Unsplit (t : Terminal) : Prop where
  prompt : t.inputDisplay.1.getLast? ≠ some esc
  input : SshServer.Unsplit (toRunes t.inputDisplay.2)
  separator : ∀ raw ∈ t.viewLines, (classifyLine raw).kind = .lineWorked →
    SshServer.Unsplit (toRunes (trimSpace (classifyLine raw).text)) ∧
      (3 < t.width → (toRunes (trimSpace (classifyLine raw).text))[t.width - 4]? ≠ some 0x1B)

/-- What a style does to a prompt whose first byte gets it. -/
structure Restyled (prompt styled : GoString) : Prop where
  width_eq : visibleWidth styled = visibleWidth prompt
  last : prompt.getLast? ≠ some esc → styled.getLast? ≠ some esc
  tidy : esc ∉ prompt → Tidy styled

theorem styledHead_spec (style : Style) {b : UInt8} (hb : b < 0x80) (hne : b ≠ esc) (s : GoString) :
    Restyled (b :: s) (style.code ++ [b] ++ ansiReset.code ++ s) := by
  have hassoc : style.code ++ [b] ++ ansiReset.code ++ s =
      style.code ++ ([b] ++ (ansiReset.code ++ s)) := by simp
  have hhead : ∀ s, visibleWidth (b :: s) = visibleWidth s + 1 := fun s => by
    rw [visibleWidth_rune hne, decodeRune_ascii hb]
    rfl
  rw [hassoc]
  refine ⟨?_, fun hlast => ?_, fun hesc => ?_⟩
  · rw [style.visibleWidth_append, singleton_append, hhead, hhead, ansiReset.visibleWidth_append]
  · have hreset : (ansiReset.code ++ s).getLast? ≠ some esc := by
      rcases eq_or_ne s [] with rfl | hs
      · decide
      · rwa [← getLast?_of_suffix (suffix_append _ s) hs, getLast?_of_suffix (suffix_cons b s) hs]
    rwa [← getLast?_of_suffix (l := ansiReset.code ++ s) ⟨style.code ++ [b], by simp⟩
      (append_ne_nil_of_left_ne_nil (by decide) s)]
  · rw [mem_cons, not_or] at hesc
    have htidy : Tidy [b] := tidy_of_esc_not_mem (by simpa using hesc.1)
    exact style.tidy_append (htidy.append
      (ansiReset.tidy_append (tidy_of_esc_not_mem hesc.2)) (boundary_code _ _))

theorem trimPrefix_head (b : UInt8) (s : GoString) : trimPrefix (b :: s) [b] = s := by
  simp [trimPrefix]

theorem spinnerPrefix_spec {prompt : GoString} (h : spinnerPrefix prompt ≠ []) :
    ∃ b s, b < 0x80 ∧ b ≠ esc ∧ prompt = b :: s ∧ spinnerPrefix prompt = [b] := by
  have hframes : ∀ r ∈ spinnerFrames, r < 0x80 ∧ r ≠ 0x1B := by decide
  rw [spinnerPrefix] at h ⊢
  cases prompt with
  | nil => simp at h
  | cons b s =>
    simp only [cons_ne_nil, if_false] at h ⊢
    split_ifs at h ⊢ with hframe
    · have hb : b < 0x80 := byte_of_rune_lt (hframes _ hframe).1
      have hlow : b.toNat < 0x80 := UInt8.lt_iff_toNat_lt.mp hb
      rw [decodeRune_ascii hb] at hframe ⊢
      refine ⟨b, s, hb, fun hesc => (hframes _ hframe).2 (by rw [hesc]; rfl), rfl, ?_⟩
      dsimp only
      rw [encodeRune, if_pos hlow, ofNat_of_toNat rfl]
    · simp at h

/-- The style of the prompt adds no width. -/
theorem stylePromptPrefix_spec (prompt : GoString) (theme : ScreenTheme) :
    Restyled prompt (stylePromptPrefix prompt theme) := by
  rw [stylePromptPrefix]
  dsimp only
  split_ifs with harrow hspinner
  · obtain ⟨s, rfl⟩ := isPrefixOf_iff_prefix.mp harrow
    have hlit : lit ">" = [0x3E] := by decide
    rw [hlit, singleton_append, trimPrefix_head]
    exact styledHead_spec _ (by decide) (by decide) s
  · obtain ⟨b, s, hb, hne, rfl, hfound⟩ := spinnerPrefix_spec hspinner
    rw [hfound, trimPrefix_head]
    exact styledHead_spec _ hb hne s
  · exact ⟨rfl, id, tidy_of_esc_not_mem⟩

theorem mem_orEmpty {α : Type} {rows : List (List α)} {row : List α} (h : row ∈ orEmpty rows) :
    row ∈ rows ∨ row = [] := by
  rw [orEmpty] at h
  split_ifs at h
  · exact .inr (mem_singleton.mp h)
  · exact .inl h

variable {width : ℕ} {text : GoString}

theorem wrapPlainLines_width_le (hpos : 0 < width) :
    ∀ line ∈ wrapPlainLines text width, Tidy line ∧ visibleWidth line ≤ width := by
  obtain ⟨hrows, hrunes⟩ := plainRows_spec hpos text
  rw [wrapPlainLines_eq hpos, plainPieces]
  intro line hline
  obtain ⟨row, hrow, rfl⟩ := mem_map.mp hline
  rcases mem_orEmpty hrow with hrow | rfl
  · obtain ⟨ink, hink, rfl⟩ := mem_map.mp hrow
    have hstring : rowString [.text (ofRunes (inkRunes ink))] = ofRunes (inkRunes ink) := by
      simp [rowString, Piece.bytes]
    rw [hstring, visibleWidth_ofRunes (hrunes ink hink)]
    exact ⟨(part_ofRunes fun h => (hrunes ink hink _ h).2 rfl).tidy, hrows.width_le ink hink⟩
  · exact ⟨tidy_nil, Nat.zero_le _⟩

theorem wrapStyledLines_width_le (hpos : 0 < width) (style : Style) :
    ∀ line ∈ wrapStyledLines text width style, visibleWidth line ≤ width := by
  have hplain : ∀ line ∈ wrapPlainLines text width, Tidy line ∧ visibleWidth line ≤ width :=
    wrapPlainLines_width_le hpos
  rw [wrapStyledLines]
  split_ifs
  · exact fun line hline => (hplain line hline).2
  · intro line hline
    obtain ⟨line, hmem, rfl⟩ := mem_map.mp hline
    obtain ⟨htidy, hwidth⟩ := hplain line hmem
    split_ifs
    · exact hwidth
    · rwa [visibleWidth_styled style htidy]

theorem renderMarkdownLines_width_le (hpos : 0 < width) (style : MarkdownStyle) :
    ∀ line ∈ renderMarkdownLines text width style, visibleWidth line ≤ width := by
  obtain ⟨hrows, hrunes⟩ := markdownRows_spec hpos text style
  rw [renderMarkdownLines_eq hpos, markdownPieces]
  intro line hline
  obtain ⟨row, hrow, rfl⟩ := mem_map.mp hline
  rcases mem_orEmpty hrow with hrow | rfl
  · obtain ⟨ink, hink, rfl⟩ := mem_map.mp hrow
    obtain ⟨hpart, hwidth⟩ := visibleWidth_rowString (hrunes ink hink)
    have hstring : rowString (writeOut ink ++ [.sgr ansiReset]) =
        rowString (writeOut ink) ++ ansiReset.code := by
      simp [rowString, Piece.bytes]
    rw [hstring, hpart.visibleWidth_append (part_code _), hwidth, visibleWidth_code]
    exact hrows.width_le ink hink
  · exact Nat.zero_le _

theorem getElem?_middle {α : Type} {before l after : List α} {a : α} (hbefore : a ∉ before)
    (hafter : a ∉ after) {k : ℕ} (h : (before ++ (l ++ after))[k]? = some a) :
    before.length ≤ k ∧ l[k - before.length]? = some a := by
  rw [getElem?_append] at h
  split_ifs at h with hk
  · exact absurd (mem_of_getElem? h) hbefore
  · rw [getElem?_append] at h
    split_ifs at h
    · exact ⟨not_lt.mp hk, h⟩
    · exact absurd (mem_of_getElem? h) hafter

/-- The separator has no sanitised text, but as many runes as fit. -/
theorem renderWorkedLine_width_le (hpos : 0 < width) {label : GoString}
    (hlabel : trimSpace label ≠ []) (hsplit : Unsplit (toRunes (trimSpace label)))
    (hcut : 3 < width → (toRunes (trimSpace label))[width - 4]? ≠ some 0x1B) :
    visibleWidth (renderWorkedLine label width ++ ansiReset.code) ≤ width := by
  obtain ⟨n, hrunes⟩ := toRunes_renderWorkedLine hpos hlabel
  have hlen : (toRunes (renderWorkedLine label width)).length ≤ width := by
    rw [hrunes]
    exact length_take_le _ _
  have htail : 0x1B ∉ 0x20 :: replicate n 0x2500 := by simp [mem_replicate]
  refine (visibleWidth_le_length ?_ (part_code _).boundary (visibleWidth_code _) (by decide)
    (by decide) (by decide) fun hlast => ?_).trans hlen
  · rw [hrunes]
    refine List.IsChain.take (isChain_append.mpr ⟨by decide, isChain_append.mpr
      ⟨hsplit, unsplit_of_esc_not_mem htail, fun _ _ r hr _ => ?_⟩, fun r hr _ _ hesc => ?_⟩) width
    · obtain rfl := Option.some.inj hr
      decide
    · rw [hesc] at hr
      exact absurd (Option.some.inj hr) (by decide)
  · -- the last rune is one of the label
    rw [hrunes, getLast?_take, if_neg (by omega), Option.or_eq_some_iff] at hlast
    rcases hlast with hlast | ⟨-, hlast⟩
    · obtain ⟨hle, hin⟩ := getElem?_middle (by decide) htail hlast
      exact absurd hin (hcut (by simp at hle; omega))
    · rw [← getLast?_of_suffix ((suffix_append _ _).trans (suffix_append _ _)) (cons_ne_nil _ _)]
        at hlast
      exact absurd (mem_of_getLast? hlast) htail

theorem renderLineWorked_width_le (hpos : 0 < width)
    (hsplit : Unsplit (toRunes (trimSpace text)))
    (hcut : 3 < width → (toRunes (trimSpace text))[width - 4]? ≠ some 0x1B) (theme : TuiTheme) :
    visibleWidth (renderLineWorked text width theme) ≤ width := by
  rw [renderLineWorked, append_assoc, (workedStyle theme).visibleWidth_append]
  split_ifs with hblank
  · have hnone : 0x1B ∉ toRunes (trimSpace (lit "Worked")) := by decide
    exact renderWorkedLine_width_le hpos (by decide) (unsplit_of_esc_not_mem hnone)
      fun _ h => hnone (mem_of_getElem? h)
  · rw [← trimSpace_trimSpace text] at hsplit hcut
    exact renderWorkedLine_width_le hpos (by rwa [trimSpace_trimSpace]) hsplit hcut

theorem renderLines_width_le (hpos : 0 < width) {raw : GoString}
    (hworked : (classifyLine raw).kind = .lineWorked →
      Unsplit (toRunes (trimSpace (classifyLine raw).text)) ∧
        (3 < width → (toRunes (trimSpace (classifyLine raw).text))[width - 4]? ≠ some 0x1B))
    (theme : TuiTheme) : ∀ line ∈ renderLines raw width theme, visibleWidth line ≤ width := by
  rw [renderLines, if_neg (by omega)]
  dsimp only
  cases hlayout : layout theme (classifyLine raw).kind with
  | markdown style => exact renderMarkdownLines_width_le hpos style
  | styled style => exact wrapStyledLines_width_le hpos style
  | worked =>
    obtain ⟨hsplit, hcut⟩ := hworked (layout_eq_worked.mp hlayout)
    exact forall_mem_singleton.mpr (renderLineWorked_width_le hpos hsplit hcut theme)
  | plain => exact fun line hline => (wrapPlainLines_width_le hpos line hline).2

theorem renderViewport_length (viewLines : List GoString) (width height : ℕ) (theme : TuiTheme)
    (atBottom : Bool) : (renderViewport viewLines width height theme atBottom).length = height := by
  rw [renderViewport]
  dsimp only
  split_ifs with hzero
  · exact hzero.symm
  · rw [length_append, length_drop, length_replicate]
    omega
  · rw [length_append, length_take, length_replicate]
    omega

theorem renderViewport_width_le (hpos : 0 < width) {viewLines : List GoString}
    (hworked : ∀ raw ∈ viewLines, (classifyLine raw).kind = .lineWorked →
      Unsplit (toRunes (trimSpace (classifyLine raw).text)) ∧
        (3 < width → (toRunes (trimSpace (classifyLine raw).text))[width - 4]? ≠ some 0x1B))
    (height : ℕ) (theme : TuiTheme) (atBottom : Bool) :
    ∀ line ∈ renderViewport viewLines width height theme atBottom, visibleWidth line ≤ width := by
  have hall : ∀ line ∈ viewLines.flatMap fun raw => renderLines raw width theme,
      visibleWidth line ≤ width := by
    intro line hline
    obtain ⟨raw, hraw, hmem⟩ := mem_flatMap.mp hline
    exact renderLines_width_le hpos (hworked raw hraw) theme line hmem
  have hpad : ∀ n, ∀ line ∈ replicate n ([] : GoString), visibleWidth line ≤ width := by
    intro n line hline
    rw [(mem_replicate.mp hline).2]
    exact Nat.zero_le _
  rw [renderViewport]
  dsimp only
  split_ifs
  · simp
  · exact forall_mem_append.mpr ⟨fun line h => hall line (mem_of_mem_drop h), hpad _⟩
  · exact forall_mem_append.mpr ⟨fun line h => hall line (mem_of_mem_take h), hpad _⟩

namespace Terminal

variable {t : Terminal}

/-- The rows of the input lines do not depend on the style of the prompt. -/
theorem input_ok (t : Terminal) {width : ℕ} (hpos : 0 < width) (theme : ScreenTheme) :
    (renderInputLines (stylePromptPrefix t.inputDisplay.1 theme) t.inputDisplay.2
      t.session.editor.cursor width).lines.length =
        inputRows (max 1 (width - visibleWidth t.inputDisplay.1)) (toRunes t.inputDisplay.2) := by
  rw [(renderInputLines_ok _ _ _ hpos).rows_eq, (stylePromptPrefix_spec _ theme).width_eq]

/-- A page is what the frame shows of the buffer: between the tab bar and the rows of the wrapped
input there is a viewport of its height. -/
theorem render_rows (t : Terminal) (hwidth : 1 ≤ t.width) (hheight : 1 ≤ t.height) :
    let theme := themeForName t.themeName
    let view := renderViewport t.viewLines t.width t.viewHeight theme.toTuiTheme
      (if t.session.activeTab = [] then t.system.atBottom else t.buffer.atBottom)
    let input := (renderInputLines (stylePromptPrefix t.inputDisplay.1 theme) t.inputDisplay.2
      t.session.editor.cursor t.width).lines
    t.render.2.lines =
        (renderTabBar t.tabs t.session.activeTab t.width theme t.tabWindowStart).1 ::
          (view ++ input) ∧
      view.length = t.viewHeight ∧
      input.length = inputRows (max 1 (t.width - visibleWidth t.inputDisplay.1))
        (toRunes t.inputDisplay.2) := by
  have hstyled := input_ok t hwidth (themeForName t.themeName)
  have hplain := renderInputLines_ok t.inputDisplay.1 t.inputDisplay.2 t.session.editor.cursor
    hwidth
  have hrow := Nat.le_trans hplain.cursorRow_pos hplain.cursorRow_le
  have hpage : t.viewHeight = t.height - 1 - inputRows
      (max 1 (t.width - visibleWidth t.inputDisplay.1)) (toRunes t.inputDisplay.2) := by
    rw [viewHeight]
    simp only [if_neg (show ¬t.width = 0 by omega), hplain.rows_eq] at hrow ⊢
    split_ifs <;> omega
  refine ⟨?_, renderViewport_length .., hstyled⟩
  rw [render, hpage, ← hstyled]
  simp only [if_neg (show ¬t.width = 0 by omega), if_neg (show ¬t.height = 0 by omega)]

/-- A session in which this was typed. -/
def typing (rs : List ℕ) : Session where
  hasHandler := true
  hasAuthStore := true
  editor := .setString (rs.map fun r => ⟨r, false⟩)

/-- One tab, and a text that takes two rows. -/
def twoRows : Terminal where
  session := { typing [0x61, 0x62, 0x0A, 0x63] with activeTab := lit "t1" }
  tabs := [⟨lit "t1", lit "one", lit "repo", [], [], [], .idle, true⟩]
  buffer := ⟨[lit "hello", workedForMarker :: lit "Worked"], 2, 0, true⟩
  width := 12
  height := 5

theorem render_rows_twoRows :
    twoRows.viewHeight = 2 ∧ twoRows.render.2.lines.length = 1 + twoRows.viewHeight + 2 := by
  obtain ⟨hlines, hview, hinput⟩ := render_rows twoRows (by decide) (by decide)
  refine ⟨by decide, ?_⟩
  rw [hlines, length_cons, length_append, hview, hinput,
    show inputRows _ (toRunes twoRows.inputDisplay.2) = 2 by decide]
  omega

/-- A terminal of this size in which this was typed, with lines of the buffer. -/
def sized (width height : ℕ) (rs : List ℕ) (lines : List GoString) : Terminal where
  session := { typing rs with activeTab := lit "t1" }
  buffer := ⟨lines, lines.length, 0, true⟩
  width := width
  height := height

end Terminal

end Centaurx.SshServer
