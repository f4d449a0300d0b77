import Centaurx.Core.Tab
import Centaurx.SshServer.TabWindow
import Centaurx.SshServer.VisibleWidth

namespace Centaurx.SshServer
open Go List

/-- A theme with the colours of the tab bar and of the prompt. -/
structure ScreenTheme extends TuiTheme where
  tabBarBG : RGB
  tabActiveBG : RGB
  tabActiveFG : RGB
  tabInactiveBG : RGB
  tabInactiveFG : RGB
  promptFG : RGB
  spinnerFG : RGB

def outrunScreen : ScreenTheme where
  toTuiTheme := outrun
  tabBarBG := ⟨32, 8, 56⟩
  tabActiveBG := ⟨0, 229, 255⟩
  tabActiveFG := ⟨10, 13, 23⟩
  tabInactiveBG := ⟨32, 8, 56⟩
  tabInactiveFG := ⟨240, 241, 255⟩
  promptFG := ⟨255, 255, 255⟩
  spinnerFG := ⟨110, 136, 255⟩

def gruvboxScreen : ScreenTheme where
  tabBarBG := ⟨60, 56, 54⟩
  tabActiveBG := ⟨250, 189, 47⟩
  tabActiveFG := ⟨40, 40, 40⟩
  tabInactiveBG := ⟨60, 56, 54⟩
  tabInactiveFG := ⟨235, 219, 178⟩
  errorFG := ⟨251, 73, 52⟩
  stderrFG := ⟨211, 134, 155⟩
  metaFG := ⟨146, 131, 116⟩
  promptFG := ⟨255, 255, 255⟩
  spinnerFG := ⟨131, 165, 152⟩
  reasoningFG := ⟨131, 165, 152⟩
  reasoningBold := ⟨214, 93, 14⟩
  codeFG := ⟨250, 189, 47⟩
  aboutLinkFG := ⟨250, 189, 47⟩
  aboutCopyrightFG := ⟨75, 110, 166⟩
  helpArgFG := ⟨131, 165, 152⟩

def tokyoMidnightScreen : ScreenTheme where
  tabBarBG := ⟨26, 27, 38⟩
  tabActiveBG := ⟨122, 162, 247⟩
  tabActiveFG := ⟨26, 27, 38⟩
  tabInactiveBG := ⟨26, 27, 38⟩
  tabInactiveFG := ⟨192, 202, 245⟩
  errorFG := ⟨247, 118, 142⟩
  stderrFG := ⟨187, 154, 247⟩
  metaFG := ⟨127, 133, 163⟩
  promptFG := ⟨255, 255, 255⟩
  spinnerFG := ⟨122, 162, 247⟩
  reasoningFG := ⟨122, 162, 247⟩
  reasoningBold := ⟨187, 154, 247⟩
  codeFG := ⟨158, 206, 106⟩
  aboutLinkFG := ⟨122, 162, 247⟩
  aboutCopyrightFG := ⟨59, 79, 159⟩
  helpArgFG := ⟨125, 207, 255⟩

def tuiThemes : List (ThemeName × ScreenTheme) :=
  [(lit "outrun", outrunScreen), (lit "gruvbox", gruvboxScreen),
    (lit "tokyo-midnight", tokyoMidnightScreen)]

/-- A name that is empty or not known stands for the default theme. -/
def themeForName (name : ThemeName) : ScreenTheme :=
  let name := if name = [] then defaultTheme else name
  (tuiThemes.lookup name).getD outrunScreen

def truncateName (name : GoString) (max : ℕ) : GoString :=
  if max = 0 then []
  else
    let runes := toRunes name
    if runes.length ≤ max then name
    else if max = 1 then lit "$"
    else ofRunes (runes.take (max - 1) ++ [0x24])

/-- The name that a tab is shown with. -/
def shownName (tab : TabView) : GoString :=
  let name := tab.name
  let name := if name = [] then tab.repo else name
  if name = [] then tab.id else name

def tabLabel (tab : TabView) : GoString := lit " " ++ truncateName (shownName tab) 10 ++ lit " "

/-- The last tab with this id, or the first tab. -/
def activeIndex (tabs : List TabView) (active : TabID) : ℕ :=
  tabs.zipIdx.foldl (fun i x => if x.1.id = active then x.2 else i) 0

namespace ScreenTheme

variable (theme : ScreenTheme)

def barStyle : Style := [ansiBgRGB theme.tabBarBG, ansiFgRGB theme.tabInactiveFG]

def activeStyle : Style :=
  [ansiBgRGB theme.tabActiveBG, ansiFgRGB theme.tabActiveFG, ansiBold]

def inactiveStyle : Style := [ansiBgRGB theme.tabInactiveBG, ansiFgRGB theme.tabInactiveFG]

def indicatorStyle : Style :=
  [ansiBgRGB theme.tabBarBG, ansiFgRGB theme.tabInactiveFG, ansiBold]

/-- A label, after which the bar goes on in its own style. -/
def onBar (style : Style) (label : GoString) : GoString :=
  style.code ++ label ++ theme.barStyle.code

def tabOnBar (active : TabID) (tab : TabView) : GoString :=
  theme.onBar (if tab.id = active then theme.activeStyle else theme.inactiveStyle) (tabLabel tab)

/-- The bar with the labels of a window, up to the mark on its right. -/
def windowOnBar (tabs : List TabView) (active : TabID) (window : TabWindow) : GoString :=
  let left := if window.leftHidden then theme.onBar theme.indicatorStyle (lit "<") else []
  let shown := (tabs.take window.stop.toNat).drop window.start.toNat
  theme.barStyle.code ++ left ++ shown.flatMap (theme.tabOnBar active)

end ScreenTheme

/-- Spaces are added up to a width. -/
def padTo (line : GoString) (width : ℕ) : GoString :=
  let visible := visibleWidth line
  if visible < width then line ++ replicate (width - visible) 0x20 else line

/-- The end of every branch of `renderTabBar`. -/
def cutBar (line : GoString) (width : ℕ) : GoString :=
  trimANSIToWidth line width ++ ansiReset.code

/-- The row, and the start of the window for the next time. When all the labels fit, the window
starts over at the first tab. -/
def renderTabBar (tabs : List TabView) (active : TabID) (width : ℕ) (theme : ScreenTheme)
    (windowStart : Int) : GoString × Int :=
  let width := if width = 0 then 80 else width
  if tabs = [] then
    let line := theme.barStyle.code ++ theme.onBar theme.inactiveStyle (lit " no tabs ")
    (cutBar (padTo line width) width, windowStart)
  else
    let widths : List Int := tabs.map fun tab => ((toRunes (tabLabel tab)).length : Int)
    let window := selectTabWindow widths (activeIndex tabs active) windowStart width
    let line := theme.windowOnBar tabs active window
    if window.rightHidden then
      let line := if visibleWidth line > width - 1 then trimANSIToWidth line (width - 1) else line
      let line := padTo line (width - 1) ++ theme.onBar theme.indicatorStyle (lit ">")
      (cutBar line width, window.start)
    else (cutBar (padTo line width) width, window.start)

theorem esc_not_mem_truncateName {name : GoString} (h : esc ∉ name) (max : ℕ) :
    esc ∉ truncateName name max := by
  rw [truncateName]
  simp only
  split_ifs
  · simp
  · exact h
  · decide
  · apply esc_not_mem_ofRunes
    intro hmem
    rcases mem_append.mp hmem with hmem | hmem
    · exact h ((esc_mem_iff name).mpr (mem_of_mem_take hmem))
    · simp at hmem

theorem part_tabLabel {tab : TabView} (h : esc ∉ shownName tab) : Part (tabLabel tab) := by
  have hblank : esc ∉ lit " " := by decide
  refine part_of_esc_not_mem ?_ (boundary_ascii (b := 0x20) (by decide) _)
  rw [tabLabel, mem_append, mem_append]
  exact fun hmem => hmem.elim
    (fun hmem => hmem.elim hblank (esc_not_mem_truncateName h 10)) hblank

theorem part_onBar (theme : ScreenTheme) (style : Style) {label : GoString} (h : Part label) :
    Part (theme.onBar style label) :=
  ((part_style _).append h).append (part_style _)

theorem tidy_padTo {line : GoString} (h : Tidy line) (width : ℕ) : Tidy (padTo line width) := by
  rw [padTo]
  split_ifs
  · exact h.append (part_blanks _).tidy (part_blanks _).boundary
  · exact h

theorem visibleWidth_cutBar {line : GoString} (h : Tidy line) (width : ℕ) :
    visibleWidth (cutBar line width) ≤ width := by
  obtain ⟨htidy, hwidth⟩ := h.trim width
  rw [cutBar, htidy.visibleWidth_append (part_code _).boundary, visibleWidth_code, hwidth]
  exact Nat.min_le_left _ _

theorem part_barText : ∀ label ∈ [lit " no tabs ", lit "<", lit ">"], Part label := by
  have h : ∀ label ∈ [lit " no tabs ", lit "<", lit ">"],
      esc ∉ label ∧ ∀ b ∈ label.head?, cont b = false := by decide +kernel
  exact fun label hmem => part_of_esc_not_mem (h label hmem).1 (h label hmem).2

theorem part_windowOnBar {tabs : List TabView} (hnames : ∀ tab ∈ tabs, esc ∉ shownName tab)
    (active : TabID) (theme : ScreenTheme) (window : TabWindow) :
    Part (theme.windowOnBar tabs active window) := by
  have hmark : Part
      (if window.leftHidden then theme.onBar theme.indicatorStyle (lit "<") else []) := by
    split_ifs
    · exact part_onBar theme _ (part_barText _ (by simp))
    · exact part_nil
  have hshown : Part (((tabs.take window.stop.toNat).drop window.start.toNat).flatMap
      (theme.tabOnBar active)) := by
    refine part_flatMap fun tab htab => part_onBar theme _ (part_tabLabel ?_)
    exact hnames tab (mem_of_mem_take (mem_of_mem_drop htab))
  exact ((part_style theme.barStyle).append hmark).append hshown

theorem renderTabBar_width_le {tabs : List TabView} (hnames : ∀ tab ∈ tabs, esc ∉ shownName tab)
    (active : TabID) {width : ℕ} (hpos : 0 < width) (theme : ScreenTheme) (windowStart : Int) :
    visibleWidth (renderTabBar tabs active width theme windowStart).1 ≤ width := by
  rw [renderTabBar]
  simp only [if_neg (show ¬width = 0 by omega)]
  generalize selectTabWindow _ _ _ _ = window
  have hline := part_windowOnBar hnames active theme window
  have hmark := part_onBar theme theme.indicatorStyle (part_barText (lit ">") (by simp))
  have hnone := part_onBar theme theme.inactiveStyle (part_barText (lit " no tabs ") (by simp))
  split_ifs with htabs hright hwide
  all_goals apply visibleWidth_cutBar
  · exact tidy_padTo ((part_style _).append hnone).tidy _
  · exact (tidy_padTo (hline.tidy.trim (width - 1)).1 _).append hmark.tidy hmark.boundary
  · exact (tidy_padTo hline.tidy _).append hmark.tidy hmark.boundary
  · exact tidy_padTo hline.tidy _

end Centaurx.SshServer
