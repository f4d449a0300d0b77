import Centaurx.SshServer.TabWindow

namespace Centaurx.TabStrip
open SshServer

def clampStart (start n : Int) : Int :=
  if start < 0 then 0 else if start ≥ n then n - 1 else start

def normalizeActive (activeIndex n : Int) : Int :=
  if activeIndex < 0 ∨ activeIndex ≥ n then 0 else activeIndex

/-- The loop of `fitForward`, over the tabs from `i` on. -/
def forwardLoop (start avail gap : Int) : Int → Int → Int → List Int → Int
  | _, _, stop, [] => if stop = start then start + 1 else stop
  | i, sum, stop, w :: ws =>
    let add := if i > start then w + gap else w
    if sum + add > avail then
      if i = start then start + 1 else if stop = start then start + 1 else stop
    else forwardLoop start avail gap (i + 1) (sum + add) (i + 1) ws

def fitForward (widths : List Int) (start avail gap : Int) : Int :=
  let n : Int := widths.length
  if n = 0 then 0
  else
    let start := if start < 0 then 0 else start
    if start ≥ n then n
    else
      let avail := if avail < 1 then 1 else avail
      forwardLoop start avail gap start 0 start (widths.drop start.toNat)

/-- The loop of `fitBackward`, over the tabs from `i` down. -/
def backwardLoop (stop avail gap : Int) : Int → Int → Int → List Int → Int
  | _, _, start, [] => if start = stop then stop - 1 else start
  | i, sum, start, w :: ws =>
    let add := if i < stop - 1 then w + gap else w
    if sum + add > avail then
      if i = stop - 1 then stop - 1 else if start = stop then stop - 1 else start
    else backwardLoop stop avail gap (i - 1) (sum + add) i ws

def fitBackward (widths : List Int) (stop avail gap : Int) : Int :=
  let n : Int := widths.length
  if n = 0 then 0
  else if stop < 1 then 0
  else
    let stop := if stop > n then n else stop
    let avail := if avail < 1 then 1 else avail
    backwardLoop stop avail gap (stop - 1) 0 stop (widths.take stop.toNat).reverse

/-- What is measured besides the tabs. -/
structure Measures where
  barWidth : Int
  leftWidth : Int
  rightWidth : Int
  gap : Int

def Measures.avail (m : Measures) (leftHidden rightHidden : Bool) : Int :=
  let avail := m.barWidth
  let avail := if leftHidden then avail - m.leftWidth else avail
  let avail := if rightHidden then avail - m.rightWidth else avail
  if avail < 1 then 1 else avail

/-- A round of `windowFromStart` and `windowActiveLeft`. -/
def forwardRound (widths : List Int) (m : Measures) (w : TabWindow) : TabWindow :=
  let stop := fitForward widths w.start (m.avail w.leftHidden w.rightHidden) m.gap
  { w with stop := stop, rightHidden := stop < widths.length, leftHidden := w.start > 0 }

/-- A round of `windowActiveRight`. -/
def backwardRound (widths : List Int) (m : Measures) (w : TabWindow) : TabWindow :=
  let start := fitBackward widths w.stop (m.avail w.leftHidden w.rightHidden) m.gap
  { w with start := start, leftHidden := start > 0, rightHidden := w.stop < widths.length }

def windowFromStart (widths : List Int) (start : Int) (m : Measures) : TabWindow :=
  let n : Int := widths.length
  if n = 0 then ⟨0, 0, false, false⟩
  else
    let start := clampStart start n
    (forwardRound widths m)^[3] ⟨start, start + 1, start > 0, false⟩

def windowActiveLeft (widths : List Int) (activeIndex : Int) (m : Measures) : TabWindow :=
  let n : Int := widths.length
  if n = 0 then ⟨0, 0, false, false⟩
  else
    let start := normalizeActive activeIndex n
    (forwardRound widths m)^[3] ⟨start, start + 1, start > 0, false⟩

def windowActiveRight (widths : List Int) (activeIndex : Int) (m : Measures) : TabWindow :=
  let n : Int := widths.length
  if n = 0 then ⟨0, 0, false, false⟩
  else
    let stop := min (normalizeActive activeIndex n + 1) n
    (backwardRound widths m)^[3] ⟨stop - 1, stop, false, stop < n⟩

/-- The measures as `resolveWindow` uses them. -/
def Measures.corrected (m : Measures) : Measures :=
  { m with
    barWidth := if m.barWidth < 1 then 1 else m.barWidth
    gap := if m.gap < 0 then 0 else m.gap }

def resolveWindow (widths : List Int) (activeIndex start : Int) (m : Measures) : TabWindow :=
  let n : Int := widths.length
  if n = 0 then ⟨0, 0, false, false⟩
  else
    let m := m.corrected
    let activeIndex := normalizeActive activeIndex n
    let start := clampStart start n
    let total := widths.sum
    let total := if n > 1 then total + m.gap * (n - 1) else total
    if total ≤ m.barWidth then ⟨0, n, false, false⟩
    else
      let window := windowFromStart widths start m
      if activeIndex < window.start then windowActiveLeft widths activeIndex m
      else if activeIndex ≥ window.stop then windowActiveRight widths activeIndex m
      else window

/-- The measures of a terminal: no gap, and a column for each mark. -/
def Measures.terminal (width : Int) : Measures := ⟨width, 1, 1, 0⟩

variable {widths : List Int} {activeIndex : Int}

theorem corrected_terminal {width : Int} (h : 1 ≤ width) :
    (Measures.terminal width).corrected = .terminal width := by
  show Measures.mk (if width < 1 then 1 else width) 1 1 0 = _
  rw [if_neg (by omega)]
  rfl

theorem clampStart_eq {n : Int} (hn : 0 < n) (start : Int) :
    clampStart start n = clampIndex start n := by
  simp only [clampStart, clampIndex]
  split_ifs <;> omega

theorem normalizeActive_eq {n : Int} (h0 : 0 ≤ activeIndex) (hn : activeIndex < n) :
    normalizeActive activeIndex n = activeIndex :=
  if_neg (by omega)

theorem forwardLoop_eq (start avail i sum stop : Int) (ws : List Int) :
    forwardLoop start avail 0 i sum stop ws = SshServer.forwardLoop start avail i sum stop ws := by
  induction ws generalizing i sum stop with
  | nil => rfl
  | cons w ws ih => simp only [forwardLoop, SshServer.forwardLoop, add_zero, ite_self, ih]

theorem backwardLoop_eq (stop avail i sum start : Int) (ws : List Int) :
    backwardLoop stop avail 0 i sum start ws =
      SshServer.backwardLoop stop avail i sum start ws := by
  induction ws generalizing i sum start with
  | nil => rfl
  | cons w ws ih => simp only [backwardLoop, SshServer.backwardLoop, add_zero, ite_self, ih]

theorem fitForward_eq (widths : List Int) (start avail : Int) :
    fitForward widths start avail 0 = SshServer.fitForward widths start avail := by
  simp only [fitForward, SshServer.fitForward, forwardLoop_eq]

theorem fitBackward_eq (widths : List Int) (stop avail : Int) :
    fitBackward widths stop avail 0 = SshServer.fitBackward widths stop avail := by
  simp only [fitBackward, SshServer.fitBackward, backwardLoop_eq]

theorem avail_terminal (width : Int) (leftHidden rightHidden : Bool) :
    (Measures.terminal width).avail leftHidden rightHidden =
      availWidth width leftHidden rightHidden := rfl

theorem forwardRound_eq (widths : List Int) (width : Int) :
    forwardRound widths (.terminal width) = SshServer.forwardRound widths width := by
  funext w
  rw [forwardRound, SshServer.forwardRound, avail_terminal, ← fitForward_eq]
  rfl

theorem backwardRound_eq (widths : List Int) (width : Int) :
    backwardRound widths (.terminal width) = SshServer.backwardRound widths width := by
  funext w
  rw [backwardRound, SshServer.backwardRound, avail_terminal, ← fitBackward_eq]
  rfl

theorem windowFromStart_eq (hpos : 0 < widths.length) (start width : Int) :
    windowFromStart widths (clampStart start widths.length) (.terminal width) =
      tabWindowFromStart widths start width := by
  have hn : 0 < (widths.length : Int) := by omega
  obtain ⟨h0, hlt⟩ := clampIndex_bounds start hn
  simp only [windowFromStart, tabWindowFromStart, clampStart_eq hn, clampIndex_eq h0 hlt,
    forwardRound_eq]

theorem windowActiveLeft_eq (h0 : 0 ≤ activeIndex) (hn : activeIndex < widths.length)
    (width : Int) :
    windowActiveLeft widths activeIndex (.terminal width) =
      tabWindowActiveLeft widths activeIndex width := by
  simp only [windowActiveLeft, tabWindowActiveLeft, normalizeActive_eq h0 hn, clampIndex_eq h0 hn,
    forwardRound_eq]

theorem windowActiveRight_eq (h0 : 0 ≤ activeIndex) (hn : activeIndex < widths.length)
    (width : Int) :
    windowActiveRight widths activeIndex (.terminal width) =
      tabWindowActiveRight widths activeIndex width := by
  have hstop : min (activeIndex + 1) (widths.length : Int) = activeIndex + 1 := by omega
  simp only [windowActiveRight, tabWindowActiveRight, normalizeActive_eq h0 hn,
    clampIndex_eq h0 hn, hstop, backwardRound_eq]

/-- **One window.** With the measures of a terminal the browser shows the tabs, and the marks,
that the tab bar of the terminal shows. -/
theorem resolveWindow_eq_selectTabWindow (h0 : 0 ≤ activeIndex) (hn : activeIndex < widths.length)
    (start : Int) {barWidth : Int} (hbar : 1 ≤ barWidth) :
    resolveWindow widths activeIndex start (.terminal barWidth) =
      selectTabWindow widths activeIndex start barWidth := by
  have hpos : 0 < widths.length := by omega
  -- without a gap, nothing is added to the sum of the widths
  have htotal : (if (widths.length : Int) > 1 then
      widths.sum + (Measures.terminal barWidth).gap * (widths.length - 1) else widths.sum) =
        widths.sum := by
    simp only [Measures.terminal, zero_mul, add_zero, ite_self]
  simp only [resolveWindow, if_neg (show ¬(widths.length : Int) = 0 by omega),
    corrected_terminal hbar, htotal, normalizeActive_eq h0 hn, windowFromStart_eq hpos,
    windowActiveLeft_eq h0 hn, windowActiveRight_eq h0 hn, selectTabWindow]
  rfl

/-- Five tabs in a bar of twelve columns: the window moves to the right up to the active tab. -/
theorem resolveWindow_eq_selectTabWindow_right :
    resolveWindow [4, 4, 4, 4, 4] 3 0 (.terminal 12) = ⟨2, 4, true, true⟩ :=
  (resolveWindow_eq_selectTabWindow (by decide) (by decide) 0 (by decide)).trans (by decide)

end Centaurx.TabStrip
