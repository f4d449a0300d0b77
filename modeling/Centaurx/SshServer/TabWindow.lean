import Centaurx.Lib.Fitting
import Mathlib.Data.List.Basic
import Mathlib.Logic.Function.Iterate

namespace Centaurx.SshServer
open Fitting List Function

structure TabWindow where
  start : Int
  stop : Int
  leftHidden : Bool
  rightHidden : Bool
  deriving DecidableEq, Repr

/-- The loop of `fitForward`, over the labels from `i` on. -/
def forwardLoop (start avail : Int) : Int → Int → Int → List Int → Int
  | _, _, stop, [] => if stop = start then start + 1 else stop
  | i, sum, stop, w :: ws =>
    if sum + w > avail then
      if i = start then start + 1 else if stop = start then start + 1 else stop
    else forwardLoop start avail (i + 1) (sum + w) (i + 1) ws

def fitForward (widths : List Int) (start avail : Int) : Int :=
  let n : Int := widths.length
  if n = 0 then 0
  else
    let start := if start < 0 then 0 else start
    if start ≥ n then n
    else
      let avail := if avail < 1 then 1 else avail
      forwardLoop start avail start 0 start (widths.drop start.toNat)

/-- The loop of `fitBackward`, over the labels from `i` down. -/
def backwardLoop (stop avail : Int) : Int → Int → Int → List Int → Int
  | _, _, start, [] => if start = stop then stop - 1 else start
  | i, sum, start, w :: ws =>
    if sum + w > avail then
      if i = stop - 1 then stop - 1 else if start = stop then stop - 1 else start
    else backwardLoop stop avail (i - 1) (sum + w) i ws

def fitBackward (widths : List Int) (stop avail : Int) : Int :=
  let n : Int := widths.length
  if n = 0 then 0
  else if stop < 1 then 0
  else
    let stop := if stop > n then n else stop
    let avail := if avail < 1 then 1 else avail
    backwardLoop stop avail (stop - 1) 0 stop (widths.take stop.toNat).reverse

/-- The labels that fit, at least one, from the first one on. -/
theorem forwardLoop_eq {start i : Int} (hi : start ≤ i) (avail sum : Int) (ws : List Int) :
    forwardLoop start avail i sum i ws =
      if i = start then start + (max 1 (fitCount (avail - sum) ws) : ℕ)
      else i + fitCount (avail - sum) ws := by
  induction ws generalizing i sum with
  | nil =>
    rw [forwardLoop, fitCount]
    split_ifs <;> simp
  | cons w ws ih =>
    rw [forwardLoop, fitCount]
    by_cases hfull : sum + w > avail
    · have hless : avail - sum < w := by omega
      rw [if_pos hfull, if_pos hless]
      split_ifs <;> simp
    · have hfits : ¬avail - sum < w := by omega
      have hroom : avail - (sum + w) = avail - sum - w := by omega
      rw [if_neg hfull, if_neg hfits, ih (by omega), if_neg (by omega), hroom]
      split_ifs <;> omega

theorem backwardLoop_eq {stop i : Int} (hi : i < stop) (avail sum : Int) (ws : List Int) :
    backwardLoop stop avail i sum (i + 1) ws =
      if i = stop - 1 then stop - (max 1 (fitCount (avail - sum) ws) : ℕ)
      else i + 1 - fitCount (avail - sum) ws := by
  induction ws generalizing i sum with
  | nil =>
    rw [backwardLoop, fitCount]
    split_ifs <;> omega
  | cons w ws ih =>
    rw [backwardLoop, fitCount]
    by_cases hfull : sum + w > avail
    · have hless : avail - sum < w := by omega
      rw [if_pos hfull, if_pos hless]
      split_ifs <;> omega
    · have hfits : ¬avail - sum < w := by omega
      have hroom : avail - (sum + w) = avail - sum - w := by omega
      have hnext := ih (show i - 1 < stop by omega) (sum + w)
      rw [Int.sub_add_cancel, if_neg (by omega), hroom] at hnext
      rw [if_neg hfull, if_neg hfits, hnext]
      split_ifs <;> omega

section Fit
variable {widths : List Int} {start stop : Int}

theorem fitForward_eq (h0 : 0 ≤ start) (hn : start < widths.length) (avail : Int) :
    fitForward widths start avail =
      start + (max 1 (fitCount (max 1 avail) (widths.drop start.toNat)) : ℕ) := by
  have havail : (if avail < 1 then 1 else avail) = max 1 avail := by split_ifs <;> omega
  simp only [fitForward, if_neg (show ¬(widths.length : Int) = 0 by omega),
    if_neg (show ¬start < 0 by omega), if_neg (show ¬start ≥ widths.length by omega), havail]
  rw [forwardLoop_eq le_rfl, if_pos rfl, Int.sub_zero]

theorem fitBackward_eq (h1 : 1 ≤ stop) (hn : stop ≤ widths.length) (avail : Int) :
    fitBackward widths stop avail =
      stop - (max 1 (fitCount (max 1 avail) (widths.take stop.toNat).reverse) : ℕ) := by
  have havail : (if avail < 1 then 1 else avail) = max 1 avail := by split_ifs <;> omega
  simp only [fitBackward, if_neg (show ¬(widths.length : Int) = 0 by omega),
    if_neg (show ¬stop < 1 by omega), if_neg (show ¬stop > widths.length by omega), havail]
  have h := backwardLoop_eq (show stop - 1 < stop by omega) (max 1 avail) 0
    (widths.take stop.toNat).reverse
  rw [Int.sub_add_cancel, if_pos rfl, Int.sub_zero] at h
  exact h

theorem fitForward_bounds (h0 : 0 ≤ start) (hn : start < widths.length) (avail : Int) :
    start < fitForward widths start avail ∧ fitForward widths start avail ≤ widths.length := by
  have hfit := fitCount_le_length (max 1 avail) (widths.drop start.toNat)
  rw [length_drop] at hfit
  rw [fitForward_eq h0 hn]
  omega

theorem fitBackward_bounds (h1 : 1 ≤ stop) (hn : stop ≤ widths.length) (avail : Int) :
    0 ≤ fitBackward widths stop avail ∧ fitBackward widths stop avail < stop := by
  have hfit := fitCount_le_length (max 1 avail) (widths.take stop.toNat).reverse
  rw [length_reverse, length_take] at hfit
  rw [fitBackward_eq h1 hn]
  omega

end Fit

/-- The columns that are left beside the marks. -/
def availWidth (width : Int) (leftHidden rightHidden : Bool) : Int :=
  let avail := width
  let avail := if leftHidden then avail - 1 else avail
  let avail := if rightHidden then avail - 1 else avail
  if avail < 1 then 1 else avail

/-- A round of `tabWindowFromStart` and `tabWindowActiveLeft`. -/
def forwardRound (widths : List Int) (width : Int) (w : TabWindow) : TabWindow :=
  let stop := fitForward widths w.start (availWidth width w.leftHidden w.rightHidden)
  { w with stop := stop, rightHidden := stop < widths.length, leftHidden := w.start > 0 }

/-- A round of `tabWindowActiveRight`. -/
def backwardRound (widths : List Int) (width : Int) (w : TabWindow) : TabWindow :=
  let start := fitBackward widths w.stop (availWidth width w.leftHidden w.rightHidden)
  { w with start := start, leftHidden := start > 0, rightHidden := w.stop < widths.length }

/-- An index is brought within the list. -/
def clampIndex (i n : Int) : Int :=
  let i := if i < 0 then 0 else i
  if i ≥ n then n - 1 else i

def tabWindowFromStart (widths : List Int) (start width : Int) : TabWindow :=
  let n : Int := widths.length
  if n = 0 then ⟨0, 0, false, false⟩
  else
    let start := clampIndex start n
    (forwardRound widths width)^[3] ⟨start, start + 1, start > 0, false⟩

def tabWindowActiveLeft (widths : List Int) (activeIndex width : Int) : TabWindow :=
  let n : Int := widths.length
  if n = 0 then ⟨0, 0, false, false⟩
  else
    let start := clampIndex activeIndex n
    (forwardRound widths width)^[3] ⟨start, start + 1, start > 0, false⟩

def tabWindowActiveRight (widths : List Int) (activeIndex width : Int) : TabWindow :=
  let n : Int := widths.length
  if n = 0 then ⟨0, 0, false, false⟩
  else
    let stop := clampIndex activeIndex n + 1
    (backwardRound widths width)^[3] ⟨stop - 1, stop, false, stop < n⟩

/-- The choice that `renderTabBar` makes. -/
def selectTabWindow (widths : List Int) (activeIndex windowStart width : Int) : TabWindow :=
  if widths.sum ≤ width then ⟨0, widths.length, false, false⟩
  else
    let window := tabWindowFromStart widths windowStart width
    if activeIndex < window.start then tabWindowActiveLeft widths activeIndex width
    else if activeIndex ≥ window.stop then tabWindowActiveRight widths activeIndex width
    else window

/-- A part of the list that is not empty, with the marks on what is hidden. -/
structure TabWindow.Ok (n : Int) (w : TabWindow) : Prop where
  start_nonneg : 0 ≤ w.start
  start_lt : w.start < w.stop
  stop_le : w.stop ≤ n
  leftHidden_eq : w.leftHidden = decide (w.start > 0)
  rightHidden_eq : w.rightHidden = decide (w.stop < n)

theorem clampIndex_bounds (i : Int) {n : Int} (hn : 0 < n) :
    0 ≤ clampIndex i n ∧ clampIndex i n < n := by
  simp only [clampIndex]
  split_ifs <;> omega

theorem clampIndex_eq {i n : Int} (h0 : 0 ≤ i) (hn : i < n) : clampIndex i n = i := by
  simp only [clampIndex]
  split_ifs <;> omega

theorem forwardRounds_ok {widths : List Int} (width : Int) {start : Int} (h0 : 0 ≤ start)
    (hn : start < widths.length) {w : TabWindow} (hw : w.start = start) :
    ((forwardRound widths width)^[3] w).Ok widths.length ∧
      ((forwardRound widths width)^[3] w).start = start := by
  have hstart : ((forwardRound widths width)^[2] w).start = start := hw
  rw [iterate_succ_apply', forwardRound]
  have hfit := fitForward_bounds (hstart.symm ▸ h0) (hstart.symm ▸ hn)
    (availWidth width ((forwardRound widths width)^[2] w).leftHidden
      ((forwardRound widths width)^[2] w).rightHidden)
  exact ⟨⟨hstart.symm ▸ h0, hfit.1, hfit.2, rfl, rfl⟩, hstart⟩

theorem backwardRounds_ok {widths : List Int} (width : Int) {stop : Int} (h1 : 1 ≤ stop)
    (hn : stop ≤ widths.length) {w : TabWindow} (hw : w.stop = stop) :
    ((backwardRound widths width)^[3] w).Ok widths.length ∧
      ((backwardRound widths width)^[3] w).stop = stop := by
  have hstop : ((backwardRound widths width)^[2] w).stop = stop := hw
  rw [iterate_succ_apply', backwardRound]
  have hfit := fitBackward_bounds (hstop.symm ▸ h1) (hstop.symm ▸ hn)
    (availWidth width ((backwardRound widths width)^[2] w).leftHidden
      ((backwardRound widths width)^[2] w).rightHidden)
  exact ⟨⟨hfit.1, hfit.2, hstop.symm ▸ hn, rfl, rfl⟩, hstop⟩

section Rounds
variable {widths : List Int} {i : Int} (h0 : 0 ≤ i) (hn : i < widths.length)

include h0 hn

theorem tabWindowActiveLeft_eq (width : Int) :
    tabWindowActiveLeft widths i width =
      (forwardRound widths width)^[3] ⟨i, i + 1, i > 0, false⟩ := by
  simp only [tabWindowActiveLeft, if_neg (show ¬(widths.length : Int) = 0 by omega),
    clampIndex_eq h0 hn]

theorem tabWindowActiveRight_eq (width : Int) :
    tabWindowActiveRight widths i width =
      (backwardRound widths width)^[3] ⟨i + 1 - 1, i + 1, false, i + 1 < widths.length⟩ := by
  simp only [tabWindowActiveRight, if_neg (show ¬(widths.length : Int) = 0 by omega),
    clampIndex_eq h0 hn]

end Rounds

theorem tabWindowFromStart_eq {widths : List Int} (hne : widths ≠ []) (start width : Int) :
    tabWindowFromStart widths start width =
      (forwardRound widths width)^[3] ⟨clampIndex start widths.length,
        clampIndex start widths.length + 1, clampIndex start widths.length > 0, false⟩ := by
  have hpos := length_pos_of_ne_nil hne
  rw [tabWindowFromStart]
  simp only [if_neg (show ¬(widths.length : Int) = 0 by omega)]

theorem tabWindowFromStart_ok {widths : List Int} (hne : widths ≠ []) (start width : Int) :
    (tabWindowFromStart widths start width).Ok widths.length := by
  have hpos := length_pos_of_ne_nil hne
  have hbounds := clampIndex_bounds start (n := widths.length) (by omega)
  rw [tabWindowFromStart_eq hne]
  exact (forwardRounds_ok width hbounds.1 hbounds.2 rfl).1

/-- **The window.** Whatever was shown before, the active tab is shown now. -/
theorem selectTabWindow_shows_active {widths : List Int} {activeIndex : Int}
    (h0 : 0 ≤ activeIndex) (hn : activeIndex < widths.length) (windowStart width : Int) :
    (selectTabWindow widths activeIndex windowStart width).Ok widths.length ∧
      (selectTabWindow widths activeIndex windowStart width).start ≤ activeIndex ∧
      activeIndex < (selectTabWindow widths activeIndex windowStart width).stop := by
  have hne : widths ≠ [] := fun h => by
    rw [h, length_nil] at hn
    omega
  have hok := tabWindowFromStart_ok hne windowStart width
  simp only [selectTabWindow]
  split_ifs with hfits hleft hright
  · exact ⟨⟨le_rfl, lt_of_le_of_lt h0 hn, le_rfl, rfl, by simp⟩, h0, hn⟩
  · rw [tabWindowActiveLeft_eq h0 hn]
    obtain ⟨hok, hstart⟩ := forwardRounds_ok width h0 hn (w := ⟨activeIndex, activeIndex + 1,
      activeIndex > 0, false⟩) rfl
    exact ⟨hok, hstart.le, hstart ▸ hok.start_lt⟩
  · rw [tabWindowActiveRight_eq h0 hn]
    have hstop' : activeIndex + 1 ≤ widths.length := by omega
    obtain ⟨hok, hstop⟩ := backwardRounds_ok width (by omega) hstop'
      (w := ⟨activeIndex + 1 - 1, activeIndex + 1, false, activeIndex + 1 < widths.length⟩) rfl
    have hlt := hok.start_lt
    exact ⟨hok, by omega, by omega⟩
  · exact ⟨hok, by omega, by omega⟩

end Centaurx.SshServer
