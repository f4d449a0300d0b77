import Centaurx.SshServer.TabBar

namespace Centaurx.SshServer
open Go Fitting List Function

variable {start : Int} {widths : List Int} {width : Int}

theorem availWidth_eq (width : Int) (left right : Bool) :
    availWidth width left right =
      max 1 (width - (if left then 1 else 0) - if right then 1 else 0) := by
  simp only [availWidth]
  cases left <;> cases right <;> simp only [if_true, Bool.false_eq_true, if_false] <;>
    split_ifs <;> omega

/-- The columns beside the mark on the side where the window does not grow. -/
def roomBeside (width : Int) (hidden : Bool) : Int := width - if hidden then 1 else 0

theorem forwardRound_eq (h0 : 0 ≤ start) (hn : start < widths.length) (stop : Int) (right : Bool) :
    forwardRound widths width ⟨start, stop, start > 0, right⟩ =
      ⟨start, start + markedCount (roomBeside width (start > 0)) (widths.drop start.toNat) right,
        start > 0,
        markedCount (roomBeside width (start > 0)) (widths.drop start.toNat) right <
          (widths.drop start.toNat).length⟩ := by
  have hfit : fitForward widths start (availWidth width (start > 0) right) =
      start + markedCount (roomBeside width (start > 0)) (widths.drop start.toNat) right := by
    rw [availWidth_eq, fitForward_eq h0 hn, max_eq_right (le_max_left 1 _), markedCount, roomBeside]
  simp only [forwardRound, hfit]
  rw [length_drop]
  congr 1
  rw [decide_eq_decide]
  omega

theorem backwardRound_eq {stop : Int} (h1 : 1 ≤ stop) (hn : stop ≤ widths.length) (start : Int)
    (left : Bool) :
    backwardRound widths width ⟨start, stop, left, stop < widths.length⟩ =
      ⟨stop - markedCount (roomBeside width (stop < widths.length))
          (widths.take stop.toNat).reverse left, stop,
        markedCount (roomBeside width (stop < widths.length))
          (widths.take stop.toNat).reverse left < (widths.take stop.toNat).reverse.length,
        stop < widths.length⟩ := by
  have hfit : fitBackward widths stop (availWidth width left (stop < widths.length)) =
      stop - markedCount (roomBeside width (stop < widths.length))
        (widths.take stop.toNat).reverse left := by
    rw [availWidth_eq, fitBackward_eq h1 hn, max_eq_right (le_max_left 1 _), markedCount,
      roomBeside, sub_right_comm]
  simp only [backwardRound, hfit]
  rw [length_reverse, length_take]
  congr 1
  rw [decide_eq_decide]
  omega

theorem forwardRounds_eq (h0 : 0 ≤ start) (hn : start < widths.length) (stop : Int) :
    (forwardRound widths width)^[3] ⟨start, stop, start > 0, false⟩ =
      ⟨start, start + settledCount (roomBeside width (start > 0)) (widths.drop start.toNat),
        start > 0, needsMark (roomBeside width (start > 0)) (widths.drop start.toNat)⟩ := by
  -- the first round finds whether the mark is shown, and the others show it
  rw [iterate_succ_apply, forwardRound_eq h0 hn, ← needsMark,
    iterate_succ_apply, forwardRound_eq h0 hn, ← settledCount, decide_settledCount_lt,
    iterate_one, forwardRound_eq h0 hn, ← settledCount, decide_settledCount_lt]

theorem backwardRounds_eq {stop : Int} (h1 : 1 ≤ stop) (hn : stop ≤ widths.length) (start : Int) :
    (backwardRound widths width)^[3] ⟨start, stop, false, stop < widths.length⟩ =
      ⟨stop - settledCount (roomBeside width (stop < widths.length))
          (widths.take stop.toNat).reverse, stop,
        needsMark (roomBeside width (stop < widths.length)) (widths.take stop.toNat).reverse,
        stop < widths.length⟩ := by
  rw [iterate_succ_apply, backwardRound_eq h1 hn, ← needsMark,
    iterate_succ_apply, backwardRound_eq h1 hn, ← settledCount, decide_settledCount_lt,
    iterate_one, backwardRound_eq h1 hn, ← settledCount, decide_settledCount_lt]

/-- The columns of the labels from `start` on and before `stop`, and of the marks beside them. -/
def shownWidth (widths : List Int) (start stop : Int) : Int :=
  ((widths.take stop.toNat).drop start.toNat).sum + (if 0 < start then 1 else 0) +
    if stop < widths.length then 1 else 0

theorem shownWidth_forward (h0 : 0 ≤ start) (hn : start < widths.length) (k : ℕ) :
    shownWidth widths start (start + k) =
      markedSum (widths.drop start.toNat) k + if 0 < start then 1 else 0 := by
  have htake : (widths.take (start + k).toNat).drop start.toNat =
      (widths.drop start.toNat).take k := by
    rw [drop_take]
    congr 1
    omega
  have hmore : start + k < widths.length ↔ k < (widths.drop start.toNat).length := by
    rw [length_drop]
    omega
  rw [shownWidth, markedSum, htake]
  simp only [hmore]
  exact Int.add_right_comm _ _ _

theorem shownWidth_backward {stop : Int} (hn : stop ≤ widths.length) {k : ℕ} (hk : k ≤ stop) :
    shownWidth widths (stop - k) stop =
      markedSum (widths.take stop.toNat).reverse k + if stop < widths.length then 1 else 0 := by
  have hlen : (widths.take stop.toNat).length = stop.toNat := by
    rw [length_take]
    omega
  have htake : ((widths.take stop.toNat).reverse.take k).sum =
      ((widths.take stop.toNat).drop (stop - k).toNat).sum := by
    rw [take_reverse, sum_reverse, hlen]
    congr 2
    omega
  have hmore : 0 < stop - k ↔ k < (widths.take stop.toNat).reverse.length := by
    rw [length_reverse, hlen]
    omega
  rw [shownWidth, markedSum, htake]
  simp only [hmore]

theorem shownWidth_all : shownWidth widths 0 widths.length = widths.sum := by
  simp [shownWidth]

/-- The tabs from `start` on and before `stop` can be shown; a single one is cut if it is too
wide. -/
def FitsIn (widths : List Int) (width start stop : Int) : Prop :=
  shownWidth widths start stop ≤ width ∨ stop = start + 1

/-- There is no room for the tab on the right of the window. -/
def FullRight (widths : List Int) (width start stop : Int) : Prop :=
  stop < widths.length → width < shownWidth widths start (stop + 1)

/-- There is no room for the tab on the left of the window. -/
def FullLeft (widths : List Int) (width start stop : Int) : Prop :=
  0 < start → width < shownWidth widths (start - 1) stop

section Wide
variable (hwidths : ∀ w ∈ widths, 2 ≤ w)

include hwidths

theorem forwardRounds_full {start : Int} (h0 : 0 ≤ start) (hn : start < widths.length)
    (stop : Int) :
    let w := (forwardRound widths width)^[3] ⟨start, stop, start > 0, false⟩
    FitsIn widths width start w.stop ∧ FullRight widths width start w.stop ∧
      ∀ last, start < last → last ≤ widths.length → FitsIn widths width start last →
        last ≤ w.stop := by
  have hshown := shownWidth_forward h0 hn
  have hlen : (widths.drop start.toNat).length = widths.length - start.toNat := length_drop
  have hws : ∀ w ∈ widths.drop start.toNat, 2 ≤ w := fun w hw => hwidths w (mem_of_mem_drop hw)
  have hne : widths.drop start.toNat ≠ [] := ne_nil_of_length_pos (by omega)
  have hroom : roomBeside width (start > 0) = width - if 0 < start then 1 else 0 := by
    simp [roomBeside]
  rw [forwardRounds_eq h0 hn]
  simp only
  refine ⟨?_, fun hmore => ?_, fun last hstart hlast hfits => ?_⟩
  · rw [FitsIn, hshown]
    have h := settledCount_fits (roomBeside width (start > 0)) hws hne
    omega
  · have h := lt_markedSum (roomBeside width (start > 0)) hws (by omega)
    have hnext := hshown (settledCount (roomBeside width (start > 0)) (widths.drop start.toNat) + 1)
    rw [Nat.cast_succ, ← add_assoc] at hnext
    omega
  · obtain ⟨k, hk⟩ := Int.le.dest hstart.le
    subst hk
    rw [FitsIn, hshown] at hfits
    have h := le_settledCount (roomBeside width (start > 0)) hws (k := k) (by omega) (by omega)
    omega

theorem backwardRounds_full {stop : Int} (h1 : 1 ≤ stop) (hn : stop ≤ widths.length)
    (start : Int) :
    let w := (backwardRound widths width)^[3] ⟨start, stop, false, stop < widths.length⟩
    FitsIn widths width w.start stop ∧ FullLeft widths width w.start stop := by
  have hlen : (widths.take stop.toNat).reverse.length = stop.toNat := by
    rw [length_reverse, length_take]
    omega
  have hws : ∀ w ∈ (widths.take stop.toNat).reverse, 2 ≤ w := fun w hw =>
    hwidths w (mem_of_mem_take (mem_reverse.mp hw))
  have hne : (widths.take stop.toNat).reverse ≠ [] := ne_nil_of_length_pos (by omega)
  have hroom : roomBeside width (stop < widths.length) =
      width - if stop < widths.length then 1 else 0 := by
    simp [roomBeside]
  rw [backwardRounds_eq h1 hn]
  simp only
  have hle := settledCount_le (roomBeside width (stop < widths.length)) hne
  refine ⟨?_, fun hmore => ?_⟩
  · rw [FitsIn, shownWidth_backward hn (by omega)]
    have h := settledCount_fits (roomBeside width (stop < widths.length)) hws hne
    omega
  · have h := lt_markedSum (roomBeside width (stop < widths.length)) hws (by omega)
    have hnext := shownWidth_backward hn (k := settledCount
      (roomBeside width (stop < widths.length)) (widths.take stop.toNat).reverse + 1) (by omega)
    rw [Nat.cast_succ, ← sub_sub] at hnext
    omega

variable {i : Int} (h0 : 0 ≤ i) (hn : i < widths.length)

include h0 hn

theorem selectTabWindow_fits (windowStart : Int) :
    let w := selectTabWindow widths i windowStart width
    FitsIn widths width w.start w.stop := by
  have hne : widths ≠ [] := ne_nil_of_length_pos (by omega)
  have hclamp := clampIndex_bounds windowStart (n := widths.length) (by omega)
  simp only [selectTabWindow]
  split_ifs with hsum
  · exact .inl (shownWidth_all.trans_le hsum)
  · rw [tabWindowActiveLeft_eq h0 hn]
    exact (forwardRounds_full hwidths h0 hn _).1
  · rw [tabWindowActiveRight_eq h0 hn]
    exact (backwardRounds_full hwidths (by omega) (by omega) _).1
  · rw [tabWindowFromStart_eq hne]
    exact (forwardRounds_full hwidths hclamp.1 hclamp.2 _).1

/-- The window grows to the left if the active tab is on the right of what was shown before. -/
theorem selectTabWindow_full (windowStart : Int) :
    let w := selectTabWindow widths i windowStart width
    if width < widths.sum ∧ (tabWindowFromStart widths windowStart width).stop ≤ i then
      FullLeft widths width w.start w.stop
    else FullRight widths width w.start w.stop := by
  have hne : widths ≠ [] := ne_nil_of_length_pos (by omega)
  have hclamp := clampIndex_bounds windowStart (n := widths.length) (by omega)
  simp only [selectTabWindow]
  by_cases hsum : widths.sum ≤ width
  · rw [if_neg fun h => hsum.not_gt h.1, if_pos hsum]
    exact fun hmore => absurd hmore (lt_irrefl _)
  rw [if_neg hsum]
  by_cases hright : (tabWindowFromStart widths windowStart width).stop ≤ i
  · have hlt := (tabWindowFromStart_ok hne windowStart width).start_lt
    rw [if_pos ⟨not_le.mp hsum, hright⟩, if_neg (by omega), if_pos hright,
      tabWindowActiveRight_eq h0 hn]
    exact (backwardRounds_full hwidths (by omega) (by omega) _).2
  · rw [if_neg fun h => hright h.2, if_neg hright]
    split_ifs
    · rw [tabWindowActiveLeft_eq h0 hn]
      exact (forwardRounds_full hwidths h0 hn _).2.1
    · rw [tabWindowFromStart_eq hne]
      exact (forwardRounds_full hwidths hclamp.1 hclamp.2 _).2.1

theorem selectTabWindow_stays {windowStart : Int} (hsum : width < widths.sum)
    (hstart : 0 ≤ windowStart) (hle : windowStart ≤ i)
    (hvisible : ∃ stop, i < stop ∧ stop ≤ widths.length ∧ FitsIn widths width windowStart stop) :
    (selectTabWindow widths i windowStart width).start = windowStart := by
  obtain ⟨stop, hi, hstop, hfits⟩ := hvisible
  have hne : widths ≠ [] := ne_nil_of_length_pos (by omega)
  have hbefore : (tabWindowFromStart widths windowStart width).start = windowStart ∧
      stop ≤ (tabWindowFromStart widths windowStart width).stop := by
    rw [tabWindowFromStart_eq hne, clampIndex_eq hstart (by omega)]
    exact ⟨(forwardRounds_ok width hstart (by omega) rfl).2,
      (forwardRounds_full hwidths hstart (by omega) _).2.2 stop (by omega) hstop hfits⟩
  simp only [selectTabWindow]
  rw [if_neg (not_le.mpr hsum), if_neg (by omega), if_neg (by omega), hbefore.1]

end Wide

def labelWidths (tabs : List TabView) : List Int :=
  tabs.map fun tab => ((toRunes (tabLabel tab)).length : Int)

variable {tabs : List TabView}

theorem two_le_labelWidth : ∀ w ∈ labelWidths tabs, 2 ≤ w := by
  intro w hw
  obtain ⟨tab, -, rfl⟩ := mem_map.mp hw
  have hblank : Boundary (lit " ") := boundary_ascii (by decide) []
  have hone : (toRunes (lit " ")).length = 1 := by decide
  have hfirst : tabLabel tab = 0x20 :: (truncateName (shownName tab) 10 ++ lit " ") := rfl
  rw [hfirst, toRunes, runes_ascii_cons (by decide), map_cons, length_cons, ← toRunes,
    toRunes_append hblank, length_append, hone]
  omega

theorem activeIndex_append (tabs : List TabView) (tab : TabView) (active : TabID) :
    activeIndex (tabs ++ [tab]) active =
      if tab.id = active then tabs.length else activeIndex tabs active := by
  rw [activeIndex, zipIdx_append, foldl_append]
  simp [activeIndex]

theorem activeIndex_spec (tabs : List TabView) (active : TabID) :
    (∃ tab, tabs[activeIndex tabs active]? = some tab ∧ tab.id = active) ∨
      (∀ tab ∈ tabs, tab.id ≠ active) ∧ activeIndex tabs active = 0 := by
  induction tabs using reverseRecOn with
  | nil => exact .inr ⟨by simp, rfl⟩
  | append_singleton tabs tab ih =>
    rw [activeIndex_append]
    split_ifs with htab
    · exact .inl ⟨tab, by simp, htab⟩
    · rcases ih with ⟨found, hfound, hid⟩ | ⟨hnone, hzero⟩
      · obtain ⟨hlt, -⟩ := List.getElem?_eq_some_iff.mp hfound
        exact .inl ⟨found, by rw [getElem?_append_left hlt, hfound], hid⟩
      · refine .inr ⟨fun other hother => ?_, hzero⟩
        rcases mem_append.mp hother with hother | hother
        · exact hnone other hother
        · rwa [mem_singleton.mp hother]

theorem activeIndex_lt (hne : tabs ≠ []) (active : TabID) :
    activeIndex tabs active < tabs.length := by
  rcases activeIndex_spec tabs active with ⟨tab, htab, -⟩ | ⟨-, hzero⟩
  · exact (List.getElem?_eq_some_iff.mp htab).1
  · rw [hzero]
    exact length_pos_of_ne_nil hne

theorem visibleWidth_padTo {line : GoString} (h : Tidy line) (width : ℕ) :
    visibleWidth (padTo line width) = max width (visibleWidth line) := by
  rw [padTo]
  split_ifs with hless
  · rw [h.visibleWidth_append (part_blanks _).boundary, visibleWidth_blanks]
    omega
  · omega

theorem visibleWidth_cutBar_eq {line : GoString} (h : Tidy line) {width : ℕ}
    (hwide : width ≤ visibleWidth line) : visibleWidth (cutBar line width) = width := by
  obtain ⟨htidy, hwidth⟩ := h.trim width
  rw [cutBar, htidy.visibleWidth_append (part_code _).boundary, visibleWidth_code, hwidth]
  exact Nat.min_eq_left hwide

theorem visibleWidth_onBar (theme : ScreenTheme) (style : Style) {label : GoString}
    (h : Part label) : visibleWidth (theme.onBar style label) = visibleWidth label := by
  have hbar := theme.barStyle.visibleWidth_append []
  rw [append_nil] at hbar
  rw [ScreenTheme.onBar, append_assoc, style.visibleWidth_append,
    h.visibleWidth_append (part_style _), hbar]
  exact Nat.add_zero _

theorem visibleWidth_renderTabBar (hne : tabs ≠ []) (hnames : ∀ tab ∈ tabs, esc ∉ shownName tab)
    (active : TabID) {width : ℕ} (hpos : 0 < width) (theme : ScreenTheme) (windowStart : Int) :
    visibleWidth (renderTabBar tabs active width theme windowStart).1 = width := by
  rw [renderTabBar]
  simp only [if_neg (show ¬width = 0 by omega), if_neg hne]
  generalize selectTabWindow _ _ _ _ = window
  have hline := part_windowOnBar hnames active theme window
  have hright := part_barText (lit ">") (by simp)
  have hmark := part_onBar theme theme.indicatorStyle hright
  have hone : visibleWidth (theme.onBar theme.indicatorStyle (lit ">")) = 1 := by
    rw [visibleWidth_onBar theme _ hright]
    decide
  -- the mark on the right is put into the last column
  have hlast : ∀ line, Tidy line → visibleWidth (cutBar
      (padTo line (width - 1) ++ theme.onBar theme.indicatorStyle (lit ">")) width) = width := by
    intro line h
    have htidy := tidy_padTo h (width - 1)
    apply visibleWidth_cutBar_eq (htidy.append hmark.tidy hmark.boundary)
    rw [htidy.visibleWidth_append hmark.boundary, visibleWidth_padTo h, hone]
    omega
  split_ifs
  · exact hlast _ (hline.tidy.trim (width - 1)).1
  · exact hlast _ hline.tidy
  · apply visibleWidth_cutBar_eq (tidy_padTo hline.tidy width)
    rw [visibleWidth_padTo hline.tidy]
    exact Nat.le_max_left _ _

/-- **The layout of the tab bar.** The window shows the active tab, marks exactly what is hidden,
fits unless it is a single tab, cannot grow any more on the side where it grows, and stays where it
is as long as the active tab is shown from there. -/
theorem renderTabBar_layout {tabs : List TabView} (hne : tabs ≠ [])
    (hnames : ∀ tab ∈ tabs, esc ∉ shownName tab) (active : TabID) {width : ℕ} (hpos : 0 < width)
    (theme : ScreenTheme) (windowStart : Int) :
    let widths := labelWidths tabs
    let i := activeIndex tabs active
    let before := tabWindowFromStart widths windowStart width
    let window := selectTabWindow widths i windowStart width
    ((∃ tab, tabs[i]? = some tab ∧ tab.id = active) ∨
        (∀ tab ∈ tabs, tab.id ≠ active) ∧ i = 0) ∧
      window.Ok tabs.length ∧ window.start ≤ i ∧ i < window.stop ∧
      FitsIn widths width window.start window.stop ∧
      (if width < widths.sum ∧ before.stop ≤ i then
        FullLeft widths width window.start window.stop
      else FullRight widths width window.start window.stop) ∧
      (width < widths.sum → 0 ≤ windowStart → windowStart ≤ i →
        (∃ stop : Int, i < stop ∧ stop ≤ tabs.length ∧ FitsIn widths width windowStart stop) →
        window.start = windowStart) ∧
      (renderTabBar tabs active width theme windowStart).2 = window.start ∧
      visibleWidth (renderTabBar tabs active width theme windowStart).1 = width := by
  have hlen : ((labelWidths tabs).length : Int) = tabs.length := by simp [labelWidths]
  have h0 : (0 : Int) ≤ activeIndex tabs active := Int.natCast_nonneg _
  have hn : (activeIndex tabs active : Int) < (labelWidths tabs).length := by
    rw [hlen]
    exact Int.ofNat_lt.mpr (activeIndex_lt hne active)
  have hshows := selectTabWindow_shows_active h0 hn windowStart width
  have hstart : (renderTabBar tabs active width theme windowStart).2 =
      (selectTabWindow (labelWidths tabs) (activeIndex tabs active) windowStart width).start := by
    rw [renderTabBar]
    simp only [if_neg (show ¬width = 0 by omega), if_neg hne]
    split_ifs <;> rfl
  rw [hlen] at hshows
  refine ⟨activeIndex_spec tabs active, hshows.1, hshows.2.1, hshows.2.2,
    selectTabWindow_fits two_le_labelWidth h0 hn windowStart,
    selectTabWindow_full two_le_labelWidth h0 hn windowStart, ?_, hstart,
    visibleWidth_renderTabBar hne hnames active hpos theme windowStart⟩
  intro hsum hge hle hvisible
  rw [← hlen] at hvisible
  exact selectTabWindow_stays two_le_labelWidth h0 hn hsum hge hle hvisible

/-- Three tabs that are 5, 5 and 7 columns wide. -/
def threeTabs : List TabView :=
  [lit "one", lit "two", lit "three"].map fun name => ⟨name, name, [], [], [], [], .idle, false⟩

/-- With 13 columns the last two tabs are shown, and nothing is left beside the mark. -/
theorem renderTabBar_layout_last :
    let window := selectTabWindow (labelWidths threeTabs) 2 0 13
    window = ⟨1, 3, true, false⟩ ∧ FitsIn (labelWidths threeTabs) 13 window.start window.stop ∧
      FullLeft (labelWidths threeTabs) 13 window.start window.stop ∧
      visibleWidth (renderTabBar threeTabs (lit "three") 13 outrunScreen 0).1 = 13 := by
  have hactive : activeIndex threeTabs (lit "three") = 2 := by decide
  have hgrows : (13 : Int) < (labelWidths threeTabs).sum ∧
      (tabWindowFromStart (labelWidths threeTabs) 0 13).stop ≤ 2 := by decide
  have h := renderTabBar_layout (show threeTabs ≠ [] by decide) (by decide) (lit "three")
    (show 0 < 13 by decide) outrunScreen 0
  simp only [hactive, Nat.cast_ofNat] at h
  obtain ⟨-, -, -, -, hfits, hfull, -, -, hwidth⟩ := h
  rw [if_pos hgrows] at hfull
  exact ⟨by decide, hfits, hfull, hwidth⟩

end Centaurx.SshServer
