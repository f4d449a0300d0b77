import Centaurx.Core.Tab
import Centaurx.Lib.Runs
import Centaurx.SshServer.Session

namespace Centaurx.SshServer
open Go Runs List

/-- What a draft leaves of the history as it was. -/
def retained (h : HistoryBuffer) (draft : GoString) : List GoString :=
  if (h.append draft).2 then (h.append draft).1.entries.dropLast else h.entries

section

variable {h : HistoryBuffer} {draft : GoString}

theorem append_of_last (hlast : h.entries.getLast? = some draft) : h.append draft = (h, false) := by
  rw [HistoryBuffer.append, if_pos hlast]
  split <;> rfl

theorem append_of_new (hh : h.Ok) (hdraft : blank draft = false)
    (hlast : h.entries.getLast? ≠ some draft) :
    (h.append draft).2 = true ∧ (h.append draft).1.entries =
      (if h.entries.length < 200 then h.entries else h.entries.tail) ++ [draft] := by
  have hlen := hh.length_le
  rw [HistoryBuffer.append, if_neg (Bool.eq_false_iff.mp hdraft), if_neg hlast]
  refine ⟨rfl, ?_⟩
  dsimp only
  rw [HistoryBuffer.cap, hh.max_eq, length_append, length_singleton]
  rw [defaultHistoryMax] at hlen ⊢
  split_ifs with hcap hroom hroom
  · omega
  · have hdrop : ((h.entries.length + 1 : ℕ) - (200 : ℤ)).toNat = 1 := by omega
    rw [hdrop, drop_append_of_le_length (by omega), drop_one]
  · rfl
  · omega

theorem entries_of_new (hh : h.Ok) (hdraft : blank draft = false)
    (hlast : h.entries.getLast? ≠ some draft) :
    (h.append draft).1.entries = retained h draft ++ [draft] := by
  obtain ⟨hnew, hentries⟩ := append_of_new hh hdraft hlast
  rw [retained, if_pos hnew, hentries, dropLast_concat]

theorem retained_of_last (hlast : h.entries.getLast? = some draft) :
    retained h draft = h.entries := by
  rw [retained, append_of_last hlast]
  rfl

/-- Only a full history loses an entry, its oldest one. -/
theorem retained_eq (hh : h.Ok) (hdraft : blank draft = false) :
    retained h draft = h.entries ∨
      h.entries.length = 200 ∧ retained h draft = h.entries.tail := by
  by_cases hlast : h.entries.getLast? = some draft
  · exact .inl (retained_of_last hlast)
  · have hlen := hh.length_le
    obtain ⟨hnew, hentries⟩ := append_of_new hh hdraft hlast
    rw [defaultHistoryMax] at hlen
    rw [retained, if_pos hnew, hentries, dropLast_concat]
    split_ifs with hroom
    · exact .inl rfl
    · exact .inr ⟨by omega, rfl⟩

theorem getLast?_append (hh : h.Ok) (hdraft : blank draft = false) :
    (h.append draft).1.entries.getLast? = some draft := by
  by_cases hlast : h.entries.getLast? = some draft
  · rw [append_of_last hlast, hlast]
  · rw [entries_of_new hh hdraft hlast, getLast?_concat]

theorem retained_ne_nil (hh : h.Ok) (hdraft : blank draft = false) (hne : h.entries ≠ []) :
    retained h draft ≠ [] := by
  rcases retained_eq hh hdraft with heq | ⟨hfull, heq⟩
  · rwa [heq]
  · intro hnil
    have hlen := congrArg length (heq.symm.trans hnil)
    rw [length_tail, hfull] at hlen
    cases hlen

theorem getElem?_retained (hh : h.Ok) (hdraft : blank draft = false) {j : ℕ}
    (hj : j ≤ (retained h draft).length) :
    (retained h draft)[(retained h draft).length - j]? = h.entries[h.entries.length - j]? := by
  rcases retained_eq hh hdraft with heq | ⟨hfull, heq⟩
  · rw [heq]
  · rw [heq, length_tail] at hj ⊢
    rw [getElem?_tail]
    congr 1
    omega

end

def pressUp (ans : Answers) : Input × Answers := (.key .keyUp, ans)

def pressDown (ans : Answers) : Input × Answers := (.key .keyDown, ans)

namespace Session

variable {ans : Answers} {t : Session} {entries : List GoString} {i : ℕ}

/-- No dialog is open. -/
structure Plain (t : Session) : Prop where
  codexauth : t.codexauth = false
  chpasswd : t.chpasswd = none
  rotateSSH : t.rotateSSH = false
  exited : t.exited = false

def AtEnds (t : Session) : Prop := t.editor.cursor = 0 ∨ t.editor.cursor = t.editor.len

/-- The editor shows the entry at the index, and nothing was typed since. -/
structure Browsing (t : Session) (entries : List GoString) (i : ℕ) : Prop where
  plain : t.Plain
  tab : t.activeTab ≠ []
  history : t.history = entries
  index : t.historyIndex = some i
  clean : t.historyDirty = false
  shows : ∃ entry, entries[i]? = some entry ∧
    t.editor = .setString ((toRunes entry).map (⟨·, false⟩))

theorem Plain.step_key (hplain : t.Plain) {k : Key} {t' : Session}
    (hkey : t.handlePlainKey ans k = (t', false)) : t.step (.key k, ans) = t' := by
  simp only [step, handleKey, hplain.codexauth, hplain.chpasswd, hplain.rotateSSH, hplain.exited,
    hkey, Option.isSome_none, Bool.false_eq_true, if_false]

theorem step_up (hplain : t.Plain) (hends : t.AtEnds) :
    t.step (.key .keyUp, ans) = t.historyUp ans :=
  hplain.step_key (if_pos hends)

theorem step_down (hplain : t.Plain) (hends : t.AtEnds) :
    t.step (.key .keyDown, ans) = t.historyDown ans :=
  hplain.step_key (if_pos hends)

theorem Browsing.atEnds (h : t.Browsing entries i) : t.AtEnds := by
  obtain ⟨entry, -, heditor⟩ := h.shows
  right
  rw [heditor, LineEditor.len, LineEditor.setString_text]
  rfl

theorem Browsing.lt (h : t.Browsing entries i) : i < entries.length := by
  obtain ⟨entry, hentry, -⟩ := h.shows
  exact (List.getElem?_eq_some_iff.mp hentry).1

theorem browsing_show (hplain : t.Plain) (htab : t.activeTab ≠ []) (hhistory : t.history = entries)
    (hi : i < entries.length) :
    Browsing ({ t with historyIndex := some i }.showHistory) entries i := by
  have hentry : t.history[i]? = some entries[i] := by
    rw [hhistory, getElem?_eq_getElem hi]
  simp only [showHistory, Option.bind_some, hentry]
  exact ⟨⟨hplain.1, hplain.2, hplain.3, hplain.4⟩, htab, hhistory, rfl, rfl,
    _, getElem?_eq_getElem hi, rfl⟩

theorem Browsing.saveHistoryDraft (h : t.Browsing entries i) :
    t.saveHistoryDraft ans = (t, false) := by
  have hbrowsing : t.historyIndex ≠ none ∧ t.historyDirty = false :=
    ⟨by rw [h.index]; exact Option.some_ne_none i, h.clean⟩
  rw [Session.saveHistoryDraft, if_neg h.tab, if_pos hbrowsing]

theorem Browsing.up (h : t.Browsing entries i) (ans : Answers) :
    (t.step (.key .keyUp, ans)).Browsing entries (i - 1) := by
  have hlt := h.lt
  have hne : t.history ≠ [] := by
    rw [h.history]
    exact ne_nil_of_length_pos (by omega)
  rw [step_up h.plain h.atEnds, historyUp, if_neg h.tab, h.saveHistoryDraft]
  simp only [if_neg hne, h.index]
  exact browsing_show h.plain h.tab h.history (by omega)

theorem Browsing.down (h : t.Browsing entries i) (ans : Answers) :
    (t.step (.key .keyDown, ans)).Browsing entries (min (i + 1) (entries.length - 1)) := by
  have hlt := h.lt
  have hne : t.history ≠ [] := by
    rw [h.history]
    exact ne_nil_of_length_pos (by omega)
  have hindex : (if i + 1 < t.history.length then i + 1 else i) =
      min (i + 1) (entries.length - 1) := by
    rw [h.history]
    split_ifs <;> omega
  rw [step_down h.plain h.atEnds, historyDown, if_neg (not_or.mpr ⟨h.tab, hne⟩),
    h.saveHistoryDraft]
  simp only [h.index, hindex]
  exact browsing_show h.plain h.tab h.history (by omega)

theorem browsing_first {draft : GoString} (hplain : t.Plain) (hends : t.AtEnds)
    (htab : t.activeTab ≠ []) (hindex : t.historyIndex = none)
    (htext : (editorText t.editor).s = draft) (hdraft : blank draft = false)
    (hsaved : ans.appendHistory = some entries) (hne : entries ≠ []) :
    (t.step (.key .keyUp, ans)).Browsing entries (entries.length -
      if t.history.getLast? ≠ some draft ∧ entries.length > 1 then 2 else 1) := by
  have hpos : 0 < entries.length := length_pos_of_ne_nil hne
  have hstart : ¬(t.historyIndex ≠ none ∧ t.historyDirty = false) := fun h => h.1 hindex
  have hdraft' : ¬blank draft = true := Bool.eq_false_iff.mp hdraft
  rw [step_up hplain hends, historyUp, if_neg htab, saveHistoryDraft, if_neg htab, if_neg hstart]
  simp only [htext, if_neg hdraft', hsaved, call, hindex, if_neg hne, decide_eq_true_eq]
  refine browsing_show (t := { t with
    history := entries, historyTabID := t.activeTab, historyDirty := false
    trace := t.trace ++ [.appendHistory t.activeTab (editorText t.editor)] })
    ⟨hplain.1, hplain.2, hplain.3, hplain.4⟩ htab rfl ?_
  split_ifs <;> omega

theorem Browsing.ups (h : t.Browsing entries i) (anss : List Answers) :
    (exec step t (anss.map pressUp)).Browsing entries (i - anss.length) := by
  induction anss generalizing t i with
  | nil => exact h
  | cons ans anss ih =>
    have hrest := ih (h.up ans)
    rwa [Nat.sub_sub, Nat.add_comm] at hrest

theorem Browsing.downs (h : t.Browsing entries i) (anss : List Answers) :
    (exec step t (anss.map pressDown)).Browsing entries
      (min (i + anss.length) (entries.length - 1)) := by
  have hlt := h.lt
  induction anss generalizing t i with
  | nil =>
    have hindex : min (i + 0) (entries.length - 1) = i := by omega
    rw [length_nil, hindex]
    exact h
  | cons ans anss ih =>
    have hnext := h.down ans
    have hindex : min (min (i + 1) (entries.length - 1) + anss.length) (entries.length - 1) =
        min (i + (ans :: anss).length) (entries.length - 1) := by
      rw [length_cons]
      omega
    rw [← hindex]
    exact ih hnext hnext.lt

theorem Browsing.text (h : t.Browsing entries i) {rs : List ℕ}
    (hentry : entries[i]? = some (ofRunes rs)) : (editorText t.editor).s = ofRunes rs := by
  obtain ⟨entry, hshown, heditor⟩ := h.shows
  rw [Option.some.inj (hshown.symm.trans hentry)] at heditor
  rw [heditor, editorText, LineEditor.setString_text, map_map]
  exact (congrArg ofRunes (map_id _)).trans (ofRunes_toRunes_ofRunes rs)

/-- After the first Up and more of them the index counts back from what is retained. -/
theorem browsing_ups {h : HistoryBuffer} (hh : h.Ok) (hcopy : t.history = h.entries)
    (hplain : t.Plain) (hends : t.AtEnds) (htab : t.activeTab ≠ []) (hindex : t.historyIndex = none)
    (hdraft : blank (editorText t.editor).s = false)
    (hsaved : ans.appendHistory = some (h.append (editorText t.editor).s).1.entries)
    (anss : List Answers) :
    (exec step t ((ans :: anss).map pressUp)).Browsing (h.append (editorText t.editor).s).1.entries
      ((retained h (editorText t.editor).s).length - (ans :: anss).length) := by
  have hlast := getLast?_append hh hdraft
  have hne : (h.append (editorText t.editor).s).1.entries ≠ [] := fun hnil => by
    rw [hnil] at hlast
    cases hlast
  have hfirst := browsing_first hplain hends htab hindex rfl hdraft hsaved hne
  have hstart : ((h.append (editorText t.editor).s).1.entries.length -
      if t.history.getLast? ≠ some (editorText t.editor).s ∧
        (h.append (editorText t.editor).s).1.entries.length > 1 then 2 else 1) =
      (retained h (editorText t.editor).s).length - 1 := by
    rw [hcopy]
    by_cases hsame : h.entries.getLast? = some (editorText t.editor).s
    · rw [if_neg (fun hnew => hnew.1 hsame), append_of_last hsame, retained_of_last hsame]
    · rw [entries_of_new hh hdraft hsame, length_append, length_singleton]
      by_cases hmore : (retained h (editorText t.editor).s).length + 1 > 1
      · rw [if_pos ⟨hsame, hmore⟩]
        omega
      · rw [if_neg (fun hnew => hmore hnew.2)]
        omega
  have hups := hfirst.ups anss
  rw [hstart, Nat.sub_sub, Nat.add_comm] at hups
  exact hups

end Session

theorem getElem?_entries {h : HistoryBuffer} (hh : h.Ok) {draft : GoString}
    (hdraft : blank draft = false) {i : ℕ} (hi : i < (retained h draft).length) :
    (h.append draft).1.entries[i]? = (retained h draft)[i]? := by
  by_cases hlast : h.entries.getLast? = some draft
  · rw [append_of_last hlast, retained_of_last hlast]
  · rw [entries_of_new hh hdraft hlast, getElem?_append_left hi]

theorem length_entries_le {h : HistoryBuffer} (hh : h.Ok) {draft : GoString}
    (hdraft : blank draft = false) :
    (h.append draft).1.entries.length - 1 ≤ (retained h draft).length := by
  by_cases hlast : h.entries.getLast? = some draft
  · rw [append_of_last hlast, retained_of_last hlast]
    exact Nat.sub_le _ _
  · rw [entries_of_new hh hdraft hlast, length_append, length_singleton]
    omega

/-- Up keys from a draft show the entries from the newest on, and as many Down keys bring the draft
back. The draft is saved by the first Up; this drops the oldest entry of a full history, which then
is not shown any more. -/
theorem history_keeps_draft (t : Session) (h : HistoryBuffer) (hh : h.Ok)
    (hcopy : t.history = h.entries) (hplain : t.Plain) (hends : t.AtEnds)
    (htab : t.activeTab ≠ []) (hindex : t.historyIndex = none)
    (hdraft : blank (editorText t.editor).s = false) (ups downs : List Answers)
    (hpos : ups ≠ []) (hlength : downs.length = ups.length)
    (hsaved : ∀ ans ∈ ups.head?,
      ans.appendHistory = some (h.append (editorText t.editor).s).1.entries) :
    (retained h (editorText t.editor).s = h.entries ∨
      h.entries.length = 200 ∧ retained h (editorText t.editor).s = h.entries.tail) ∧
    (∀ j, 1 ≤ j → j ≤ ups.length → h.entries ≠ [] → ∃ entry,
      (exec Session.step t ((ups.take j).map pressUp)).editor =
        .setString ((toRunes entry).map (⟨·, false⟩)) ∧
      (j ≤ (retained h (editorText t.editor).s).length →
        h.entries[h.entries.length - j]? = some entry) ∧
      ((retained h (editorText t.editor).s).length < j →
        (retained h (editorText t.editor).s).head? = some entry)) ∧
    (editorText (exec Session.step t (ups.map pressUp ++ downs.map pressDown)).editor).s =
      (editorText t.editor).s := by
  obtain ⟨ans, anss, rfl⟩ := exists_cons_of_ne_nil hpos
  have hsaved := hsaved ans rfl
  refine ⟨retained_eq hh hdraft, fun j hj hle hne => ?_, ?_⟩
  · have hups := Session.browsing_ups hh hcopy hplain hends htab hindex hdraft hsaved
      (anss.take (j - 1))
    have htake : ans :: anss.take (j - 1) = (ans :: anss).take j := by
      rw [← take_succ_cons, Nat.sub_add_cancel hj]
    rw [htake, length_take, Nat.min_eq_left hle] at hups
    have hkept := length_pos_of_ne_nil (retained_ne_nil hh hdraft hne)
    obtain ⟨entry, hentry, heditor⟩ := hups.shows
    rw [getElem?_entries hh hdraft (by omega)] at hentry
    refine ⟨entry, heditor, fun hin => ?_, fun hout => ?_⟩
    · rw [← getElem?_retained hh hdraft hin, hentry]
    · rw [Nat.sub_eq_zero_of_le hout.le] at hentry
      rw [head?_eq_getElem?, hentry]
  · have hups := Session.browsing_ups hh hcopy hplain hends htab hindex hdraft hsaved anss
    have hdowns := hups.downs downs
    have hle := length_entries_le hh hdraft
    have hbottom : min ((retained h (editorText t.editor).s).length - (ans :: anss).length +
        downs.length) ((h.append (editorText t.editor).s).1.entries.length - 1) =
        (h.append (editorText t.editor).s).1.entries.length - 1 := by
      rw [hlength]
      omega
    rw [hbottom, ← exec_append] at hdowns
    refine hdowns.text ?_
    rw [← getLast?_eq_getElem?]
    exact getLast?_append hh hdraft

/-- Two entries and a draft: two Up keys and two Down keys. -/
theorem history_keeps_draft_two :
    (editorText (exec Session.step
      { newTerminalSession true true with
        activeTab := lit "t", history := [lit "a", lit "b"]
        editor := .setString [⟨0x63, false⟩] }
      ([{ appendHistory := some [lit "a", lit "b", lit "c"] }, noAnswers].map pressUp ++
        [noAnswers, noAnswers].map pressDown)).editor).s = lit "c" := by
  have hok : HistoryBuffer.Ok ⟨[lit "a", lit "b"], 200⟩ := ⟨rfl, by decide⟩
  have hkeeps := history_keeps_draft
    { newTerminalSession true true with
      activeTab := lit "t", history := [lit "a", lit "b"]
      editor := .setString [⟨0x63, false⟩] }
    ⟨[lit "a", lit "b"], 200⟩ hok rfl ⟨rfl, rfl, rfl, rfl⟩ (.inr rfl) (by decide) rfl (by decide)
    [{ appendHistory := some [lit "a", lit "b", lit "c"] }, noAnswers] [noAnswers, noAnswers]
    (cons_ne_nil _ _) rfl (fun ans hans => by rw [← Option.some.inj hans]; decide)
  exact hkeeps.2.2.trans (by decide)

end Centaurx.SshServer
