import Centaurx.SshServer.Session

namespace Centaurx.SshServer
open Go List Function

/-- A call that only passes texts on, and all of them are `P`. -/
def Act.Plain (P : Text → Prop) : Act → Prop
  | .appendHistory _ entry => P entry
  | .appendOutput _ lines => ∀ line ∈ lines, P line
  | .appendSystemOutput lines => ∀ line ∈ lines, P line
  | .handle _ line => P line
  | .saveCodexAuth _ => True
  | .activateTab _ => True
  | .sendPrompt _ _ _ => False
  | .changePassword _ _ _ => False
  | .entered _ _ => False
  | .submitted _ _ => False

namespace Session

/-- The states agree in what invariants speak of. -/
structure Same (t t' : Session) : Prop where
  queues : t'.queues = t.queues
  pending : t'.pending = t.pending
  chpasswd : t'.chpasswd = t.chpasswd
  trace : t'.trace = t.trace

/-- The invariant survives calls that pass on texts with `P`. -/
structure Speaks (P : Text → Prop) (I : Session → Prop) : Prop where
  plain : ∀ s, P (.plain s)
  map : ∀ {x} f, P x → P (x.map f)
  same : ∀ {t t'}, I t → Same t t' → I t'
  call : ∀ {t a}, a.Plain P → I t → I (t.call a)

structure Closed (P : Text → Prop) (I : Session → Prop) : Prop extends Speaks P I where
  dialog : ∀ {t c}, c = none ∨ c = some {} → I t → I { t with chpasswd := c }
  field : ∀ ans {t}, I t → I (t.submitChpasswdField ans)
  spawn : ∀ {t line}, P line → I t → I (t.runCommandAsync line)
  erase : ∀ {t} i, I t → I { t with pending := t.pending.eraseIdx i }
  pending : ∀ {t}, I t → ∀ c ∈ t.pending, P c.2
  drain : ∀ ans {t} tab, I t → I (t.drain ans tab)

variable {P : Text → Prop} {I : Session → Prop} {ans : Answers} {t : Session}

section Speaks

variable (h : Speaks P I)
include h

variable {tabID : TabID}

theorem Speaks.output {s : GoString} (ht : I t) : I (t.call (.appendOutput tabID [.plain s])) := by
  refine h.call (fun line hline => ?_) ht
  rw [mem_singleton.mp hline]
  exact h.plain s

theorem Speaks.systemOutput {s : GoString} (ht : I t) :
    I (t.call (.appendSystemOutput [.plain s])) := by
  refine h.call (fun line hline => ?_) ht
  rw [mem_singleton.mp hline]
  exact h.plain s

theorem Speaks.appendError {err : GoString} (ht : I t) : I (t.appendError tabID err) := by
  rw [Session.appendError]
  split
  · exact h.same ht ⟨rfl, rfl, rfl, rfl⟩
  · exact h.output ht

theorem Speaks.appendMessage {message : GoString} (ht : I t) :
    I (t.appendMessage tabID message) := by
  rw [Session.appendMessage]
  split_ifs
  · exact ht
  · exact h.systemOutput ht
  · exact h.output ht

theorem Speaks.appendAsyncError {err : GoString} (ht : I t) : I (t.appendAsyncError tabID err) := by
  rw [Session.appendAsyncError]
  split
  · exact h.systemOutput ht
  · exact h.output ht

theorem Speaks.saveHistoryEntry {entry : Text}
    (hP : t.activeTab ≠ [] → blank entry.s = false → P entry) (ht : I t) :
    I (t.saveHistoryEntry ans entry) := by
  rw [Session.saveHistoryEntry]
  split_ifs with h1 h2
  · exact ht
  · exact ht
  · have hcall : I (t.call (.appendHistory t.activeTab entry)) :=
      h.call (a := .appendHistory _ _) (hP h1 (by simpa using h2)) ht
    simp only
    split
    · exact hcall
    · exact h.same hcall ⟨rfl, rfl, rfl, rfl⟩

theorem Speaks.saveHistoryDraft (hP : P (editorText t.editor)) (ht : I t) :
    I (t.saveHistoryDraft ans).1 := by
  simp only [Session.saveHistoryDraft]
  split_ifs
  · exact ht
  · exact ht
  · exact ht
  · have hcall : I (t.call (.appendHistory t.activeTab (editorText t.editor))) :=
      h.call (a := .appendHistory _ _) hP ht
    split
    · exact hcall
    · exact h.same hcall ⟨rfl, rfl, rfl, rfl⟩

theorem Speaks.showHistory (ht : I t) : I t.showHistory := by
  rw [Session.showHistory]
  split
  · exact ht
  · exact h.same ht ⟨rfl, rfl, rfl, rfl⟩

theorem Speaks.historyUp (hP : P (editorText t.editor)) (ht : I t) : I (t.historyUp ans) := by
  have hdraft : I (t.saveHistoryDraft ans).1 := h.saveHistoryDraft hP ht
  simp only [Session.historyUp]
  split
  · exact ht
  · split
    · exact hdraft
    · exact h.showHistory (h.same hdraft ⟨rfl, rfl, rfl, rfl⟩)

theorem Speaks.historyDown (hP : P (editorText t.editor)) (ht : I t) : I (t.historyDown ans) := by
  have hdraft : I (t.saveHistoryDraft ans).1 := h.saveHistoryDraft hP ht
  rw [Session.historyDown]
  split_ifs
  · exact ht
  · simp only
    split
    · exact hdraft
    · exact h.showHistory (h.same hdraft ⟨rfl, rfl, rfl, rfl⟩)

theorem Speaks.refreshHistory (ht : I t) : I (t.refreshHistory ans) := by
  rw [Session.refreshHistory]
  split_ifs
  · exact h.same ht ⟨rfl, rfl, rfl, rfl⟩
  · exact ht
  · exact h.same ht ⟨rfl, rfl, rfl, rfl⟩

theorem Speaks.takeInput (hP : P (editorText t.editor)) (ht : I t) : I (t.takeInput ans) := by
  have hsave : I (t.saveHistoryEntry ans (editorText t.editor)) :=
    h.saveHistoryEntry (fun _ _ => hP) ht
  exact h.same hsave ⟨rfl, rfl, rfl, rfl⟩

theorem Speaks.handleCommand {line : Text} (hP : P line) (ht : I t) :
    I (t.handleCommand ans line) := by
  rw [Session.handleCommand]
  split
  · exact h.appendError ht
  · have hcall : I (t.call (.handle t.activeTab line)) := h.call (a := .handle _ _) hP ht
    simp only
    split
    · exact hcall
    · exact h.appendError hcall
    · exact h.appendError hcall

theorem Speaks.finishCodexAuth (ht : I t) : I (t.finishCodexAuth ans) := by
  have hclear : I { t with editor := .clear, codexauth := false, notice := [] } :=
    h.same ht ⟨rfl, rfl, rfl, rfl⟩
  simp only [Session.finishCodexAuth]
  split
  · exact h.appendError hclear
  · have hcall := h.call (a := .saveCodexAuth (trimSpace (editorText t.editor).s)) trivial hclear
    split
    · exact h.appendError hcall
    · exact h.appendMessage hcall

theorem Speaks.cancelCodexAuth (ht : I t) : I t.cancelCodexAuth := by
  rw [Session.cancelCodexAuth]
  exact h.appendMessage (h.same ht ⟨rfl, rfl, rfl, rfl⟩)

theorem Speaks.cancelRotateSSHKey (ht : I t) : I t.cancelRotateSSHKey := by
  rw [Session.cancelRotateSSHKey]
  exact h.appendMessage (h.same ht ⟨rfl, rfl, rfl, rfl⟩)

theorem Speaks.field (hc : ∀ {t} c, I t → I { t with chpasswd := c })
    (hentered : ∀ {t} step value, I t → I (t.call (.entered step value)))
    (hchange : ∀ {t} current totp newPassword, I t →
      I (t.call (.changePassword current totp newPassword))) (ht : I t) :
    I (t.submitChpasswdField ans) := by
  rw [Session.submitChpasswdField]
  split
  · exact ht
  · rename_i c _
    have henter : I ({ t with editor := .clear }.call (.entered c.step (editorText t.editor).s)) :=
      hentered _ _ (h.same ht ⟨rfl, rfl, rfl, rfl⟩)
    simp only
    split
    · split
      · exact h.appendError henter
      · exact hc _ henter
    · split
      · exact h.appendError henter
      · split
        · exact hc _ (h.appendError henter)
        · have hcall := hchange c.current (editorText t.editor).s c.newPassword
            (hc (some { c with totp := (editorText t.editor).s }) henter)
          split
          · exact h.same (hc (some {}) (h.appendError hcall)) ⟨rfl, rfl, rfl, rfl⟩
          · exact hc _ (h.appendMessage hcall)
    · split
      · exact h.appendError henter
      · exact hc _ henter
    · split
      · exact hc _ (h.appendError henter)
      · exact hc _ henter

end Speaks

structure Prompts (P : Text → Prop) (I : Session → Prop) : Prop where
  submitted : ∀ {t} tab p, P p.text → I t → I (t.call (.submitted tab p))
  send : ∀ {t} tab p answer, P p.text → I t → I (t.call (.sendPrompt tab p answer))
  push : ∀ {t} tab p, P p.text → I t →
    I { t with queues := update t.queues tab (t.queues tab ++ [p]) }
  pop : ∀ {t tab p queue}, t.queues tab = p :: queue → I t →
    I { t with queues := update t.queues tab queue }
  queued : ∀ {t}, I t → ∀ tab, ∀ p ∈ t.queues tab, P p.text

theorem Speaks.queuePrompt (h : Speaks P I) (hp : Prompts P I) {tab : TabID} {p : Prompt}
    (hP : P p.text) (ht : I t) : I (t.queuePrompt tab p) := by
  rw [Session.queuePrompt]
  refine h.call (fun line hline => ?_) (hp.push tab p hP ht)
  rw [mem_singleton.mp hline]
  exact h.map _ hP

theorem Speaks.submitPrompt (h : Speaks P I) (hp : Prompts P I) {raw : Text} (hP : P raw)
    (ht : I t) : I (t.submitPrompt ans raw) := by
  rw [Session.submitPrompt]
  split
  · exact h.same ht ⟨rfl, rfl, rfl, rfl⟩
  · have hsub := hp.submitted t.activeTab ⟨t.trace.length, raw⟩ hP ht
    have hsend := fun answer => hp.send t.activeTab ⟨t.trace.length, raw⟩ answer hP hsub
    simp only
    split
    · exact h.queuePrompt hp hP hsub
    · split
      · exact hsend _
      · exact h.queuePrompt hp hP (hsend _)
      · exact h.appendError (hsend _)

theorem Speaks.drain (h : Speaks P I) (hp : Prompts P I) {tab : TabID × TabStatus} (ht : I t) :
    I (t.drain ans tab) := by
  rw [Session.drain]
  split
  · exact ht
  · split
    · exact ht
    · rename_i prompt queue hqueue
      have hP : P prompt.text := hp.queued ht tab.1 prompt (by rw [hqueue]; simp)
      have hsend := hp.send tab.1 prompt (t.sendAnswer ans) hP ht
      split
      · exact hsend
      · exact h.appendError hsend
      · exact hp.pop hqueue hsend

section Closed

variable (h : Closed P I)
include h

theorem Closed.refreshState (ht : I t) : I (t.refreshState ans) := by
  have hdrain : ∀ (tabs : List (TabID × TabStatus)) {t : Session}, I t →
      I (tabs.foldl (Session.drain ans) t) := by
    intro tabs
    induction tabs with
    | nil => exact fun ht => ht
    | cons tab tabs ih => exact fun ht => ih (h.drain ans tab ht)
  rw [Session.refreshState]
  split
  · exact ht
  · refine hdrain _ ?_
    split
    · exact h.refreshHistory (h.same ht ⟨rfl, rfl, rfl, rfl⟩)
    · exact h.same ht ⟨rfl, rfl, rfl, rfl⟩

theorem Closed.cycleTab (forward : Bool) (ht : I t) : I (t.cycleTab ans forward) := by
  rw [Session.cycleTab]
  split
  · exact ht
  · split
    · exact ht
    · rename_i next _ _
      exact h.refreshState
        (h.same (h.call (a := .activateTab next) trivial ht) ⟨rfl, rfl, rfl, rfl⟩)

theorem Closed.startChpasswd (ht : I t) : I t.startChpasswd := by
  rw [Session.startChpasswd]
  split
  · exact h.appendError ht
  · exact h.same (h.dialog (.inr rfl) ht) ⟨rfl, rfl, rfl, rfl⟩

theorem Closed.cancelChpasswd (ht : I t) : I t.cancelChpasswd := by
  rw [Session.cancelChpasswd]
  exact h.appendMessage (h.same (h.dialog (.inl rfl) ht) ⟨rfl, rfl, rfl, rfl⟩)

theorem Closed.submitRotateSSHKey (ht : I t) : I t.submitRotateSSHKey := by
  have hclear : I { t with editor := .clear, rotateSSH := false, notice := [] } :=
    h.same ht ⟨rfl, rfl, rfl, rfl⟩
  simp only [Session.submitRotateSSHKey]
  split
  · exact h.appendMessage hclear
  · exact h.spawn (h.plain _) hclear

theorem Closed.handleEnter (hP : P (editorText t.editor))
    (hsubmit : entry (editorText t.editor).s = .prompt → I (t.takeInput ans) →
      I ((t.takeInput ans).submitPrompt ans (editorText t.editor))) (ht : I t) :
    I (t.handleEnter ans).1 := by
  have htake : I (t.takeInput ans) := h.takeInput hP ht
  have hline := h.map trimSpace hP
  rw [Session.handleEnter]
  cases hentry : entry (editorText t.editor).s with
  | nothing | exit => exact htake
  | chpasswd => exact h.startChpasswd htake
  | codexauth | rotateSSHKey => exact h.same htake ⟨rfl, rfl, rfl, rfl⟩
  | async => exact h.spawn hline htake
  | command => exact h.refreshState (h.handleCommand hline htake)
  | prompt => exact hsubmit hentry htake

theorem Closed.handlePlainKey {k : Key} (hP : P (editorText t.editor))
    (hsubmit : k = .keyEnter → entry (editorText t.editor).s = .prompt → I (t.takeInput ans) →
      I ((t.takeInput ans).submitPrompt ans (editorText t.editor))) (ht : I t) :
    I (t.handlePlainKey ans k).1 := by
  cases k with
  | keyEnter => exact h.handleEnter hP (hsubmit rfl) ht
  | keyTab => exact h.cycleTab true ht
  | keyShiftTab => exact h.cycleTab false ht
  | keyCtrlD =>
    simp only [Session.handlePlainKey]
    split
    · exact ht
    · exact h.same ht ⟨rfl, rfl, rfl, rfl⟩
  | keyUp =>
    simp only [Session.handlePlainKey]
    split
    · exact h.historyUp hP ht
    · exact h.same ht ⟨rfl, rfl, rfl, rfl⟩
  | keyDown =>
    simp only [Session.handlePlainKey]
    split
    · exact h.historyDown hP ht
    · exact h.same ht ⟨rfl, rfl, rfl, rfl⟩
  | _ => exact h.same ht ⟨rfl, rfl, rfl, rfl⟩

theorem Closed.handleCodexAuthKey {k : Key} (ht : I t) : I (t.handleCodexAuthKey ans k) := by
  cases k with
  | keyCtrlC => exact h.cancelCodexAuth ht
  | keyCtrlD => exact h.finishCodexAuth ht
  | keyEnter | keyCtrlJ =>
    simp only [Session.handleCodexAuthKey]
    split
    · exact h.finishCodexAuth ht
    · exact h.same ht ⟨rfl, rfl, rfl, rfl⟩
  | _ => exact h.same ht ⟨rfl, rfl, rfl, rfl⟩

theorem Closed.handleChpasswdKey {k : Key} (ht : I t) : I (t.handleChpasswdKey ans k) := by
  cases k with
  | keyCtrlC => exact h.cancelChpasswd ht
  | keyEnter => exact h.field ans ht
  | _ => exact h.same ht ⟨rfl, rfl, rfl, rfl⟩

theorem Closed.handleRotateSSHKeyKey {k : Key} (ht : I t) : I (t.handleRotateSSHKeyKey k) := by
  cases k with
  | keyCtrlC => exact h.cancelRotateSSHKey ht
  | keyEnter => exact h.submitRotateSSHKey ht
  | _ => exact h.same ht ⟨rfl, rfl, rfl, rfl⟩

theorem Closed.runPending (i : ℕ) (ht : I t) : I (t.runPending ans i) := by
  rw [Session.runPending]
  split
  · exact ht
  · rename_i tabID line hi
    have hline : P line := h.pending ht _ (mem_of_getElem? hi)
    have herase := h.erase i ht
    simp only
    split
    · exact h.appendAsyncError herase
    · have hcall := h.call (a := .handle tabID line) hline herase
      split
      · exact hcall
      · exact h.appendAsyncError hcall
      · exact h.appendAsyncError hcall

end Closed

theorem saveHistoryOnExit_of_empty (hempty : t.editor.len = 0) : t.saveHistoryOnExit ans = t := by
  rw [saveHistoryOnExit, if_pos hempty]
  split <;> rfl

/-- A key ends the session only when nothing is in the editor. -/
theorem editor_of_handleKey {k : Key} (h : (t.handleKey ans k).2 = true) :
    (t.handleKey ans k).1.editor.len = 0 := by
  rw [handleKey] at h ⊢
  split_ifs at h ⊢
  cases k with
  | keyCtrlD =>
    simp only [handlePlainKey] at h ⊢
    split at h
    · rename_i hlen
      rw [if_pos hlen]
      exact hlen
    · simp at h
  | keyEnter =>
    simp only [handlePlainKey, handleEnter] at h ⊢
    cases hentry : entry (editorText t.editor).s with
    | exit => rfl
    | _ => simp [hentry] at h
  | keyUp | keyDown =>
    simp only [handlePlainKey] at h
    split at h <;> simp at h
  | _ => simp [handlePlainKey] at h

/-- No dialog is open. -/
def plain (t : Session) : Prop := t.codexauth = false ∧ t.chpasswd = none ∧ t.rotateSSH = false

/-- **Steps.** A closed invariant survives a step, if texts that leave the editor are `P` and the
prompt that is submitted is taken care of. -/
theorem Closed.step (h : Closed P I) {input : Input × Answers} (ht : I t)
    (hP : t.codexauth = false → t.chpasswd = none → P (editorText t.editor))
    (hexit : input.1 = .disconnect → t.exited = false → t.chpasswd = none → t.activeTab ≠ [] →
      blank (editorText t.editor).s = false → P (editorText t.editor))
    (hsubmit : ∀ ans, input.1 = .key .keyEnter → t.exited = false → t.plain →
      entry (editorText t.editor).s = .prompt → I (t.takeInput ans) →
      I ((t.takeInput ans).submitPrompt ans (editorText t.editor))) :
    I (t.step input) := by
  obtain ⟨input, ans⟩ := input
  cases input with
  | runPending i => exact h.runPending i ht
  | view => exact ht
  | refresh =>
    simp only [Session.step]
    split
    · exact ht
    · exact h.refreshState ht
  | disconnect =>
    simp only [Session.step]
    split_ifs with hexited
    · exact ht
    · have hsaved : I (t.saveHistoryOnExit ans) := by
        rw [saveHistoryOnExit]
        split_ifs with hc
        · exact ht
        · exact ht
        · exact h.saveHistoryEntry (hexit rfl (by simpa using hexited) (by simpa using hc)) ht
      exact h.same hsaved ⟨rfl, rfl, rfl, rfl⟩
  | key k =>
    by_cases hexited : t.exited = true
    · simpa only [Session.step, if_pos hexited] using ht
    have hkey : I (t.handleKey ans k).1 := by
      rw [handleKey]
      split_ifs with h1 h2 h3
      · exact h.handleCodexAuthKey ht
      · exact h.handleChpasswdKey ht
      · exact h.handleRotateSSHKeyKey ht
      · have hplain : t.plain := ⟨by simpa using h1, by simpa using h2, by simpa using h3⟩
        refine h.handlePlainKey (hP hplain.1 hplain.2.1) (fun hk => ?_) ht
        exact hsubmit ans (by rw [hk]) (by simpa using hexited) hplain
    simp only [Session.step, if_neg hexited]
    split_ifs with hends
    · rw [Session.exit, saveHistoryOnExit_of_empty (editor_of_handleKey hends)]
      exact h.same hkey ⟨rfl, rfl, rfl, rfl⟩
    · exact hkey

end Session

end Centaurx.SshServer
