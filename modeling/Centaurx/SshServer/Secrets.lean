import Centaurx.SshServer.SessionFacts

namespace Centaurx.SshServer
open Go Runs List

/-- The texts of the call have no secret runes. A command line counts, too: the handler may put
it into the output. -/
def Act.discreet : Act → Bool
  | .appendHistory _ entry => !entry.secret
  | .appendOutput _ lines => lines.all fun line => !line.secret
  | .appendSystemOutput lines => lines.all fun line => !line.secret
  | .sendPrompt _ prompt _ => !prompt.text.secret
  | .handle _ line => !line.secret
  | _ => true

/-- The fields of the password dialog that were submitted. -/
def entries (trace : List Act) : List (ChpasswdStep × GoString) :=
  trace.filterMap fun
    | .entered step value => some (step, value)
    | _ => none

/-- The password was entered in the step for the new one and again in the next step, and since
then only codes were. -/
def EnteredTwice (password : GoString) (trace : List Act) : Prop :=
  ∃ before codes, entries trace = before ++ (.chpasswdStepNew, password) ::
    (.chpasswdStepConfirm, password) :: codes ∧ ∀ e ∈ codes, e.1 = .chpasswdStepTOTP

namespace Session

/-- The connection does not end in the codex-auth dialog with text in it and a tab open. -/
def Guarded (t : Session) (input : Input × Answers) : Prop :=
  input.1 = .disconnect → t.exited = false → t.codexauth = true → t.activeTab ≠ [] →
    blank (editorText t.editor).s = true

instance (t : Session) (input : Input × Answers) : Decidable (t.Guarded input) :=
  inferInstanceAs (Decidable (_ → _ → _ → _ → _))

variable {ans : Answers} {t t' : Session}

/-- What decides how keys are taken. -/
def input (t : Session) : LineEditor Typed × Bool × Option ChpasswdState :=
  (t.editor, t.codexauth, t.chpasswd)

/-- The editor has secret runes only inside of the two dialogs, and no others in the codex-auth
dialog. -/
structure Typing (t : Session) : Prop where
  outside : t.codexauth = false → t.chpasswd = none → ∀ x ∈ t.editor.text, x.secret = false
  inside : t.codexauth = true → t.chpasswd = none ∧ ∀ x ∈ t.editor.text, x.secret = true

theorem input_eq (h : t'.input = t.input) :
    t'.editor = t.editor ∧ t'.codexauth = t.codexauth ∧ t'.chpasswd = t.chpasswd := by
  simpa [input] using h

theorem Typing.of_input (h : t.Typing) (hinput : t'.input = t.input) : t'.Typing := by
  obtain ⟨he, hc, hp⟩ := input_eq hinput
  exact ⟨by rw [he, hc, hp]; exact h.outside, by rw [he, hc, hp]; exact h.inside⟩

/-- An empty line is fine everywhere. -/
theorem Typing.of_empty (hbuf : t.editor.text = []) (hc : t.codexauth = true → t.chpasswd = none) :
    t.Typing :=
  ⟨fun _ _ => by simp [hbuf], fun h => ⟨hc h, by simp [hbuf]⟩⟩

@[simp] theorem call_input (a : Act) : (t.call a).input = t.input := rfl

@[simp]
theorem appendError_input (tabID : TabID) (err : GoString) :
    (t.appendError tabID err).input = t.input := by
  rw [appendError]
  split <;> rfl

@[simp]
theorem appendMessage_input (tabID : TabID) (message : GoString) :
    (t.appendMessage tabID message).input = t.input := by
  rw [appendMessage]
  split_ifs <;> rfl

@[simp]
theorem appendAsyncError_input (tabID : TabID) (err : GoString) :
    (t.appendAsyncError tabID err).input = t.input := by
  rw [appendAsyncError]
  split <;> rfl

@[simp]
theorem saveHistoryEntry_input (entry : Text) :
    (t.saveHistoryEntry ans entry).input = t.input := by
  simp only [saveHistoryEntry]
  split_ifs
  · rfl
  · rfl
  · split <;> rfl

@[simp]
theorem saveHistoryDraft_input : (t.saveHistoryDraft ans).1.input = t.input := by
  simp only [saveHistoryDraft]
  split_ifs
  · rfl
  · rfl
  · rfl
  · split <;> rfl

@[simp]
theorem refreshHistory_input : (t.refreshHistory ans).input = t.input := by
  rw [refreshHistory]
  split_ifs <;> rfl

@[simp]
theorem submitPrompt_input (raw : Text) : (t.submitPrompt ans raw).input = t.input := by
  simp only [submitPrompt]
  split
  · rfl
  · split
    · rfl
    · split
      · rfl
      · rfl
      · rw [appendError_input]
        rfl

@[simp]
theorem drain_input (tab : TabID × TabStatus) : (t.drain ans tab).input = t.input := by
  rw [drain]
  split
  · rfl
  · split
    · rfl
    · split
      · rfl
      · rw [appendError_input]
        rfl
      · rfl

@[simp]
theorem refreshState_input : (t.refreshState ans).input = t.input := by
  have hdrain : ∀ (tabs : List (TabID × TabStatus)) (t : Session),
      (tabs.foldl (drain ans) t).input = t.input := by
    intro tabs
    induction tabs with
    | nil => exact fun _ => rfl
    | cons tab tabs ih => exact fun t => (ih _).trans (drain_input tab)
  rw [refreshState]
  split
  · rfl
  · simp only [hdrain]
    split
    · rw [refreshHistory_input]
      rfl
    · rfl

@[simp]
theorem handleCommand_input (line : Text) : (t.handleCommand ans line).input = t.input := by
  simp only [handleCommand]
  split
  · simp
  · split <;> simp

@[simp]
theorem runPending_input (i : ℕ) : (t.runPending ans i).input = t.input := by
  rw [runPending]
  split
  · rfl
  · simp only
    split
    · rw [appendAsyncError_input]
      rfl
    · split <;> simp <;> rfl

theorem typed_secret (r : ℕ) : (t.typed r).secret = (t.codexauth || t.chpasswd.isSome) := rfl

/-- Editing keys put in runes with the mark of the dialog. -/
theorem Typing.editor (h : t.Typing) {e : LineEditor Typed}
    (he : ∀ x ∈ e.text, (∃ r, x = t.typed r) ∨ x ∈ t.editor.text) :
    Typing { t with editor := e } := by
  refine ⟨fun h1 h2 x hx => ?_, fun h1 => ⟨(h.inside h1).1, fun x hx => ?_⟩⟩
  · rcases he x hx with ⟨r, rfl⟩ | hx
    · have h1' : t.codexauth = false := h1
      have h2' : t.chpasswd = none := h2
      rw [typed_secret, h1', h2']
      rfl
    · exact h.outside h1 h2 x hx
  · rcases he x hx with ⟨r, rfl⟩ | hx
    · have h1' : t.codexauth = true := h1
      rw [typed_secret, h1']
      rfl
    · exact (h.inside h1).2 x hx

theorem Typing.editKey (h : t.Typing) (k : Key) : (t.editKey k).Typing :=
  h.editor fun _ hx => LineEditor.mem_edit hx

theorem Typing.dirty (h : t.Typing) (historyDirty : Bool) : Typing { t with historyDirty } :=
  h.of_input rfl

theorem Typing.insertLineBreak (h : t.Typing) : t.insertLineBreak.Typing :=
  h.editor fun _ hx => (LineEditor.mem_insert hx).imp (fun hx => ⟨_, hx⟩) id

theorem Typing.showHistory (h : t.Typing) (hc : t.codexauth = false) : t.showHistory.Typing := by
  rw [Session.showHistory]
  split
  · exact h
  · refine ⟨fun _ _ x hx => ?_, fun h1 => ?_⟩
    · obtain ⟨r, -, rfl⟩ := mem_map.mp (LineEditor.setString_text _ ▸ hx)
      rfl
    · exact absurd (hc.symm.trans h1) (by decide)

theorem Typing.draft (ans : Answers) (h : t.Typing) (hc : t.codexauth = false) :
    (t.saveHistoryDraft ans).1.Typing ∧ (t.saveHistoryDraft ans).1.codexauth = false := by
  have hinput : (t.saveHistoryDraft ans).1.input = t.input := saveHistoryDraft_input
  exact ⟨h.of_input hinput, (input_eq hinput).2.1.trans hc⟩

theorem Typing.historyUp (h : t.Typing) (hc : t.codexauth = false) :
    (t.historyUp ans).Typing := by
  obtain ⟨hdraft, hc'⟩ := h.draft ans hc
  simp only [Session.historyUp]
  split
  · exact h
  · split
    · exact hdraft
    · exact Typing.showHistory (hdraft.of_input rfl) hc'

theorem Typing.historyDown (h : t.Typing) (hc : t.codexauth = false) :
    (t.historyDown ans).Typing := by
  obtain ⟨hdraft, hc'⟩ := h.draft ans hc
  simp only [Session.historyDown]
  split
  · exact h
  · split
    · exact hdraft
    · exact Typing.showHistory (hdraft.of_input rfl) hc'

theorem takeInput_input :
    (t.takeInput ans).input = (.clear, t.codexauth, t.chpasswd) := by
  have h : (t.saveHistoryEntry ans (editorText t.editor)).input = t.input :=
    saveHistoryEntry_input _
  rw [takeInput, Session.input]
  simp only [Session.input, Prod.mk.injEq] at h
  rw [h.2.1, h.2.2]

theorem handleEnter_typing (hc : t.codexauth = false) (hp : t.chpasswd = none) :
    (t.handleEnter ans).1.Typing := by
  have htake : (t.takeInput ans).Typing := by
    have h : Typing { t with editor := .clear } := .of_empty rfl fun _ => hp
    exact h.of_input takeInput_input
  have hp' : (t.takeInput ans).chpasswd = none := by
    rw [← hp]
    exact congrArg (fun x => x.2.2) takeInput_input
  have hc' : (t.takeInput ans).codexauth = false := by
    rw [← hc]
    exact congrArg (fun x => x.2.1) takeInput_input
  rw [handleEnter]
  cases entry (editorText t.editor).s with
  | nothing | exit => exact htake
  | chpasswd =>
    simp only [startChpasswd]
    split
    · exact htake.of_input (appendError_input _ _)
    · exact .of_empty rfl fun h => absurd (hc'.symm.trans h) (by decide)
  | codexauth | rotateSSHKey => exact .of_empty rfl fun _ => hp'
  | async => exact htake.of_input rfl
  | command => exact htake.of_input ((refreshState_input).trans (handleCommand_input _))
  | prompt => exact htake.of_input (submitPrompt_input _)

theorem submitChpasswdField_typing (hc : t.codexauth = false) (hp : t.chpasswd ≠ none) :
    (t.submitChpasswdField ans).Typing := by
  obtain ⟨c, hp⟩ := Option.ne_none_iff_exists'.mp hp
  have hoff : ∀ {t' : Session}, t'.editor = .clear → t'.codexauth = false → t'.Typing :=
    fun he h1 => .of_empty (by rw [he]; rfl) fun h2 => absurd (h1.symm.trans h2) (by decide)
  simp only [submitChpasswdField, hp]
  split
  · split
    · refine Typing.of_input ?_ (appendError_input _ _)
      exact hoff rfl hc
    · exact hoff rfl hc
  · split
    · refine Typing.of_input ?_ (appendError_input _ _)
      exact hoff rfl hc
    · split
      · obtain ⟨he, hc', -⟩ := input_eq (appendError_input _ _)
        exact hoff he (hc'.trans hc)
      · split
        · exact hoff rfl ((input_eq (appendError_input _ _)).2.1.trans hc)
        · obtain ⟨he, hc', -⟩ := input_eq (appendMessage_input _ _)
          exact hoff he (hc'.trans hc)
  · split
    · refine Typing.of_input ?_ (appendError_input _ _)
      exact hoff rfl hc
    · exact hoff rfl hc
  · split
    · obtain ⟨he, hc', -⟩ := input_eq (appendError_input _ _)
      exact hoff he (hc'.trans hc)
    · exact hoff rfl hc

theorem finishCodexAuth_typing (hp : t.chpasswd = none) : (t.finishCodexAuth ans).Typing := by
  have hclear : Typing { t with editor := .clear, codexauth := false, notice := [] } :=
    .of_empty rfl fun _ => hp
  simp only [finishCodexAuth]
  split
  · exact hclear.of_input (appendError_input _ _)
  · split
    · exact hclear.of_input (appendError_input _ _)
    · exact hclear.of_input (appendMessage_input _ _)

theorem submitRotateSSHKey_typing (hp : t.chpasswd = none) : t.submitRotateSSHKey.Typing := by
  have hclear : Typing { t with editor := .clear, rotateSSH := false, notice := [] } :=
    .of_empty rfl fun _ => hp
  simp only [submitRotateSSHKey]
  split
  · exact hclear.of_input (appendMessage_input _ _)
  · exact hclear.of_input rfl

theorem cancelCodexAuth_typing (hp : t.chpasswd = none) : t.cancelCodexAuth.Typing := by
  refine Typing.of_input ?_ (appendMessage_input _ _)
  exact .of_empty rfl fun _ => hp

theorem cancelChpasswd_typing : t.cancelChpasswd.Typing := by
  refine Typing.of_input ?_ (appendMessage_input _ _)
  exact .of_empty rfl fun _ => rfl

theorem cancelRotateSSHKey_typing (hp : t.chpasswd = none) : t.cancelRotateSSHKey.Typing := by
  refine Typing.of_input ?_ (appendMessage_input _ _)
  exact .of_empty rfl fun _ => hp

theorem Typing.handleCodexAuthKey (h : t.Typing) (hc : t.codexauth = true) (k : Key) :
    (t.handleCodexAuthKey ans k).Typing := by
  have hp := (h.inside hc).1
  cases k with
  | keyCtrlC => exact cancelCodexAuth_typing hp
  | keyCtrlD => exact finishCodexAuth_typing hp
  | keyEnter | keyCtrlJ =>
    simp only [Session.handleCodexAuthKey]
    split
    · exact finishCodexAuth_typing hp
    · exact h.insertLineBreak
  | _ => exact h.editKey _

theorem Typing.handleChpasswdKey (h : t.Typing) (hc : t.codexauth = false) (hp : t.chpasswd ≠ none)
    (k : Key) : (t.handleChpasswdKey ans k).Typing := by
  cases k with
  | keyCtrlC => exact cancelChpasswd_typing
  | keyEnter => exact submitChpasswdField_typing hc hp
  | _ => exact h.editKey _

theorem Typing.handleRotateSSHKeyKey (h : t.Typing) (hp : t.chpasswd = none) (k : Key) :
    (t.handleRotateSSHKeyKey k).Typing := by
  cases k with
  | keyCtrlC => exact cancelRotateSSHKey_typing hp
  | keyEnter => exact submitRotateSSHKey_typing hp
  | _ => exact h.editKey _

theorem Typing.cycleTab (h : t.Typing) (forward : Bool) : (t.cycleTab ans forward).Typing := by
  rw [Session.cycleTab]
  split
  · exact h
  · split
    · exact h
    · exact (h.of_input rfl).of_input refreshState_input

theorem Typing.handlePlainKey (h : t.Typing) (hc : t.codexauth = false) (hp : t.chpasswd = none)
    (k : Key) : (t.handlePlainKey ans k).1.Typing := by
  cases k with
  | keyEnter => exact handleEnter_typing hc hp
  | keyCtrlC => exact .of_empty rfl fun _ => hp
  | keyCtrlJ => exact h.insertLineBreak.dirty true
  | keyTab => exact h.cycleTab true
  | keyShiftTab => exact h.cycleTab false
  | keyCtrlD =>
    simp only [Session.handlePlainKey]
    split
    · exact h
    · exact h.editor fun _ hx => .inr (LineEditor.delete_subset hx)
  | keyUp =>
    simp only [Session.handlePlainKey]
    split
    · exact h.historyUp hc
    · exact h.editor fun _ hx => .inr (Zipper.up_text _ _ ▸ hx)
  | keyDown =>
    simp only [Session.handlePlainKey]
    split
    · exact h.historyDown hc
    · exact h.editor fun _ hx => .inr (Zipper.down_text _ _ ▸ hx)
  | _ => exact (h.editKey _).dirty _

theorem Typing.handleKey (h : t.Typing) (k : Key) : (t.handleKey ans k).1.Typing := by
  rw [Session.handleKey]
  split_ifs with h1 h2 h3
  · exact h.handleCodexAuthKey h1 k
  · exact h.handleChpasswdKey (by simpa using h1) (Option.isSome_iff_ne_none.mp h2) k
  · exact h.handleRotateSSHKeyKey (by simpa using h2) k
  · exact h.handlePlainKey (by simpa using h1) (by simpa using h2) k

theorem Typing.exit (h : t.Typing) : (t.exit ans).Typing := by
  refine h.of_input ?_
  rw [Session.exit]
  simp only [saveHistoryOnExit]
  split_ifs
  · rfl
  · rfl
  · exact saveHistoryEntry_input _

/-- Every step keeps secret runes where they are. -/
theorem Typing.step (h : t.Typing) (input : Input × Answers) : (t.step input).Typing := by
  obtain ⟨input, ans⟩ := input
  cases input with
  | runPending i => exact h.of_input (runPending_input i)
  | view => exact h
  | refresh =>
    simp only [Session.step]
    split
    · exact h
    · exact h.of_input refreshState_input
  | disconnect =>
    simp only [Session.step]
    split
    · exact h
    · exact h.exit
  | key k =>
    simp only [Session.step]
    split_ifs
    · exact h
    · exact (h.handleKey k).exit
    · exact h.handleKey k

/-- Nothing secret has left the dialogs. -/
structure Discreet (t : Session) : Prop where
  queues : ∀ tab, ∀ p ∈ t.queues tab, p.text.secret = false
  pending : ∀ c ∈ t.pending, c.2.secret = false
  trace : ∀ a ∈ t.trace, a.discreet = true

variable {a : Act}

theorem discreet_of_plain (h : a.Plain fun x => x.secret = false) : a.discreet = true := by
  cases a <;> simp_all [Act.Plain, Act.discreet]

theorem Discreet.call (h : t.Discreet) (ha : a.discreet = true) : (t.call a).Discreet :=
  ⟨h.queues, h.pending, forall_mem_append.mpr ⟨h.trace, by simpa using ha⟩⟩

theorem Discreet.update (h : t.Discreet) (tab : TabID) {queue : List Prompt}
    (hq : ∀ p ∈ queue, p.text.secret = false) :
    Discreet { t with queues := Function.update t.queues tab queue } := by
  refine ⟨fun tab' p hp => ?_, h.pending, h.trace⟩
  by_cases htab : tab' = tab
  · subst htab
    exact hq p (by simpa using hp)
  · exact h.queues tab' p (by simpa [htab] using hp)

theorem discreet_speaks : Speaks (fun x => x.secret = false) Discreet where
  plain _ := rfl
  map _ h := h
  same h hs := ⟨hs.queues ▸ h.queues, hs.pending ▸ h.pending, hs.trace ▸ h.trace⟩
  call ha h := h.call (discreet_of_plain ha)

theorem discreet_prompts : Prompts (fun x => x.secret = false) Discreet where
  submitted _ _ _ h := h.call rfl
  send _ _ _ hp h := h.call (by simpa [Act.discreet] using hp)
  push tab p hp h := h.update tab (forall_mem_append.mpr ⟨h.queues tab, by simpa using hp⟩)
  pop hq h := h.update _ fun p hp => h.queues _ p (by rw [hq]; simp [hp])
  queued h := h.queues

theorem discreet_closed : Closed (fun x => x.secret = false) Discreet where
  toSpeaks := discreet_speaks
  dialog _ h := ⟨h.queues, h.pending, h.trace⟩
  field _ _ h := discreet_speaks.field (fun _ h => ⟨h.queues, h.pending, h.trace⟩)
    (fun _ _ h => h.call rfl) (fun _ _ _ h => h.call rfl) h
  spawn hline h :=
    ⟨h.queues, forall_mem_append.mpr ⟨h.pending, by simpa using hline⟩, h.trace⟩
  erase _ h := ⟨h.queues, fun c hc => h.pending c (mem_of_mem_eraseIdx hc), h.trace⟩
  pending h := h.pending
  drain _ _ _ h := discreet_speaks.drain discreet_prompts h

theorem editorText_secret (h : ∀ x ∈ t.editor.text, x.secret = false) :
    (editorText t.editor).secret = false := by
  simpa [editorText] using h

theorem Discreet.step (h : t.Discreet) (htyping : t.Typing) {input : Input × Answers}
    (hguard : t.Guarded input) : (t.step input).Discreet := by
  refine discreet_closed.step h (fun h1 h2 => editorText_secret (htyping.outside h1 h2))
    (fun hinput hexited hp htab hblank => editorText_secret ?_) ?_
  · by_cases hc : t.codexauth = true
    · have := hguard hinput hexited hc htab
      rw [hblank] at this
      exact absurd this (by decide)
    · exact htyping.outside (by simpa using hc) hp
  · intro ans _ _ hplain _ htake
    exact discreet_speaks.submitPrompt discreet_prompts
      (editorText_secret (htyping.outside hplain.1 hplain.2.1)) htake

theorem mem_speaks (a : Act) : Speaks (fun _ => True) fun t => a ∈ t.trace where
  plain _ := trivial
  map _ h := h
  same h hs := hs.trace ▸ h
  call _ h := mem_append_left _ h

theorem mem_prompts (a : Act) : Prompts (fun _ => True) fun t => a ∈ t.trace where
  submitted _ _ _ h := mem_append_left _ h
  send _ _ _ _ h := mem_append_left _ h
  push _ _ _ h := h
  pop _ h := h
  queued _ _ _ _ := trivial

theorem mem_closed (a : Act) : Closed (fun _ => True) fun t => a ∈ t.trace where
  toSpeaks := mem_speaks a
  dialog _ h := h
  field _ _ h := (mem_speaks a).field (fun _ h => h) (fun _ _ h => mem_append_left _ h)
    (fun _ _ _ h => mem_append_left _ h) h
  spawn _ h := h
  erase _ h := h
  pending _ _ _ := trivial
  drain _ _ _ h := (mem_speaks a).drain (mem_prompts a) h

theorem mem_trace_exec (h : a ∈ t.trace) (inputs : List (Input × Answers)) :
    a ∈ (exec Session.step t inputs).trace := by
  refine exec_invariant (I := fun t : Session => a ∈ t.trace) (fun t input ht => ?_) h inputs
  exact (mem_closed a).step ht (fun _ _ => trivial) (fun _ _ _ _ _ => trivial)
    fun _ _ _ _ _ htake => (mem_speaks a).submitPrompt (mem_prompts a) trivial htake

/-- At the end of a connection that is not guarded, a secret goes to the history. -/
theorem leak (h : t.Typing) {input : Input × Answers} (hguard : ¬t.Guarded input) :
    ∃ a ∈ (t.step input).trace, a.discreet = false := by
  obtain ⟨input, ans⟩ := input
  simp only [Guarded, Classical.not_imp] at hguard
  obtain ⟨rfl, hexited, hc, htab, hblank⟩ := hguard
  obtain ⟨hp, hsecret⟩ := h.inside hc
  obtain ⟨x, hx⟩ : ∃ x, x ∈ t.editor.text := by
    refine exists_mem_of_ne_nil _ fun hnil => hblank ?_
    rw [editorText, hnil]
    exact blank_nil
  refine ⟨.appendHistory t.activeTab (editorText t.editor), ?_, ?_⟩
  · have hlen : t.editor.len ≠ 0 := by simpa [LineEditor.len] using ne_nil_of_mem hx
    simp only [Session.step, hexited, Session.exit, saveHistoryOnExit, hp, hlen, saveHistoryEntry,
      htab, hblank, Option.isSome_none, Bool.false_eq_true, if_false]
    split <;> simp [Session.call]
  · simp only [Act.discreet, editorText, Bool.not_eq_false', any_eq_true]
    exact ⟨x, hx, hsecret x hx⟩

/-- Every password that was set had been entered twice. -/
def AllSet (t : Session) : Prop :=
  ∀ i current totp newPassword, t.trace[i]? = some (.changePassword current totp newPassword) →
    EnteredTwice newPassword (t.trace.take i)

/-- The dialog asks for the new password again only after it was entered, and for the code only
after it was entered twice. -/
structure Confirmed (t : Session) : Prop where
  set : t.AllSet
  confirm : ∀ c, t.chpasswd = some c → c.step = .chpasswdStepConfirm →
    ∃ before, entries t.trace = before ++ [(.chpasswdStepNew, c.newPassword)]
  totp : ∀ c, t.chpasswd = some c → c.step = .chpasswdStepTOTP → EnteredTwice c.newPassword t.trace

theorem AllSet.call (h : t.AllSet)
    (ha : ∀ current totp newPassword, a = .changePassword current totp newPassword →
      EnteredTwice newPassword t.trace) :
    (t.call a).AllSet := by
  intro i current totp newPassword hi
  have htrace : (t.call a).trace = t.trace ++ [a] := rfl
  rw [htrace] at hi ⊢
  rcases lt_or_ge i t.trace.length with hlt | hge
  · rw [getElem?_append_left hlt] at hi
    rw [take_append_of_le_length hlt.le]
    exact h i current totp newPassword hi
  · have hi' : i = t.trace.length := by
      have := (List.getElem?_eq_some_iff.mp hi).1
      simp at this
      omega
    subst hi'
    rw [take_left]
    exact ha current totp newPassword (by simpa using hi)

theorem allSet_speaks : Speaks (fun _ => True) AllSet where
  plain _ := trivial
  map _ h := h
  same h hs := by
    rw [AllSet, hs.trace]
    exact h
  call ha h := h.call fun _ _ _ ha' => by simp [ha', Act.Plain] at ha

/-- Nothing is said of the dialog at its other steps. -/
theorem AllSet.confirmed (h : t.AllSet)
    (hc : ∀ c, t.chpasswd = some c → c.step = .chpasswdStepCurrent ∨ c.step = .chpasswdStepNew) :
    t.Confirmed := by
  refine ⟨h, fun c hp hstep => ?_, fun c hp hstep => ?_⟩
  · rcases hc c hp with h1 | h1 <;> exact absurd (h1.symm.trans hstep) (by decide)
  · rcases hc c hp with h1 | h1 <;> exact absurd (h1.symm.trans hstep) (by decide)

theorem entries_concat (trace : List Act) (a : Act) :
    entries (trace ++ [a]) = entries trace ++ entries [a] := filterMap_append

/-- A call that is not a field of the dialog. -/
theorem Confirmed.call (h : t.Confirmed) (ha : entries [a] = [])
    (ha' : ∀ current totp newPassword, a ≠ .changePassword current totp newPassword) :
    (t.call a).Confirmed := by
  have htrace : entries (t.call a).trace = entries t.trace := by
    rw [Session.call, entries_concat, ha, append_nil]
  refine ⟨h.set.call fun _ _ _ h1 => absurd h1 (ha' _ _ _), ?_, ?_⟩
  · intro c hp hstep
    rw [htrace]
    exact h.confirm c hp hstep
  · intro c hp hstep
    rw [EnteredTwice, htrace]
    exact h.totp c hp hstep

theorem confirmed_speaks : Speaks (fun _ => True) Confirmed where
  plain _ := trivial
  map _ h := h
  same h hs := by
    refine ⟨allSet_speaks.same h.set hs, ?_, ?_⟩
    · rw [hs.chpasswd, hs.trace]
      exact h.confirm
    · rw [hs.chpasswd, hs.trace]
      exact h.totp
  call {_ a} ha h := by
    refine h.call ?_ fun _ _ _ h1 => by simp [h1, Act.Plain] at ha
    cases a with
    | entered => exact ha.elim
    | _ => rfl

theorem confirmed_prompts : Prompts (fun _ => True) Confirmed where
  submitted _ _ _ h := h.call rfl (by simp)
  send _ _ _ _ h := h.call rfl (by simp)
  push _ _ _ h := ⟨h.set, h.confirm, h.totp⟩
  pop _ h := ⟨h.set, h.confirm, h.totp⟩
  queued _ _ _ _ := trivial

theorem enteredTwice_code {password : GoString} {trace : List Act} (h : EnteredTwice password trace)
    (value : GoString) : EnteredTwice password (trace ++ [.entered .chpasswdStepTOTP value]) := by
  obtain ⟨before, codes, hentries, hcodes⟩ := h
  refine ⟨before, codes ++ [(.chpasswdStepTOTP, value)], ?_, ?_⟩
  · rw [entries_concat, hentries]
    simp [entries]
  · exact forall_mem_append.mpr ⟨hcodes, by simp⟩

/-- What is to be shown of the dialog at the step it has come to. -/
theorem AllSet.dialog (h : t.AllSet) {c : ChpasswdState} (hc : t.chpasswd = some c)
    (hconfirm : c.step = .chpasswdStepConfirm →
      ∃ before, entries t.trace = before ++ [(.chpasswdStepNew, c.newPassword)])
    (htotp : c.step = .chpasswdStepTOTP → EnteredTwice c.newPassword t.trace) : t.Confirmed := by
  refine ⟨h, fun c' hc' => ?_, fun c' hc' => ?_⟩
  · obtain rfl := Option.some.inj (hc.symm.trans hc')
    exact hconfirm
  · obtain rfl := Option.some.inj (hc.symm.trans hc')
    exact htotp

theorem Confirmed.field (h : t.Confirmed) : (t.submitChpasswdField ans).Confirmed := by
  rw [submitChpasswdField]
  split
  · exact h
  · rename_i c hc
    have hset : AllSet ({ t with editor := .clear }.call
        (.entered c.step (editorText t.editor).s)) :=
      AllSet.call (t := { t with editor := .clear }) h.set (by simp)
    simp only
    cases hstep : c.step with
    | chpasswdStepCurrent =>
      rw [hstep] at hset
      dsimp only
      split
      · exact confirmed_speaks.appendError (hset.dialog hc (by simp [hstep]) (by simp [hstep]))
      · exact AllSet.dialog hset rfl (by simp) (by simp)
    | chpasswdStepNew =>
      rw [hstep] at hset
      dsimp only
      split
      · exact confirmed_speaks.appendError (hset.dialog hc (by simp [hstep]) (by simp [hstep]))
      · exact AllSet.dialog hset rfl (fun _ => ⟨entries t.trace, entries_concat _ _⟩) (by simp)
    | chpasswdStepConfirm =>
      rw [hstep] at hset
      dsimp only
      split
      · exact AllSet.dialog (allSet_speaks.appendError hset) rfl (by simp) (by simp)
      · rename_i hvalue
        obtain ⟨before, hbefore⟩ := h.confirm c hc hstep
        refine AllSet.dialog hset rfl (by simp) fun _ => ⟨before, [], ?_, by simp⟩
        simp only [Session.call, entries_concat, hbefore]
        simp [entries, not_not.mp hvalue]
    | chpasswdStepTOTP =>
      rw [hstep] at hset
      dsimp only
      have htwice := enteredTwice_code (h.totp c hc hstep) (editorText t.editor).s
      split
      · exact confirmed_speaks.appendError (hset.dialog hc (by simp [hstep]) fun _ => htwice)
      · split
        · exact AllSet.confirmed (allSet_speaks.appendError hset) (by simp)
        · have hchange : ∀ t' : Session, t'.trace = t.trace ++ [.entered .chpasswdStepTOTP
              (editorText t.editor).s] → AllSet t' → AllSet (t'.call
                (.changePassword c.current (editorText t.editor).s c.newPassword)) := by
            intro t' htrace ht'
            refine ht'.call fun current totp newPassword heq => ?_
            obtain ⟨-, -, rfl⟩ := Act.changePassword.inj heq
            rw [htrace]
            exact htwice
          split
          · exact AllSet.dialog (allSet_speaks.appendError (hchange _ rfl hset)) rfl (by simp)
              (by simp)
          · exact AllSet.confirmed (allSet_speaks.appendMessage (hchange _ rfl hset)) (by simp)

theorem confirmed_closed : Closed (fun _ => True) Confirmed where
  toSpeaks := confirmed_speaks
  dialog {t c} hc h := by
    have hset : AllSet { t with chpasswd := c } := h.set
    refine hset.confirmed fun c' hc' => .inl ?_
    rcases hc with rfl | rfl
    · simp at hc'
    · rw [← Option.some.inj hc']
  field _ _ h := h.field
  spawn _ h := ⟨h.set, h.confirm, h.totp⟩
  erase _ h := ⟨h.set, h.confirm, h.totp⟩
  pending _ _ _ := trivial
  drain _ _ _ h := confirmed_speaks.drain confirmed_prompts h

theorem Confirmed.step (h : t.Confirmed) (input : Input × Answers) : (t.step input).Confirmed :=
  confirmed_closed.step h (fun _ _ => trivial) (fun _ _ _ _ _ => trivial)
    fun _ _ _ _ _ htake => confirmed_speaks.submitPrompt confirmed_prompts trivial htake

theorem guarded_of_discreet (h : t.Typing) {inputs : List (Input × Answers)}
    (hdiscreet : ∀ a ∈ (exec Session.step t inputs).trace, a.discreet = true) :
    Meets Session.step Guarded t inputs := by
  induction inputs generalizing t with
  | nil => trivial
  | cons input inputs ih =>
    refine ⟨?_, ih (h.step input) hdiscreet⟩
    by_contra hguard
    obtain ⟨a, ha, hleak⟩ := leak h hguard
    have := hdiscreet a (mem_trace_exec ha inputs)
    rw [hleak] at this
    exact absurd this (by decide)

end Session

open Centaurx.SshServer.Session

theorem typing_new (hasHandler hasAuthStore : Bool) :
    (newTerminalSession hasHandler hasAuthStore).Typing := .of_empty rfl fun _ => rfl

theorem discreet_new (hasHandler hasAuthStore : Bool) :
    (newTerminalSession hasHandler hasAuthStore).Discreet :=
  ⟨fun _ _ hp => by simp [newTerminalSession] at hp, fun _ hc => by simp [newTerminalSession] at hc,
    fun _ ha => by simp [newTerminalSession] at ha⟩

theorem confirmed_new (hasHandler hasAuthStore : Bool) :
    (newTerminalSession hasHandler hasAuthStore).Confirmed :=
  AllSet.confirmed (fun i _ _ _ hi => by simp [newTerminalSession] at hi)
    (by simp [newTerminalSession])

/-- **Secrets.** In a run of a session, no call passes on text from the dialogs exactly when the
connection does not end in the codex-auth dialog with text in it; and a password is set only
after it was entered twice. -/
theorem secrets_stay_out (hasHandler hasAuthStore : Bool) (inputs : List (Input × Answers)) :
    ((∀ a ∈ (exec Session.step (newTerminalSession hasHandler hasAuthStore) inputs).trace,
        a.discreet = true) ↔
      Meets Session.step Guarded (newTerminalSession hasHandler hasAuthStore) inputs) ∧
    ∀ i current totp newPassword,
      (exec Session.step (newTerminalSession hasHandler hasAuthStore) inputs).trace[i]? =
          some (.changePassword current totp newPassword) →
        EnteredTwice newPassword
          ((exec Session.step (newTerminalSession hasHandler hasAuthStore) inputs).trace.take
            i) := by
  refine ⟨⟨guarded_of_discreet (typing_new _ _), fun hguard => ?_⟩, ?_⟩
  · have hinv := hguard.invariant (I := fun t => t.Typing ∧ t.Discreet)
      (fun t input h hg => ⟨h.1.step input, h.2.step h.1 hg⟩)
      ⟨typing_new hasHandler hasAuthStore, discreet_new hasHandler hasAuthStore⟩
    exact hinv.2.trace
  · exact (exec_invariant (I := Confirmed) (fun _ input h => h.step input)
      (confirmed_new hasHandler hasAuthStore) inputs).set

/-- What was pasted into the codex-auth dialog when the connection broke goes to the history. -/
theorem secret_in_history :
    (exec Session.step (newTerminalSession true true)
      ((.refresh, { listTabs := some ⟨[(lit "t", .idle)], lit "t"⟩ }) ::
        types (lit "/codexauth") ++ (.key .keyEnter, noAnswers) ::
        types (lit "token") ++ [(.disconnect, noAnswers)])).trace =
      [.appendHistory (lit "t") ⟨lit "/codexauth", false⟩,
        .appendHistory (lit "t") ⟨lit "token", true⟩] := by
  decide

end Centaurx.SshServer
