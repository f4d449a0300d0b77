import Centaurx.Schema
import Centaurx.Lib.Runs
import Centaurx.SshServer.Editor

/-!
# A terminal session

The session takes keys, refreshes and the end of the connection one after the other. It calls
the service, the auth store and the command handler, which may answer anything; a step is given
with the answers its calls get. The buffer on the screen is left out: what it is refreshed and
scrolled with carries no text.

Two things are kept that the program does not have: every rune of the editor remembers whether
it was typed into the password dialog or the codex-auth dialog, and the session has a trace of
its calls.
-/

namespace Centaurx.SshServer
open Go Runs Function

/-- A rune of the editor; `secret` when it was typed into one of the two dialogs. -/
structure Typed where
  r : ℕ
  secret : Bool
  deriving DecidableEq

/-- A string, and whether secret runes went into it. -/
structure Text where
  s : GoString
  secret : Bool
  deriving DecidableEq

/-- A string of the program or of the service. -/
def Text.plain (s : GoString) : Text := ⟨s, false⟩

def Text.map (f : GoString → GoString) (t : Text) : Text := { t with s := f t.s }

/-- A prompt with its place in the trace, which tells it from other prompts with this text. -/
structure Prompt where
  id : ℕ
  text : Text
  deriving DecidableEq

inductive ChpasswdStep
  | chpasswdStepCurrent | chpasswdStepNew | chpasswdStepConfirm | chpasswdStepTOTP
  deriving DecidableEq

structure ChpasswdState where
  step : ChpasswdStep := .chpasswdStepCurrent
  current : GoString := []
  totp : GoString := []
  newPassword : GoString := []
  deriving DecidableEq

/-- What `SendPrompt` answers: an error is `ErrTabBusy` or another one. -/
inductive SendAnswer
  | ok | busy
  | error (err : GoString)
  deriving DecidableEq

/-- The calls of the session. The last two are no calls: a field of the password dialog and a
prompt are submitted. -/
inductive Act
  | appendHistory (tab : TabID) (entry : Text)
  | appendOutput (tab : TabID) (lines : List Text)
  | appendSystemOutput (lines : List Text)
  | sendPrompt (tab : TabID) (prompt : Prompt) (answer : SendAnswer)
  | changePassword (current totp newPassword : GoString)
  | saveCodexAuth (payload : GoString)
  | handle (tab : TabID) (line : Text)
  | activateTab (tab : TabID)
  | entered (step : ChpasswdStep) (value : GoString)
  | submitted (tab : TabID) (prompt : Prompt)
  deriving DecidableEq

structure Session where
  hasHandler : Bool
  hasAuthStore : Bool
  tabs : List (TabID × TabStatus) := []
  activeTab : TabID := []
  tabStatus : TabID → Option TabStatus := fun _ => none
  queues : TabID → List Prompt := fun _ => []
  editor : LineEditor Typed := .clear
  notice : GoString := []
  history : List GoString := []
  historyIndex : Option ℕ := none
  historyDirty : Bool := false
  historyTabID : TabID := []
  chpasswd : Option ChpasswdState := none
  codexauth : Bool := false
  rotateSSH : Bool := false
  /-- The commands of `runCommandAsync` that have not run yet. -/
  pending : List (TabID × Text) := []
  /-- `Run` has returned. -/
  exited : Bool := false
  trace : List Act := []

structure ListTabsResponse where
  tabs : List (TabID × TabStatus)
  activeTab : TabID

inductive HandleAnswer
  | handled | unknown
  | error (err : GoString)

/-- What the calls of one step are answered. `SendPrompt` is called for several tabs. -/
structure Answers where
  listTabs : Option ListTabsResponse := none
  getHistory : Option (List GoString) := none
  appendHistory : Option (List GoString) := none
  sendPrompt : ℕ → SendAnswer := fun _ => .ok
  changePassword : Option GoString := none
  saveCodexAuth : Option GoString := none
  handle : HandleAnswer := .handled

/-- The service lists nothing and saves no history. -/
def noAnswers : Answers := {}

/-- The text of the editor. -/
def editorText (e : LineEditor Typed) : Text :=
  ⟨ofRunes (e.text.map Typed.r), e.text.any Typed.secret⟩

namespace Session

variable (ans : Answers) (t : Session)

/-- A rune that is typed now. -/
def typed (r : ℕ) : Typed := ⟨r, t.codexauth || t.chpasswd.isSome⟩

/-- The session makes a call. -/
def call (a : Act) : Session := { t with trace := t.trace ++ [a] }

def appendNotice (message : GoString) : Session := { t with notice := message }

def appendError (tabID : TabID) (err : GoString) : Session :=
  if tabID = [] then t.appendNotice (lit "error: " ++ err)
  else t.call (.appendOutput tabID [.plain (lit "error: " ++ err)])

def appendMessage (tabID : TabID) (message : GoString) : Session :=
  if blank message then t
  else if tabID = [] then t.call (.appendSystemOutput [.plain message])
  else t.call (.appendOutput tabID [.plain message])

def appendAsyncError (tabID : TabID) (err : GoString) : Session :=
  if tabID = [] then t.call (.appendSystemOutput [.plain (lit "error: " ++ err)])
  else t.call (.appendOutput tabID [.plain (lit "error: " ++ err)])

def saveHistoryEntry (entry : Text) : Session :=
  if t.activeTab = [] then t
  else if blank entry.s then t
  else
    let t := t.call (.appendHistory t.activeTab entry)
    match ans.appendHistory with
    | none => t
    | some entries => { t with history := entries, historyTabID := t.activeTab }

def saveHistoryDraft : Session × Bool :=
  if t.activeTab = [] then (t, false)
  else if t.historyIndex ≠ none ∧ t.historyDirty = false then (t, false)
  else
    let entry := editorText t.editor
    if blank entry.s then (t, false)
    else
      let appended := t.history.getLast? ≠ some entry.s
      let t := t.call (.appendHistory t.activeTab entry)
      match ans.appendHistory with
      | none => (t, false)
      | some entries =>
        ({ t with history := entries, historyTabID := t.activeTab, historyDirty := false },
          appended)

/-- The entry at the index goes into the editor. -/
def showHistory : Session :=
  match t.historyIndex.bind (t.history[·]?) with
  | none => t
  | some entry =>
    { t with editor := .setString ((toRunes entry).map (⟨·, false⟩)), historyDirty := false }

def historyUp : Session :=
  if t.activeTab = [] then t
  else
    let (t, appended) := t.saveHistoryDraft ans
    if t.history = [] then t
    else
      let last := if appended ∧ t.history.length > 1 then 2 else 1
      let index := match t.historyIndex with
        | none => t.history.length - last
        | some i => i - 1
      { t with historyIndex := some index }.showHistory

def historyDown : Session :=
  if t.activeTab = [] ∨ t.history = [] then t
  else
    let t := (t.saveHistoryDraft ans).1
    match t.historyIndex with
    | none => t
    | some i =>
      let index := if i + 1 < t.history.length then i + 1 else i
      { t with historyIndex := some index }.showHistory

def refreshHistory : Session :=
  if t.activeTab = [] then
    { t with history := [], historyIndex := none, historyDirty := false, historyTabID := [] }
  else if t.activeTab = t.historyTabID then t
  else
    { t with
      history := ans.getHistory.getD [], historyIndex := none, historyDirty := false,
      historyTabID := t.activeTab }

def saveHistoryOnExit : Session :=
  if t.chpasswd.isSome then t
  else if t.editor.len = 0 then t
  else t.saveHistoryEntry ans (editorText t.editor)

/-- `strings.ReplaceAll` of line breaks by `\n`. -/
def display (prompt : GoString) : GoString :=
  prompt.flatMap fun b => if b = 0x0A then [0x5C, 0x6E] else [b]

def queuePrompt (tabID : TabID) (prompt : Prompt) : Session :=
  let queues := update t.queues tabID (t.queues tabID ++ [prompt])
  { t with queues }.call
    (.appendOutput tabID [prompt.text.map fun s => lit "queued prompt: " ++ display s])

/-- What the call of `SendPrompt` that comes now is answered. -/
def sendAnswer : SendAnswer := ans.sendPrompt t.trace.length

def sendPrompt (tabID : TabID) (prompt : Prompt) : Session :=
  t.call (.sendPrompt tabID prompt (t.sendAnswer ans))

/-- The rest of `handleEnter` for a prompt. -/
def submitPrompt (raw : Text) : Session :=
  if t.activeTab = [] then t.appendNotice (lit "no active tab; use /new <repo>")
  else
    let prompt := ⟨t.trace.length, raw⟩
    let t := t.call (.submitted t.activeTab prompt)
    if t.tabStatus t.activeTab = some .running then t.queuePrompt t.activeTab prompt
    else
      match t.sendAnswer ans with
      | .ok => t.sendPrompt ans t.activeTab prompt
      | .busy => (t.sendPrompt ans t.activeTab prompt).queuePrompt t.activeTab prompt
      | .error err => (t.sendPrompt ans t.activeTab prompt).appendError t.activeTab err

/-- The body of the loop of `refreshState` that sends queued prompts. -/
def drain (tab : TabID × TabStatus) : Session :=
  if tab.2 ≠ .idle then t
  else
    match t.queues tab.1 with
    | [] => t
    | prompt :: queue =>
      match t.sendAnswer ans with
      | .busy => t.sendPrompt ans tab.1 prompt
      | .error err => (t.sendPrompt ans tab.1 prompt).appendError tab.1 err
      | .ok => { t.sendPrompt ans tab.1 prompt with queues := update t.queues tab.1 queue }

def statuses (tabs : List (TabID × TabStatus)) : TabID → Option TabStatus :=
  tabs.foldl (fun m tab => update m tab.1 (some tab.2)) fun _ => none

def refreshState : Session :=
  match ans.listTabs with
  | none => t
  | some resp =>
    let prevActive := t.activeTab
    let t := { t with
      tabs := resp.tabs, activeTab := resp.activeTab, tabStatus := statuses resp.tabs }
    let t :=
      if prevActive ≠ t.activeTab ∨ t.historyTabID ≠ t.activeTab then t.refreshHistory ans else t
    resp.tabs.foldl (drain ans) t

/-- The tab before or after the active one, around the ends. -/
def neighbour (tabs : List (TabID × TabStatus)) (activeTab : TabID) (forward : Bool) :
    Option TabID :=
  let found := if activeTab = [] then none else tabs.findIdx? fun tab => tab.1 = activeTab
  let index := match found with
    | none => if forward then 0 else tabs.length - 1
    | some i => (if forward then i + 1 else i + tabs.length - 1) % tabs.length
  tabs[index]?.map Prod.fst

def cycleTab (forward : Bool) : Session :=
  match neighbour t.tabs t.activeTab forward with
  | none => t
  | some next =>
    if next = t.activeTab then t
    else { t.call (.activateTab next) with activeTab := next }.refreshState ans

def startChpasswd : Session :=
  if t.hasAuthStore = false then t.appendError t.activeTab (lit "password change unavailable")
  else { t with chpasswd := some {}, editor := .clear, historyDirty := true, notice := [] }

def startCodexAuth : Session :=
  { t with
    codexauth := true, editor := .clear, historyDirty := true,
    notice := lit "paste auth.json, then submit a blank line or press Ctrl+D" }

def startRotateSSHKey : Session :=
  { t with rotateSSH := true, editor := .clear, historyDirty := true, notice := [] }

def cancelChpasswd : Session :=
  { t with chpasswd := none, editor := .clear }.appendMessage t.activeTab
    (lit "password change cancelled")

def resetChpasswd : Session := { t with chpasswd := some {}, editor := .clear }

/-- The session submits the field of the password dialog that it is at. -/
def submitChpasswdField : Session :=
  match t.chpasswd with
  | none => t
  | some c =>
    let value := (editorText t.editor).s
    let t := { t with editor := .clear }.call (.entered c.step value)
    match c.step with
    | .chpasswdStepCurrent =>
      if blank value then t.appendError t.activeTab (lit "current password is required")
      else { t with chpasswd := some { c with current := value, step := .chpasswdStepNew } }
    | .chpasswdStepTOTP =>
      if blank value then t.appendError t.activeTab (lit "totp is required")
      else if t.hasAuthStore = false then
        { t.appendError t.activeTab (lit "password change unavailable") with chpasswd := none }
      else
        let t := { t with chpasswd := some { c with totp := value } }.call
          (.changePassword c.current value c.newPassword)
        match ans.changePassword with
        | some err => (t.appendError t.activeTab err).resetChpasswd
        | none => { t.appendMessage t.activeTab (lit "password updated") with chpasswd := none }
    | .chpasswdStepNew =>
      if blank value then t.appendError t.activeTab (lit "new password is required")
      else { t with chpasswd := some { c with newPassword := value, step := .chpasswdStepConfirm } }
    | .chpasswdStepConfirm =>
      if value ≠ c.newPassword then
        { t.appendError t.activeTab (lit "passwords do not match") with
          chpasswd := some { c with newPassword := [], step := .chpasswdStepNew } }
      else { t with chpasswd := some { c with step := .chpasswdStepTOTP } }

def cancelCodexAuth : Session :=
  { t with codexauth := false, editor := .clear, notice := [] }.appendMessage t.activeTab
    (lit "codex auth upload cancelled")

def finishCodexAuth : Session :=
  let payload := trimSpace (editorText t.editor).s
  let t := { t with editor := .clear, codexauth := false, notice := [] }
  if payload = [] then t.appendError t.activeTab (lit "auth.json is required")
  else
    let t := t.call (.saveCodexAuth payload)
    match ans.saveCodexAuth with
    | some err => t.appendError t.activeTab err
    | none => t.appendMessage t.activeTab (lit "codex auth updated")

/-- The line of the last line break on is blank. -/
def codexAuthLineEmpty : Bool :=
  let input := (editorText t.editor).s
  blank (input.reverse.takeWhile (· ≠ 0x0A)).reverse

def runCommandAsync (line : Text) : Session :=
  { t with pending := t.pending ++ [(t.activeTab, line)] }

def cancelRotateSSHKey : Session :=
  { t with rotateSSH := false, editor := .clear, notice := [] }.appendMessage t.activeTab
    (lit "ssh key rotation cancelled")

def submitRotateSSHKey : Session :=
  let value := trimSpace (editorText t.editor).s
  let t := { t with editor := .clear, rotateSSH := false, notice := [] }
  if value ≠ lit "YES" then t.appendMessage t.activeTab (lit "ssh key rotation cancelled")
  else t.runCommandAsync (.plain (lit "/rotatesshkey affirm"))

/-- The line is the command, or the command with arguments. -/
def isCommand (name line : GoString) : Bool :=
  let trimmed := trimSpace line
  name.isPrefixOf trimmed &&
    match trimmed.drop name.length with
    | [] => true
    | next :: _ => next = 0x20 || next = 0x09

def isStatusCommand : GoString → Bool := isCommand (lit "/status")
def isNewCommand : GoString → Bool := isCommand (lit "/new")
def isChpasswdCommand : GoString → Bool := isCommand (lit "/chpasswd")
def isCodexAuthCommand : GoString → Bool := isCommand (lit "/codexauth")
def isRotateSSHKeyCommand (line : GoString) : Bool := trimSpace line = lit "/rotatesshkey"

/-- What `handleEnter` takes the input for. -/
inductive Entry
  | nothing | exit | chpasswd | codexauth | rotateSSHKey | async | command | prompt
  deriving DecidableEq

def entry (raw : GoString) : Entry :=
  let line := trimSpace raw
  if line = [] then .nothing
  -- Input of several lines is a prompt, whatever it starts with.
  else if raw.contains 0x0A then .prompt
  else if line ∈ [lit "/exit", lit "/quit", lit "/logout", lit "/q"] then .exit
  else if isChpasswdCommand line then .chpasswd
  else if isCodexAuthCommand line then .codexauth
  else if isRotateSSHKeyCommand line then .rotateSSHKey
  else if (lit "/").isPrefixOf line || (lit "!").isPrefixOf line then
    if isStatusCommand line || isNewCommand line || (lit "!").isPrefixOf line then .async
    else .command
  else .prompt

def handleCommand (line : Text) : Session :=
  if t.hasHandler = false then t.appendError t.activeTab (lit "commands unavailable")
  else
    let t := t.call (.handle t.activeTab line)
    match ans.handle with
    | .handled => t
    | .unknown => t.appendError t.activeTab (lit "unknown command")
    | .error err => t.appendError t.activeTab err

/-- The start of `handleEnter`: the input goes to the history and the line is cleared. -/
def takeInput : Session :=
  { t.saveHistoryEntry ans (editorText t.editor) with
    editor := .clear, historyIndex := none, historyDirty := false, notice := [] }

/-- The new state, and whether the session ends. -/
def handleEnter : Session × Bool :=
  let raw := editorText t.editor
  let line := raw.map trimSpace
  let t := t.takeInput ans
  match entry raw.s with
  | .nothing => (t, false)
  | .exit => (t, true)
  | .chpasswd => (t.startChpasswd, false)
  | .codexauth => (t.startCodexAuth, false)
  | .rotateSSHKey => (t.startRotateSSHKey, false)
  | .async => (t.runCommandAsync line, false)
  | .command => ((t.handleCommand ans line).refreshState ans, false)
  | .prompt => (t.submitPrompt ans raw, false)

/-- The keys that edit the line. -/
def editKey (k : Key) : Session := { t with editor := t.editor.edit Typed.r t.typed k }

def insertLineBreak : Session := { t with editor := t.editor.insert (t.typed 0x0A) }

def handleChpasswdKey (k : Key) : Session :=
  match k with
  | .keyCtrlC => t.cancelChpasswd
  | .keyEnter => t.submitChpasswdField ans
  | k => t.editKey k

def handleRotateSSHKeyKey (k : Key) : Session :=
  match k with
  | .keyCtrlC => t.cancelRotateSSHKey
  | .keyEnter => t.submitRotateSSHKey
  | k => t.editKey k

def handleCodexAuthKey (k : Key) : Session :=
  match k with
  | .keyCtrlC => t.cancelCodexAuth
  | .keyCtrlD => t.finishCodexAuth ans
  | .keyEnter | .keyCtrlJ =>
    if t.codexAuthLineEmpty then t.finishCodexAuth ans else t.insertLineBreak
  | k => t.editKey k

/-- The keys outside of dialogs. -/
def handlePlainKey (k : Key) : Session × Bool :=
  match k with
  | .keyCtrlD =>
    if t.editor.len = 0 then (t, true) else ({ t with editor := t.editor.delete }, false)
  | .keyCtrlC => ({ t with editor := .clear, historyDirty := true }, false)
  | .keyEnter => t.handleEnter ans
  | .keyCtrlJ => ({ t.insertLineBreak with historyDirty := true }, false)
  | .keyTab => (t.cycleTab ans true, false)
  | .keyShiftTab => (t.cycleTab ans false, false)
  | .keyUp =>
    if t.editor.cursor = 0 ∨ t.editor.cursor = t.editor.len then (t.historyUp ans, false)
    else ({ t with editor := t.editor.moveUp Typed.r }, false)
  | .keyDown =>
    if t.editor.cursor = 0 ∨ t.editor.cursor = t.editor.len then (t.historyDown ans, false)
    else ({ t with editor := t.editor.moveDown Typed.r }, false)
  | k => ({ t.editKey k with historyDirty := t.historyDirty || LineEditor.changes k }, false)

def handleKey (k : Key) : Session × Bool :=
  if t.codexauth then (t.handleCodexAuthKey ans k, false)
  else if t.chpasswd.isSome then (t.handleChpasswdKey ans k, false)
  else if t.rotateSSH then (t.handleRotateSSHKeyKey k, false)
  else t.handlePlainKey ans k

/-- A command of `runCommandAsync` runs. It does not touch the session. -/
def runPending (i : ℕ) : Session :=
  match t.pending[i]? with
  | none => t
  | some (tabID, line) =>
    let t := { t with pending := t.pending.eraseIdx i }
    if t.hasHandler = false then t.appendAsyncError tabID (lit "commands unavailable")
    else
      let t := t.call (.handle tabID line)
      match ans.handle with
      | .handled => t
      | .unknown => t.appendAsyncError tabID (lit "unknown command")
      | .error err => t.appendAsyncError tabID err

/-- `Run` returns. -/
def exit : Session := { t.saveHistoryOnExit ans with exited := true }

end Session

/-- What comes next. A refresh is the ticker's, an event's or the one at the start; a view event
is a new size of the window or new output, and only changes what is on the screen. -/
inductive Input
  | key (k : Key)
  | refresh
  | view
  | disconnect
  | runPending (i : ℕ)
  deriving DecidableEq

/-- The keys of a text. -/
def types (text : GoString) : List (Input × Answers) :=
  (toRunes text).map fun r => (.key (.keyRune r), noAnswers)

def newTerminalSession (hasHandler hasAuthStore : Bool) : Session := { hasHandler, hasAuthStore }

namespace Session

def step (t : Session) (input : Input × Answers) : Session :=
  match input with
  -- a command goes on when the session is over
  | (.runPending i, ans) => t.runPending ans i
  | (.view, _) => t
  | (.key k, ans) =>
    if t.exited then t
    else if (t.handleKey ans k).2 then (t.handleKey ans k).1.exit ans
    else (t.handleKey ans k).1
  | (.refresh, ans) => if t.exited then t else t.refreshState ans
  | (.disconnect, ans) => if t.exited then t else t.exit ans

end Session

end Centaurx.SshServer
