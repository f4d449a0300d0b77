import Centaurx.Persist

/-!
# Critical sections of the service

Each service call takes the lock `s.mu`, changes the state of one user, releases the lock and then
works through what is left to do. `serve` gives the first half: the new state, the session's
preferences, the result, and the list of what is left. Calls with several critical sections
(`SendPrompt`, `consumeEvents`) appear as one operation for each.
-/

namespace Centaurx
open Go

/-- What the service is configured with, and the parts of Go that it asks. -/
structure Env (Text : Type) where
  cfg : Config
  uni : Unicode
  json : Json Text
  /-- The key that iterating over a map yields first. -/
  firstKey : Finset TabID → TabID
  /-- The history size of the hub. -/
  historySize : ℕ

/-- The service with its default settings, for texts in ASCII. -/
def Env.stock {Text : Type} (json : Json Text) : Env Text where
  cfg := stockConfig
  uni := Unicode.ascii
  json := json
  firstKey _ := []
  historySize := 1000

/-- `newID`, from what the random source gave. -/
def newID (rand : Option (Vector UInt8 8)) : TabID :=
  match rand with
  | none => lit "tab-unknown"
  | some buf => hexEncode buf.toList

/-- Seven zero bytes and a last one. -/
def randBytes (last : UInt8) : Vector UInt8 8 := #v[0, 0, 0, 0, 0, 0, 0, last]

theorem newID_valid (rand : Option (Vector UInt8 8)) : validUTF8 (newID rand) = true := by
  cases rand with
  | none => decide
  | some buf => exact validUTF8_of_ascii (hexEncode_ascii _)

inductive TabEventType
  | created | closed | activated | updated | status
  deriving DecidableEq, Repr

/-- What the event sink is called with. A missing view is the zero `TabSnapshot`. -/
inductive SinkEvent
  | output (tab : TabID) (lines : List GoString)
  | system (lines : List GoString)
  | tab (type : TabEventType) (view : Option TabView) (activeTab : TabID) (theme : ThemeName)
  deriving DecidableEq

inductive Op
  | createTab (rand : Option (Vector UInt8 8)) (repoName : RepoName) (tabName : TabName)
  | closeTab (id : TabID)
  | listTabs
  | activateTab (id : TabID)
  | setModel (id : TabID) (model effort : GoString)
  | switchRepo (id : TabID) (repoName : RepoName)
  | stopSession (id : TabID)
  | renewSession (id : TabID)
  | setTheme (theme : ThemeName)
  | getBuffer (id : TabID) (limit : Int)
  | scrollBuffer (id : TabID) (delta limit : Int)
  | appendOutput (id : TabID) (lines : List GoString)
  | appendSystemOutput (lines : List GoString)
  | getSystemBuffer (limit : Int)
  | getHistory (id : TabID)
  | appendHistory (id : TabID) (entry : GoString)
  | registerCommand (id : TabID) (handle : CommandHandle) (cancel : CancelFunc)
  | unregisterCommand (id : TabID) (handle : CommandHandle)
  | getTabUsage (id : TabID)
  | sendPromptCheck (id : TabID)
  | sendPromptPublish (id activeTab : TabID) (handle : RunHandle) (cancel : CancelFunc)
      (closed : Tab)
  | consumeComplete (id : TabID) (handle : RunHandle)
  | consumeUsage (id : TabID) (usage : TurnUsage)
  | setSessionID (id : TabID) (sid : SessionID)
  | appendLines (id : TabID) (lines : List GoString)
  | appendSystemLines (lines : List GoString)
  deriving DecidableEq

/-- The checks that a call makes before it takes the lock. -/
def Op.admitted (uni : Unicode) : Op → Bool
  | .setModel _ model effort =>
    (normalizeModelID uni model).toBool &&
      (blank effort || (normalizeModelReasoningEffort uni effort).toBool)
  | .setTheme theme => !blank theme
  | .appendOutput _ lines => lines ≠ []
  | .appendSystemOutput lines => lines ≠ []
  | .appendSystemLines lines => lines ≠ []
  | .getHistory id => id ≠ []
  | .appendHistory id _ => id ≠ []
  | .getTabUsage id => id ≠ []
  | .registerCommand id _ _ => !blank id
  | .unregisterCommand id _ => !blank id
  | .setSessionID _ sid => sid ≠ []
  | _ => true

/-- Whether the section starts with `getOrCreateUserStateLocked`; the others look into
`s.userTabs` and give up when the user has no state in memory. -/
def Op.loads : Op → Bool
  | .sendPromptPublish .. => false
  | .consumeComplete .. => false
  | .consumeUsage .. => false
  | .setSessionID .. => false
  | .appendLines .. => false
  | .appendSystemLines .. => false
  | _ => true

/-- A buffer of the user that a view is read from. -/
inductive BufRef
  | tab (id : TabID)
  | system
  deriving DecidableEq

/-- What a call does after its critical section, one atomic step at a time. `Snapshot` runs
outside the lock: it reads the line count, compares the offset, and may store a new one. -/
inductive Act (Text : Type)
  | emit (e : SinkEvent)
  | view (ref : BufRef) (limit : Int)
  | compare (ref : BufRef) (max : Int)
  | store (ref : BufRef) (max : Int)
  | persist
  | save (text : Text)
  deriving DecidableEq

structure Outcome (Text : Type) where
  state : UserState
  prefs : Option Prefs
  result : Except SchemaError Unit
  todo : List (Act Text)

section Serve

variable {Text : Type} (env : Env Text) (ctx : Option Prefs) (st : UserState)

def reject (err : SchemaError) : Outcome Text := ⟨st, ctx, .error err, []⟩

/-- `len(lines) > 0` guards every output event. -/
def emitOutput (id : TabID) (lines : List GoString) : List (Act Text) :=
  if lines = [] then [] else [.emit (.output id lines)]

/-- The common shape of the calls that change one tab, tell the clients and persist. -/
def updateTab (id : TabID) (t : Tab) (type : TabEventType) : Outcome Text :=
  let st := st.putTab id t
  let (ctx, active) := activeTabFromContext env.firstKey ctx st
  ⟨st, ctx, .ok (), [.emit (.tab type (some (t.snapshot (id = active))) active []), .persist]⟩

def createTab (rand : Option (Vector UInt8 8)) (repoName : RepoName) (tabName : TabName) :
    Outcome Text :=
  let t := Tab.new env.cfg (newID rand) repoName tabName
  let st := st.addTab t
  let (ctx, active) := activeTabFromContext env.firstKey ctx st
  ⟨st, ctx, .ok (),
    [.emit (.tab .created (some (t.snapshot (active = t.id))) active []), .persist]⟩

def closeTab (id : TabID) : Outcome Text :=
  match st.tabs.lookup id with
  | none => reject ctx st .tabNotFound
  | some t =>
    let st := st.deleteTab id
    -- A session that had the tab active chooses another one below.
    let ctx := ctx.map fun p => if p.activeTab = id then { p with activeTab := [] } else p
    let (ctx, active) := activeTabFromContext env.firstKey ctx st
    ⟨st, ctx, .ok (), [.emit (.tab .closed (some (t.snapshot false)) active []), .persist]⟩

def activateTab (id : TabID) : Outcome Text :=
  match st.tabs.lookup id with
  | none => reject ctx st .tabNotFound
  | some t =>
    let ctx := ctx.map fun p => { p with activeTab := id }
    let (ctx, active) := activeTabFromContext env.firstKey ctx st
    ⟨st, ctx, .ok (),
      [.emit (.tab .activated (some (t.snapshot (active = t.id))) active []), .persist]⟩

def setModel (id : TabID) (model effort : GoString) : Outcome Text :=
  match st.tabs.lookup id with
  | none => reject ctx st .tabNotFound
  | some t =>
    match normalizeModelID env.uni model with
    | .error err => reject ctx st err
    | .ok model =>
      if blank effort then updateTab env ctx st id (t.setModel model []) .updated
      else
        match normalizeModelReasoningEffort env.uni effort with
        | .error err => reject ctx st err
        | .ok effort => updateTab env ctx st id (t.setModel model effort) .updated

def switchRepo (id : TabID) (repoName : RepoName) : Outcome Text :=
  match st.tabs.lookup id with
  | none => reject ctx st .tabNotFound
  | some t => updateTab env ctx st id { t with repo := repoName } .updated

def renewSession (id : TabID) : Outcome Text :=
  let (ctx, active) := activeTabFromContext env.firstKey ctx st
  match st.tabs.lookup id with
  | none => reject ctx st .tabNotFound
  | some t =>
    if t.status = .running then reject ctx st .tabBusy
    else
      ⟨st.putTab id t.renew, ctx, .ok (),
        [.emit (.tab .updated (some (t.renew.snapshot (id = active))) active []), .persist]⟩

def setTheme (theme : ThemeName) : Outcome Text :=
  let st := { st with theme := theme }
  let (ctx, active) := activeTabFromContext env.firstKey ctx st
  let view := if active = [] then none else (st.tabs.lookup active).map (Tab.snapshot · true)
  ⟨st, ctx, .ok (), [.emit (.tab .updated view active theme), .persist]⟩

def getBuffer (id : TabID) (limit : Int) : Outcome Text :=
  match st.tabs.lookup id with
  | none => reject ctx st .tabNotFound
  | some _ => ⟨st, ctx, .ok (), [.view (.tab id) limit]⟩

def scrollBuffer (id : TabID) (delta limit : Int) : Outcome Text :=
  match st.tabs.lookup id with
  | none => reject ctx st .tabNotFound
  | some t =>
    ⟨st.putTab id { t with buffer := t.buffer.scroll delta limit }, ctx, .ok (),
      [.view (.tab id) limit, .persist]⟩

def appendOutput (id : TabID) (lines : List GoString) : Outcome Text :=
  let ctx := (activeTabFromContext env.firstKey ctx st).1
  match st.tabs.lookup id with
  | none => reject ctx st .tabNotFound
  | some t =>
    ⟨st.putTab id { t with buffer := t.buffer.append lines }, ctx, .ok (),
      emitOutput id lines ++ [.persist]⟩

/-- `AppendSystemOutput` and `appendSystemLines` differ only in how they find the user. -/
def appendSystem (lines : List GoString) : Outcome Text :=
  ⟨{ st with system := st.system.append lines }, ctx, .ok (), [.emit (.system lines), .persist]⟩

def appendHistory (id : TabID) (entry : GoString) : Outcome Text :=
  match st.tabs.lookup id with
  | none => reject ctx st .tabNotFound
  | some t =>
    -- An entry that is not taken is not saved either.
    ⟨st.putTab id { t with history := (t.history.append entry).1 }, ctx, .ok (),
      if (t.history.append entry).2 then [.persist] else []⟩

/-- A section that changes a tab silently, and does nothing without the tab. -/
def touchTab (id : TabID) (f : Tab → Tab) (todo : Tab → List (Act Text)) : Outcome Text :=
  match st.tabs.lookup id with
  | none => ⟨st, ctx, .ok (), []⟩
  | some t => ⟨st.putTab id (f t), ctx, .ok (), todo t⟩

def sendPromptCheck (id : TabID) : Outcome Text :=
  let ctx := (activeTabFromContext env.firstKey ctx st).1
  match st.tabs.lookup id with
  | none => reject ctx st .tabNotFound
  | some t => if t.status = .running then reject ctx st .tabBusy else ⟨st, ctx, .ok (), []⟩

/-- The publish section writes through the pointer that the check section found. When the tab
has been closed since, that is an object outside the map, here `closed`. -/
def sendPromptPublish (id active : TabID) (handle : RunHandle) (cancel : CancelFunc)
    (closed : Tab) : Outcome Text :=
  match st.tabs.lookup id with
  | none =>
    ⟨st, ctx, .ok (), [.emit (.tab .status
      (some ((closed.publish handle cancel).snapshot (id = active))) active [])]⟩
  | some t =>
    ⟨st.putTab id (t.publish handle cancel), ctx, .ok (), [.emit (.tab .status
      (some ((t.publish handle cancel).snapshot (id = active))) active [])]⟩

def consumeComplete (id : TabID) (handle : RunHandle) : Outcome Text :=
  match st.tabs.lookup id with
  | none => ⟨st, ctx, .ok (), []⟩
  | some t =>
    -- A run whose handle was replaced leaves the tab as it is.
    if t.run = some handle then
      let (ctx, active) := activeTabFromContext env.firstKey ctx st
      ⟨st.putTab id (t.complete handle), ctx, .ok (),
        [.emit (.tab .status (some ((t.complete handle).snapshot (id = active))) active [])]⟩
    else ⟨st, ctx, .ok (), []⟩

/-- A section that only looks the tab up. -/
def lookupTab (id : TabID) : Outcome Text :=
  match st.tabs.lookup id with
  | none => reject ctx st .tabNotFound
  | some _ => ⟨st, ctx, .ok (), []⟩

def serve : Op → Outcome Text
  | .createTab rand repoName tabName => createTab env ctx st rand repoName tabName
  | .closeTab id => closeTab env ctx st id
  | .listTabs => ⟨st, (activeTabFromContext env.firstKey ctx st).1, .ok (), []⟩
  | .activateTab id => activateTab env ctx st id
  | .setModel id model effort => setModel env ctx st id model effort
  | .switchRepo id repoName => switchRepo env ctx st id repoName
  | .stopSession id => lookupTab (activeTabFromContext env.firstKey ctx st).1 st id
  | .renewSession id => renewSession env ctx st id
  | .setTheme theme => setTheme env ctx st theme
  | .getBuffer id limit => getBuffer ctx st id limit
  | .scrollBuffer id delta limit => scrollBuffer ctx st id delta limit
  | .appendOutput id lines => appendOutput env ctx st id lines
  | .appendSystemOutput lines => appendSystem ctx st lines
  | .getSystemBuffer limit => ⟨st, ctx, .ok (), [.view .system limit]⟩
  | .getHistory id => lookupTab ctx st id
  | .appendHistory id entry => appendHistory ctx st id entry
  | .registerCommand id handle cancel =>
    touchTab ctx st id (fun t => t.registerCommand handle cancel) (fun _ => [])
  | .unregisterCommand id handle =>
    touchTab ctx st id (fun t => t.unregisterCommand handle) (fun _ => [])
  | .getTabUsage id => lookupTab ctx st id
  | .sendPromptCheck id => sendPromptCheck env ctx st id
  | .sendPromptPublish id active handle cancel closed =>
    sendPromptPublish ctx st id active handle cancel closed
  | .consumeComplete id handle => consumeComplete env ctx st id handle
  | .consumeUsage id usage =>
    touchTab ctx st id (fun t => { t with lastUsage := some usage }) (fun _ => [])
  -- Only the first id is stored, so only then is there something to save.
  | .setSessionID id sid =>
    touchTab ctx st id (fun t => t.setSessionID sid)
      (fun t => if t.sessionID = [] then [.persist] else [])
  | .appendLines id lines =>
    touchTab ctx st id (fun t => { t with buffer := t.buffer.append lines })
      (fun _ => emitOutput id lines ++ [.persist])
  | .appendSystemLines lines => appendSystem ctx st lines

end Serve

end Centaurx
