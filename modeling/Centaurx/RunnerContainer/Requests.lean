import Centaurx.Core.SectionFacts
import Centaurx.RunnerContainer.Provider

namespace Centaurx.RunnerContainer
open Go Function Runs

/-- The service and the provider of its runners. -/
structure Host where
  users : UserID → UserState
  sessions : ℕ → Option Prefs
  provider : Provider

/-- A new process, with what it loads for each user. -/
def Host.start (cfg : Centaurx.Config) (files : UserID → LoadResult) : Host where
  users u := loadUserState cfg (files u)
  sessions _ := none
  provider := {}

/-- What becomes of a run or command after its runner was found. -/
inductive Launch
  /-- An error comes before it. -/
  | unreached
  /-- It fails, or has ended before its caller goes on. -/
  | ended
  | started
  deriving DecidableEq

/-- The repository that a tab is asked for. -/
structure RepoRequest where
  url : GoString := []
  name : RepoName := []

/-- Answers are those of the container runtime, in the order in which a start asks for them. -/
inductive Request
  /-- A repository that is cloned or created is made by so many commands of a runner. -/
  | createTab (session : ℕ) (user : UserID) (asked : RepoRequest) (rand : Option (Vector UInt8 8))
      (repoName : RepoName) (tabName : TabName) (make : Bool) (commands : ℕ) (resolved : Bool)
      (answers : ℕ → Option GoString)
  /-- The summary of the repository takes so many commands before the run. -/
  | sendPrompt (session : ℕ) (user : UserID) (tab : TabID) (prompt : GoString) (summary : ℕ)
      (handle : RunHandle) (cancel : CancelFunc) (launch : Launch) (answers : ℕ → Option GoString)
  | handleShell (user : UserID) (tab : TabID) (input : GoString) (launch : Launch)
      (answers : ℕ → Option GoString)
  | closeTab (session : ℕ) (user : UserID) (tab : TabID)
  /-- Any other section of the service. -/
  | other (session : ℕ) (user : UserID) (op : Op)
  /-- Time, keepalives, the idle sweep, and runs that end. -/
  | background (l : Label)

section Requests
variable {Text : Type} (env : Env Text) (cfg : Config)

/-- The call has returned a runner. -/
def Call.gives : Call → Bool
  | .returned (.ok (some _)) => true
  | .returned (.ok none) | .returned (.error _) | .idle | .waiting .. | .lookup .. | .naming ..
  | .starting .. | .closing .. | .stopping .. | .panicked => false

/-- `RunnerFor` from its begin to its return, and whether it gives a runner. -/
def runnerFor (p : Provider) (user : UserID) (tab : TabID) (answers : ℕ → Option GoString) :
    Provider × Bool :=
  let p' := exec (Provider.step cfg) p
    (.runnerFor user tab :: (List.range 6).map fun k => .advance p.begun (answers k))
  (p', (p'.calls p.begun).gives)

/-- `CloseTab` of the provider, with the stop of a container. -/
def closeRunner (p : Provider) (user : UserID) (tab : TabID) : Provider :=
  exec (Provider.step cfg) p (.closeTab user tab :: List.replicate 4 (.advance p.begun none))

/-- What the provider sees of a launch through the runner that a call has returned. -/
def Launch.labels (p : Provider) (i : ℕ) : Launch → List Label
  | .unreached => []
  | .ended => [.startRun i, .finishRun p.runs.length]
  | .started => [.startRun i]

/-- `Run` or `RunCommand`. -/
def useRunner (p : Provider) (i : ℕ) (launch : Launch) : Provider :=
  exec (Provider.step cfg) p (launch.labels p i)

/-- Commands one after the other, each of them waited for. -/
def runCommands (i : ℕ) : ℕ → Provider → Provider
  | 0, p => p
  | n + 1, p => runCommands i n (useRunner cfg p i .ended)

/-- A section of a call from a session. -/
def serveSection (s : Host) (session : ℕ) (user : UserID) (op : Op) : Host :=
  let out := serve env (s.sessions session) (s.users user) op
  { s with
    users := update s.users user out.state
    sessions := update s.sessions session out.prefs }

/-- The repository of a new tab, and whether there is one. Only a repository that has to be made
needs a runner. -/
def resolveRepo (p : Provider) (user : UserID) (tab : TabID) (make : Bool) (commands : ℕ)
    (resolved : Bool) (answers : ℕ → Option GoString) : Provider × Bool :=
  if make then
    let asked := runnerFor cfg p user tab answers
    if asked.2 then (runCommands cfg p.begun commands asked.1, resolved) else (asked.1, false)
  else (p, resolved)

def createTab (s : Host) (session : ℕ) (user : UserID) (asked : RepoRequest)
    (rand : Option (Vector UInt8 8)) (repoName : RepoName) (tabName : TabName) (make : Bool)
    (commands : ℕ) (resolved : Bool) (answers : ℕ → Option GoString) : Host :=
  if validateUserID user && !(blank asked.url && blank asked.name) then
    let result := resolveRepo cfg s.provider user (newID rand) make commands resolved answers
    if result.2 then
      { serveSection env s session user (.createTab rand repoName tabName) with
        provider := result.1 }
    else { s with provider := closeRunner cfg result.1 user (newID rand) }
  else s

def sendPrompt (s : Host) (session : ℕ) (user : UserID) (tab : TabID) (prompt : GoString)
    (summary : ℕ) (handle : RunHandle) (cancel : CancelFunc) (launch : Launch)
    (answers : ℕ → Option GoString) : Host :=
  if blank prompt || !validateUserID user then s
  else
    let s' := serveSection env s session user (.sendPromptCheck tab)
    match (s.users user).tabs.lookup tab with
    | none => s'
    | some t =>
      if t.status = .running then s'
      else
        let active := (activeTabFromContext env.firstKey (s.sessions session) (s.users user)).2
        let asked := runnerFor cfg s.provider user t.id answers
        if asked.2 then
          let summed := runCommands cfg s.provider.begun summary asked.1
          let used := { s' with provider := useRunner cfg summed s.provider.begun launch }
          if launch = .started then
            serveSection env used session user (.sendPromptPublish tab active handle cancel t)
          else used
        else { s' with provider := asked.1 }

/-- The tab is one of `ListTabs`. -/
def lookupTab (s : Host) (user : UserID) (tab : TabID) : Bool :=
  validateUserID user && (s.users user).bar.any fun t => t.id = tab

def cmdText (input : GoString) : GoString :=
  trimSpace (match input with
    | 0x21 :: rest => rest
    | _ => input)

def handleShell (s : Host) (user : UserID) (tab : TabID) (input : GoString) (launch : Launch)
    (answers : ℕ → Option GoString) : Host :=
  if cmdText input = [] then s
  else if tab ≠ [] ∧ ¬lookupTab s user tab then s
  else
    let runnerTabID := if tab = [] then lit "system-shell" else tab
    let asked := runnerFor cfg s.provider user runnerTabID answers
    { s with
      provider := if asked.2 then useRunner cfg asked.1 s.provider.begun launch else asked.1 }

def closeTab (s : Host) (session : ℕ) (user : UserID) (tab : TabID) : Host :=
  if validateUserID user && ((s.users user).tabs.lookup tab).isSome then
    { serveSection env s session user (.closeTab tab) with
      provider := closeRunner cfg s.provider user tab }
  else s

/-- Sections that neither open nor close a tab. -/
def Op.other : Op → Bool
  | .createTab .. | .closeTab _ => false
  | _ => true

def Label.background : Label → Bool
  | .runnerFor .. | .closeTab .. => false
  | _ => true

def handle (s : Host) : Request → Host
  | .createTab session user asked rand repoName tabName make commands resolved answers =>
    createTab env cfg s session user asked rand repoName tabName make commands resolved answers
  | .sendPrompt session user tab prompt summary handle cancel launch answers =>
    sendPrompt env cfg s session user tab prompt summary handle cancel launch answers
  | .handleShell user tab input launch answers => handleShell cfg s user tab input launch answers
  | .closeTab session user tab => closeTab env cfg s session user tab
  | .other session user op =>
    if validateUserID user && op.admitted env.uni && Op.other op then
      serveSection env s session user op
    else s
  | .background l =>
    if l.background then { s with provider := s.provider.step cfg l } else s

end Requests

/-- A shell command comes from a tab. -/
def Request.FromTab : Request → Prop
  | .handleShell _ tab _ _ _ => tab ≠ []
  | .createTab .. | .sendPrompt .. | .closeTab .. | .other .. | .background _ => True

instance : (r : Request) → Decidable r.FromTab
  | .handleShell .. => inferInstanceAs (Decidable (_ ≠ _))
  | .createTab .. | .sendPrompt .. | .closeTab .. | .other .. | .background _ => isTrue trivial

/-- Tabs are in the map under their own ids. -/
def Keyed (st : UserState) : Prop := ∀ id t, st.tabs.lookup id = some t → t.id = id

theorem loadUserState_keyed (cfg : Centaurx.Config) (result : LoadResult) :
    Keyed (loadUserState cfg result) := by
  intro id t ht
  cases result with
  | failed | missing => simp [loadUserState, UserState.fresh] at ht
  | loaded snapshot => exact (restoreTabs_ok cfg snapshot.tabs ht).id_eq

end Centaurx.RunnerContainer
