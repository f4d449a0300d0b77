import Centaurx.Schema
import Centaurx.Lib.Runs
import Mathlib.Data.Finset.Basic
import Mathlib.Data.List.Sort

namespace Centaurx.RunnerContainer
open Go Function

inductive ContainerScope
  | user
  | tab
  deriving DecidableEq

structure Config where
  scope : ContainerScope
  namePrefix : GoString
  idleTimeout : ℕ
  keepaliveInterval : ℕ
  keepaliveMisses : ℕ
  /-- The runtime addresses containers by their names (containerd) and not by ids (podman). -/
  namesAreIDs : Bool

structure TabKey where
  user : UserID
  tab : TabID
  deriving DecidableEq

def keyFor (cfg : Config) (user : UserID) (tab : TabID) : TabKey :=
  match cfg.scope with
  | .tab => ⟨user, tab⟩
  | .user => ⟨user, []⟩

def sanitizeName (value : GoString) : GoString :=
  let name := (runes value).map fun r =>
    if (0x61 ≤ r.1 ∧ r.1 ≤ 0x7A) ∨ (0x41 ≤ r.1 ∧ r.1 ≤ 0x5A) ∨ (0x30 ≤ r.1 ∧ r.1 ≤ 0x39) ∨
      r.1 = 0x2D ∨ r.1 = 0x5F ∨ r.1 = 0x2E then UInt8.ofNat r.1 else 0x5F
  if name = [] then lit "unknown" else name

def containerName (cfg : Config) (key : TabKey) : GoString :=
  let rawTab := trimSpace key.tab
  if rawTab = [] then cfg.namePrefix ++ lit "-" ++ sanitizeName key.user
  else cfg.namePrefix ++ lit "-" ++ sanitizeName key.user ++ lit "-" ++ sanitizeName rawTab

inductive ContainerState
  | running
  | stopped
  | removed
  deriving DecidableEq

structure Container where
  name : GoString := []
  state : ContainerState := .removed
  deriving DecidableEq

/-- A connection: the entry it was dialed for and the container that listens. -/
structure Client where
  entry : ℕ
  container : ℕ
  deriving DecidableEq

structure Keepalive where
  consecutive : ℕ := 0
  cancelled : Bool := false
  deriving DecidableEq

/-- `tabRunner`, with the key under which it was put into the table. -/
structure Entry where
  key : TabKey := ⟨[], []⟩
  client : Option Client := none
  handle : Option ℕ := none
  err : Option GoString := none
  /-- `wait` is not nil. -/
  starting : Bool := false
  /-- None for the zero time. -/
  lastUsed : Option ℕ := none
  running : ℕ := 0
  tabs : Finset TabID := ∅
  keepalive : Option Keepalive := none

structure TrackedRunner where
  base : Option Client
  key : TabKey
  deriving DecidableEq

/-- Where `startRunner` stands. -/
inductive StartStage
  | prepare
  | ensure
  | connect (c : ℕ)
  | stopFailed (c : ℕ) (err : GoString)
  | removeFailed (c : ℕ) (err : GoString)
  | finish (result : Except GoString ℕ)

/-- Where `stopRunner` stands. -/
inductive StopStage
  | cancel
  | stop
  | remove
  | removeDir
  deriving DecidableEq

inductive StopReason
  | closed
  | keepaliveMissed
  | shutdown
  | idle
  deriving DecidableEq

/-- Where a call stands. -/
inductive Call
  /-- Not begun. -/
  | idle
  | waiting (key : TabKey) (tab : TabID) (e : ℕ)
  | lookup (key : TabKey) (tab : TabID)
  /-- The lock is released, the name of the container is still to be logged. -/
  | naming (e : ℕ) (runner : TrackedRunner)
  | starting (e : ℕ) (stage : StartStage)
  /-- `closeEntry`, begun by the keepalive of an entry. -/
  | closing (key : TabKey) (e : ℕ)
  /-- `stopRunner` for an entry, and the entries that come after it. -/
  | stopping (reason : StopReason) (stage : StopStage) (e : ℕ) (rest : List ℕ)
  | returned (result : Except GoString (Option TrackedRunner))
  | panicked

/-- A run or command that was started through a runner of an entry. -/
structure Run where
  entry : ℕ
  key : TabKey
  finished : Bool := false
  deriving DecidableEq

structure Provider where
  /-- `p.tabs`. -/
  table : TabKey → Option ℕ := fun _ => none
  entries : ℕ → Entry := fun _ => {}
  /-- How many entries were made. -/
  made : ℕ := 0
  containers : ℕ → Container := fun _ => {}
  created : ℕ := 0
  /-- The socket directories that exist, each with the entry whose start has last prepared it. -/
  dirs : TabKey → Option ℕ := fun _ => none
  calls : ℕ → Call := fun _ => .idle
  /-- How many calls have begun. -/
  begun : ℕ := 0
  runs : List Run := []
  now : ℕ := 0

/-- Maps are walked in the order of ranks; an answer is the error of what is tried, if any. -/
inductive Label
  | runnerFor (user : UserID) (tab : TabID)
  | closeTab (user : UserID) (tab : TabID)
  | closeAll (rank : ℕ → ℕ)
  | collectIdle (rank : ℕ → ℕ)
  | advance (i : ℕ) (answer : Option GoString)
  /-- The context of a waiting call is done. -/
  | cancel (i : ℕ) (err : GoString)
  | ping (e : ℕ) (ok : Bool)
  /-- A cancelled keepalive ends. -/
  | exit (e : ℕ)
  /-- `startRun` through the runner that a call has returned. -/
  | startRun (i : ℕ)
  /-- `done` of a run. -/
  | finishRun (k : ℕ)
  /-- The runtime removes a container that was stopped. -/
  | autoRemove (c : ℕ)
  | tick (d : ℕ)

namespace Provider

variable (cfg : Config) (s : Provider)

/-- A call has got to another point; a new call has the number `begun`. -/
def put (i : ℕ) (call : Call) : Provider :=
  { s with calls := update s.calls i call, begun := max s.begun (i + 1) }

def modify (e : ℕ) (f : Entry → Entry) : Provider :=
  { s with entries := update s.entries e (f (s.entries e)) }

def setState (c : ℕ) (state : ContainerState) : Provider :=
  { s with containers := update s.containers c { s.containers c with state := state } }

def setDir (key : TabKey) (owner : Option ℕ) : Provider :=
  { s with dirs := update s.dirs key owner }

def untable (keys : List TabKey) : Provider :=
  { s with table := fun k => if k ∈ keys then none else s.table k }

def returned (i : ℕ) (result : Except GoString (Option TrackedRunner)) : Provider :=
  s.put i (.returned result)

/-- The entries of the table. -/
def tabled : List ℕ :=
  (List.range s.made).filter fun e => s.table (s.entries e).key = some e

/-- A map is walked in any order. -/
def walk (rank : ℕ → ℕ) (items : List ℕ) : List ℕ := items.insertionSort fun a b => rank a ≤ rank b

/-- `stopRunner` for one entry after the other. -/
def stopAll (reason : StopReason) : List ℕ → Call
  | [] => .returned (.ok none)
  | e :: rest => .stopping reason .cancel e rest

/-- Entries are deleted from the table, and are stopped after the lock is released. -/
def take (i : ℕ) (reason : StopReason) (items : List ℕ) : Provider :=
  (s.untable (items.map fun e => (s.entries e).key)).put i (stopAll reason items)

def trackTab (tab : TabID) (entry : Entry) : Entry :=
  match cfg.scope with
  | .user => { entry with tabs := insert tab entry.tabs }
  | .tab => entry

def newEntry (key : TabKey) (tab : TabID) : Provider :=
  { s with
    table := update s.table key (some s.made)
    entries := update s.entries s.made (trackTab cfg tab { key := key, starting := true })
    made := s.made + 1 }.put s.begun (.starting s.made .prepare)

/-- The first lookup of `RunnerFor`. -/
def runnerFor (user : UserID) (tab : TabID) : Provider :=
  if blank user then s.returned s.begun (.error (lit "user id is required"))
  else if blank tab then s.returned s.begun (.error (lit "tab id is required"))
  else
    let key := keyFor cfg user tab
    match s.table key with
    | some e =>
      s.put s.begun (if (s.entries e).starting then .waiting key tab e else .lookup key tab)
    | none => s.newEntry cfg key tab

/-- The second lookup of `RunnerFor`. -/
def lookup (i : ℕ) (key : TabKey) (tab : TabID) : Provider :=
  match s.table key with
  | none => s.returned i (.error (lit "runner unavailable"))
  | some e =>
    match (s.entries e).err with
    -- the first call that sees a failed start takes its entry out of the table
    | some err => (s.untable [key]).returned i (.error err)
    | none =>
      (s.modify e fun x => trackTab cfg tab { x with lastUsed := some s.now }).put i
        (.naming e ⟨(s.entries e).client, key⟩)

/-- The container that `EnsureRunning` finds under a name, or a new one. -/
def ensured (name : GoString) : ℕ :=
  ((List.range s.created).find? fun c => (s.containers c).name = name ∧
    (cfg.namesAreIDs ∨ (s.containers c).state ≠ .removed)).getD s.created

def ensureRunning (name : GoString) : Provider :=
  let c := s.ensured cfg name
  { s with
    containers := update s.containers c ⟨name, .running⟩
    created := max s.created (c + 1) }

def startKeepalive : Option Keepalive :=
  if cfg.keepaliveInterval = 0 ∨ cfg.keepaliveMisses = 0 then none else some {}

/-- `startRunner`, and the section of `RunnerFor` after it. -/
def start (i e : ℕ) (answer : Option GoString) : StartStage → Provider
  | .prepare =>
    match answer with
    | some err => s.put i (.starting e (.finish (.error err)))
    | none => (s.setDir (s.entries e).key (some e)).put i (.starting e .ensure)
  | .ensure =>
    match answer with
    | some err => s.put i (.starting e (.finish (.error err)))
    | none =>
      let name := containerName cfg (s.entries e).key
      (s.ensureRunning cfg name).put i (.starting e (.connect (s.ensured cfg name)))
  | .connect c =>
    match answer with
    -- the socket does not come, or the dial fails: the container is stopped and removed again
    | some err => s.put i (.starting e (.stopFailed c err))
    | none => s.put i (.starting e (.finish (.ok c)))
  | .stopFailed c err => (s.setState c .stopped).put i (.starting e (.removeFailed c err))
  | .removeFailed c err => (s.setState c .removed).put i (.starting e (.finish (.error err)))
  | .finish (.error err) =>
    (s.modify e fun x => { x with err := some err, starting := false }).returned i (.error err)
  | .finish (.ok c) =>
    -- the entry is written whether or not the table still has it
    (s.modify e fun x => { x with
      client := some ⟨e, c⟩
      handle := some c
      keepalive := startKeepalive cfg
      lastUsed := some s.now
      starting := false }).returned i (.ok (some ⟨some ⟨e, c⟩, (s.entries e).key⟩))

/-- The section of `closeEntry` under the lock. -/
def closeEntry (i : ℕ) (key : TabKey) : Provider :=
  match s.table key with
  | none => s.returned i (.ok none)
  | some e => s.take i .keepaliveMissed [e]

def closeTab (user : UserID) (tab : TabID) : Provider :=
  if blank user then s.returned s.begun (.error (lit "user id is required"))
  else if blank tab then s.returned s.begun (.error (lit "tab id is required"))
  else
    match s.table (keyFor cfg user tab) with
    | none => s.returned s.begun (.ok none)
    | some e =>
      match cfg.scope with
      | .tab => s.take s.begun .closed [e]
      | .user =>
        let released := s.modify e fun x => { x with tabs := x.tabs.erase tab }
        if (released.entries e).tabs = ∅ then released.take s.begun .closed [e]
        else released.returned s.begun (.ok none)

/-- The check of `collectIdle`. -/
def isIdle (e : ℕ) : Bool :=
  let entry := s.entries e
  !entry.starting && entry.running == 0 && decide (0 < cfg.idleTimeout) &&
    (match entry.lastUsed with
    | none => true
    | some t => decide (cfg.idleTimeout ≤ s.now - t))

/-- One step of `stopRunner`; a container handle that is not there is skipped. -/
def stopRunner (i : ℕ) (reason : StopReason) (e : ℕ) (rest : List ℕ) : StopStage → Provider
  | .cancel =>
    (s.modify e fun x =>
      { x with keepalive := x.keepalive.map fun k => { k with cancelled := true } }).put i
        (.stopping reason .stop e rest)
  | .stop =>
    match (s.entries e).handle with
    | none => s.put i (.stopping reason .removeDir e rest)
    | some c => (s.setState c .stopped).put i (.stopping reason .remove e rest)
  | .remove =>
    match (s.entries e).handle with
    | none => s.put i (.stopping reason .removeDir e rest)
    | some c => (s.setState c .removed).put i (.stopping reason .removeDir e rest)
  | .removeDir => (s.setDir (s.entries e).key none).put i (stopAll reason rest)

def advance (i : ℕ) (answer : Option GoString) : Provider :=
  match s.calls i with
  | .waiting key tab e => if (s.entries e).starting then s else s.put i (.lookup key tab)
  | .lookup key tab => s.lookup cfg i key tab
  | .naming e runner =>
    -- the log line asks the handle for its name
    if (s.entries e).handle = none then s.put i .panicked else s.returned i (.ok (some runner))
  | .starting e stage => s.start cfg i e answer stage
  | .closing key _ => s.closeEntry i key
  | .stopping reason stage e rest => s.stopRunner i reason e rest stage
  | .idle | .returned _ | .panicked => s

def cancel (i : ℕ) (err : GoString) : Provider :=
  match s.calls i with
  | .waiting .. => s.returned i (.error err)
  | .idle | .lookup .. | .naming .. | .starting .. | .closing .. | .stopping .. | .returned _
  | .panicked => s

/-- A round of the keepalive. A ping that fails is counted even if the keepalive was cancelled. -/
def ping (e : ℕ) (ok : Bool) : Provider :=
  match (s.entries e).keepalive with
  | none => s
  | some k =>
    if s.made ≤ e then s
    else
      let consecutive := if ok then 0 else k.consecutive + 1
      if cfg.keepaliveMisses ≤ consecutive then
        -- the keepalive ends and a new goroutine calls `closeEntry` with the key alone
        (s.modify e fun x => { x with keepalive := none }).put s.begun
          (.closing (s.entries e).key e)
      else
        s.modify e fun x => { x with keepalive := some { k with consecutive := consecutive } }

def exit (e : ℕ) : Provider :=
  match (s.entries e).keepalive with
  | none => s
  | some k => if k.cancelled then s.modify e fun x => { x with keepalive := none } else s

/-- The entry that is in the table now is counted up or down. -/
def count (key : TabKey) (f : ℕ → ℕ) : Provider :=
  match s.table key with
  | none => s
  | some e => s.modify e fun x => { x with running := f x.running, lastUsed := some s.now }

/-- A runner without a client panics after it has counted. -/
def startRun (i : ℕ) : Provider :=
  match s.calls i with
  | .returned (.ok (some runner)) =>
    match runner.base with
    | none => s.count runner.key (· + 1)
    | some client =>
      { s.count runner.key (· + 1) with runs := s.runs ++ [⟨client.entry, runner.key, false⟩] }
  | .returned (.ok none) | .returned (.error _) | .idle | .waiting .. | .lookup .. | .naming ..
  | .starting .. | .closing .. | .stopping .. | .panicked => s

def finishRun (k : ℕ) : Provider :=
  match s.runs[k]? with
  | none => s
  | some r =>
    if r.finished then s
    else { s.count r.key (· - 1) with runs := s.runs.set k { r with finished := true } }

def autoRemove (c : ℕ) : Provider :=
  if (s.containers c).state = .stopped then s.setState c .removed else s

def step : Label → Provider
  | .runnerFor user tab => s.runnerFor cfg user tab
  | .closeTab user tab => s.closeTab cfg user tab
  | .closeAll rank => s.take s.begun .shutdown (walk rank s.tabled)
  | .collectIdle rank => s.take s.begun .idle (walk rank (s.tabled.filter (s.isIdle cfg)))
  | .advance i answer => s.advance cfg i answer
  | .cancel i err => s.cancel i err
  | .ping e ok => s.ping cfg e ok
  | .exit e => s.exit e
  | .startRun i => s.startRun i
  | .finishRun k => s.finishRun k
  | .autoRemove c => s.autoRemove c
  | .tick d => { s with now := s.now + d }

end Provider

/-- One container for each tab. -/
def tabConfig : Config where
  scope := .tab
  namePrefix := lit "centaurx-runner"
  idleTimeout := 10
  keepaliveInterval := 5
  keepaliveMisses := 2
  namesAreIDs := false

/-- The steps of a start that succeeds. -/
def startSteps (i : ℕ) : List Label := List.replicate 4 (.advance i none)

end Centaurx.RunnerContainer
