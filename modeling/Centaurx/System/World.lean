import Centaurx.Core.SectionFacts
import Centaurx.HttpApi.Hub
import Centaurx.Lib.Runs

/-!
# The service, its store and its hub

Up to `n` calls are in progress at once, for any users and from any sessions. A call
enters by its critical section, which is atomic, and then works through the acts that
the section left, one at a time; the acts of different calls interleave freely. A
restart drops everything but the saved files.
-/

namespace Centaurx
open Go List Function

structure Call (Text : Type) where
  user : UserID
  todo : List (Act Text)
  deriving DecidableEq

/-- What statements about runs have to remember. The service never reads it. -/
structure Log where
  /-- Ids drawn by `newID`, in all runs of the process. -/
  drawn : List TabID
  /-- Tabs closed by `CloseTab`, in all runs of the process. -/
  closed : UserID → List TabID
  /-- What was appended to the tabs' buffers since the start. -/
  appended : UserID → List (TabID × List GoString)
  /-- What the hub published since the start. -/
  events : UserID → List StreamEvent
  /-- How the state in memory came about. -/
  origin : UserID → Option LoadResult
  /-- How often the file was written since the start. -/
  saves : UserID → ℕ

structure World (Text : Type) (n : ℕ) where
  users : UserID → Option UserState
  disk : UserID → Option Text
  hubs : UserID → UserHub
  sessions : ℕ → Option Prefs
  calls : Fin n → Call Text
  log : Log

inductive Label (n : ℕ)
  | connect (session : ℕ)
  | enter (i : Fin n) (session : ℕ) (u : UserID) (op : Op) (readOK : Bool)
  | advance (i : Fin n) (ok : Bool)
  | restart
  deriving DecidableEq

def Label.newID {n : ℕ} : Label n → Option TabID
  | .enter _ _ _ op _ => op.newID
  | _ => none

/-- `getOrCreateUserStateLocked`, from the state in memory and what loading would give. -/
def getOrCreateUserState (cfg : Config) (memory : Option UserState) (result : LoadResult) :
    UserState :=
  let entry := memory.getD (loadUserState cfg result)
  if entry.theme = [] then { entry with theme := cfg.defaultTheme } else entry

/-- The tabs that an operation closes. -/
def Op.closes (st : UserState) : Op → List TabID
  | .closeTab id => if id ∈ st.tabs then [id] else []
  | _ => []

/-- The lines that an operation appends to a tab's buffer. -/
def Op.appends (st : UserState) : Op → List (TabID × List GoString)
  | .appendOutput id lines => if id ∈ st.tabs then [(id, lines)] else []
  | .appendLines id lines => if id ∈ st.tabs then [(id, lines)] else []
  | _ => []

/-- The buffer that a reference means. -/
def UserState.buffer (st : UserState) : BufRef → Option Buffer
  | .tab id => (st.tabs.lookup id).map Tab.buffer
  | .system => some st.system

/-- The store of `Snapshot` into the offset. When the tab is gone the store goes to an object
that nobody reads any more. -/
def UserState.storeOffset (st : UserState) (ref : BufRef) (max : Int) : UserState :=
  match ref with
  | .tab id =>
    match st.tabs.lookup id with
    | none => st
    | some t => st.putTab id { t with buffer := { t.buffer with scrollOffset := max } }
  | .system => { st with system := { st.system with scrollOffset := max } }

namespace World

variable {Text : Type} {n : ℕ} (env : Env Text) (w : World Text n)

/-- The state that the section of `op` works on, if it does not give up. -/
def found (u : UserID) (op : Op) (readOK : Bool) : Option UserState :=
  if op.loads then
    some (getOrCreateUserState env.cfg (w.users u) (env.json.load (w.disk u) readOK))
  else w.users u

/-- A call enters when its slot is free and its checks pass. -/
def admits (i : Fin n) (u : UserID) (op : Op) : Bool :=
  (w.calls i).todo.isEmpty && validateUserID u && op.admitted env.uni

def logEnter (u : UserID) (op : Op) (readOK : Bool) (st : UserState) : Log where
  drawn := w.log.drawn ++ op.newID.toList
  closed := update w.log.closed u (w.log.closed u ++ op.closes st)
  appended := update w.log.appended u (w.log.appended u ++ op.appends st)
  events := w.log.events
  origin :=
    if (w.users u).isNone then
      update w.log.origin u (some (env.json.load (w.disk u) readOK))
    else w.log.origin
  saves := w.log.saves

def enter (i : Fin n) (session : ℕ) (u : UserID) (op : Op) (readOK : Bool) : World Text n :=
  match w.found env u op readOK with
  -- The background sections give up on a user who is not in memory.
  | none => w
  | some st =>
    let out := serve env (w.sessions session) st op
    { w with
      users := update w.users u (some out.state)
      sessions := update w.sessions session out.prefs
      calls := update w.calls i ⟨u, out.todo⟩
      log := w.logEnter env u op readOK st }

/-- `publish` of the hub. -/
def emit (u : UserID) (e : SinkEvent) : World Text n :=
  { w with
    hubs := update w.hubs u ((w.hubs u).publish env.historySize e.body)
    log := { w.log with
      events := update w.log.events u (w.log.events u ++ [(w.hubs u).stamp e.body]) } }

def storeOffset (u : UserID) (ref : BufRef) (max : Int) : World Text n :=
  { w with
    users := update w.users u ((w.users u).map (UserState.storeOffset · ref max)) }

/-- The rename that ends a successful `Save`. -/
def rename (u : UserID) (text : Text) : World Text n :=
  { w with
    disk := update w.disk u (some text)
    log := { w.log with saves := update w.log.saves u (w.log.saves u + 1) } }

def setTodo (i : Fin n) (todo : List (Act Text)) : World Text n :=
  { w with calls := update w.calls i { w.calls i with todo := todo } }

/-- One act: the world after it, and what the call does next instead of it. -/
def perform (u : UserID) (ok : Bool) : Act Text → World Text n × List (Act Text)
  | .emit e => (w.emit env u e, [])
  -- The two reads and the write of `Snapshot` that concern the offset.
  | .view ref limit =>
    (w, match (w.users u).bind (·.buffer ref) with
      | none => []
      | some b => [.compare ref (Buffer.viewMax b.lines.length limit)])
  | .compare ref max =>
    (w, match (w.users u).bind (·.buffer ref) with
      | none => []
      | some b => if b.scrollOffset > max then [.store ref max] else [])
  | .store ref max => (w.storeOffset u ref max, [])
  -- The snapshot is taken under the lock; the save runs after its release.
  | .persist =>
    (w, match w.users u with
      | none => []
      | some st => [.save (env.json.marshal (snapshotUser st))])
  | .save text => (if ok then w.rename u text else w, [])

@[simp] theorem perform_calls (u : UserID) (ok : Bool) (a : Act Text) :
    (w.perform env u ok a).1.calls = w.calls := by
  cases a with
  | save text =>
    simp only [perform]
    split_ifs <;> rfl
  | _ => rfl

@[simp] theorem perform_drawn (u : UserID) (ok : Bool) (a : Act Text) :
    (w.perform env u ok a).1.log.drawn = w.log.drawn := by
  cases a with
  | save text =>
    simp only [perform]
    split_ifs <;> rfl
  | _ => rfl

@[simp] theorem perform_sessions (u : UserID) (ok : Bool) (a : Act Text) :
    (w.perform env u ok a).1.sessions = w.sessions := by
  cases a with
  | save text =>
    simp only [perform]
    split_ifs <;> rfl
  | _ => rfl

def advance (i : Fin n) (ok : Bool) : World Text n :=
  match (w.calls i).todo with
  | [] => w
  | a :: rest =>
    let (w', next) := w.perform env (w.calls i).user ok a
    w'.setTodo i (next ++ rest)

/-- The process before its first call. -/
def start (disk : UserID → Option Text) (drawn : List TabID) (closed : UserID → List TabID) :
    World Text n where
  users _ := none
  disk := disk
  hubs _ := UserHub.new
  sessions _ := none
  calls _ := ⟨[], []⟩
  log :=
    { drawn := drawn
      closed := closed
      appended := fun _ => []
      events := fun _ => []
      origin := fun _ => none
      saves := fun _ => 0 }

/-- A service that has never run before. -/
def birth : World Text n := start (fun _ => none) [] (fun _ => [])

def step (w : World Text n) : Label n → World Text n
  | .connect session =>
    { w with sessions := update w.sessions session (some ⟨false, []⟩) }
  | .enter i session u op readOK =>
    if w.admits env i u op then w.enter env i session u op readOK else w
  | .advance i ok => w.advance env i ok
  -- Memory, sessions, hubs and the calls in progress are lost.
  | .restart => start w.disk w.log.drawn w.log.closed

/-- No call is in progress. -/
def Quiet : Prop := ∀ i, (w.calls i).todo = []

/-- `newID` does not repeat an id. -/
def DrawsFresh (l : Label n) : Prop := ∀ id, l.newID = some id → id ∉ w.log.drawn

instance : Decidable w.Quiet := inferInstanceAs (Decidable (∀ i, (w.calls i).todo = []))

instance (l : Label n) : Decidable (w.DrawsFresh l) :=
  match h : l.newID with
  | none => isTrue (fun id hid => by simp [h] at hid)
  | some id => decidable_of_iff (id ∉ w.log.drawn) (by simp [DrawsFresh, h])

end World

def Act.saved {Text : Type} : Act Text → Option Text
  | .save text => some text
  | _ => none

/-- The snapshots that are taken and not yet renamed. -/
def pendingSaves {Text : Type} (todo : List (Act Text)) : List Text := todo.filterMap Act.saved

/-- The next act takes a snapshot. -/
def atPersist {Text : Type} : List (Act Text) → Bool
  | .persist :: _ => true
  | _ => false

theorem pendingSaves_of_initial {Text : Type} {todo : List (Act Text)}
    (h : todo.all Act.initial = true) : pendingSaves todo = [] := by
  rw [pendingSaves, filterMap_eq_nil_iff]
  intro a ha
  have := all_eq_true.mp h a ha
  cases a with
  | save text => simp [Act.initial] at this
  | _ => rfl

/-- What the call still has to do for the user. -/
def Call.todoOf {Text : Type} (u : UserID) (c : Call Text) : List (Act Text) :=
  if c.user = u then c.todo else []

namespace World

variable {Text : Type} {n : ℕ}

/-- Two worlds that do not differ in anything that concerns the user's saved state. -/
structure Agree (u : UserID) (w w' : World Text n) : Prop where
  users : w'.users u = w.users u
  disk : w'.disk u = w.disk u
  closed : w'.log.closed u = w.log.closed u
  origin : w'.log.origin u = w.log.origin u
  saves : w'.log.saves u = w.log.saves u
  todo : Call.todoOf u ∘ w'.calls = Call.todoOf u ∘ w.calls

variable {env : Env Text} {w : World Text n} {u v : UserID} {i : Fin n} {op : Op}

/-- The section of an operation works on the tabs in memory, when there are any. -/
theorem found_tabs {readOK : Bool} {st st₀ : UserState} (hu : w.users u = some st₀)
    (hf : w.found env u op readOK = some st) : st.tabs = st₀.tabs ∧ st.order = st₀.order := by
  simp only [found, getOrCreateUserState, hu, Option.getD_some] at hf
  split_ifs at hf <;> (obtain rfl := Option.some.inj hf; exact ⟨rfl, rfl⟩)

theorem admitted_of_admits (ha : w.admits env i u op = true) : op.admitted env.uni = true := by
  simp only [admits, Bool.and_eq_true] at ha
  exact ha.2

theorem step_enter {P : World Text n → Prop} {session : ℕ} {readOK : Bool} (h : P w)
    (henter : w.admits env i u op = true → P (w.enter env i session u op readOK)) :
    P (w.step env (.enter i session u op readOK)) := by
  rw [step]
  split_ifs with ha
  · exact henter ha
  · exact h

theorem todo_of_admits (ha : w.admits env i v op = true) : (w.calls i).todo = [] := by
  simp only [admits, Bool.and_eq_true, List.isEmpty_iff] at ha
  exact ha.1.1

theorem todoOf_of_admits (ha : w.admits env i v op = true) : (Call.todoOf u ∘ w.calls) i = [] := by
  simp [Call.todoOf, todo_of_admits ha]

theorem todo_setTodo {w' : World Text n} (hu : (w.calls i).user = u) (hc : w'.calls = w.calls)
    (todo : List (Act Text)) :
    Call.todoOf u ∘ (w'.setTodo i todo).calls =
      update (Call.todoOf u ∘ w.calls) i todo := by
  rw [setTodo, hc, comp_update, Call.todoOf, if_pos hu]

theorem todoOf_of_user (hu : (w.calls i).user = u) :
    (Call.todoOf u ∘ w.calls) i = (w.calls i).todo := by
  rw [comp_apply, Call.todoOf, if_pos hu]

theorem agree_enter (hv : v ≠ u) (ha : w.admits env i v op = true) (session : ℕ) (readOK : Bool) :
    Agree u w (w.enter env i session v op readOK) := by
  simp only [enter]
  split
  · exact ⟨rfl, rfl, rfl, rfl, rfl, rfl⟩
  · next st hf =>
    have hne : u ≠ v := hv.symm
    refine ⟨?_, rfl, ?_, ?_, rfl, ?_⟩
    · exact update_of_ne hne ..
    · simp [logEnter, update_of_ne hne]
    · simp only [logEnter]
      split_ifs
      · exact update_of_ne hne ..
      · rfl
    · simp only [comp_update]
      rw [Call.todoOf, if_neg hv, ← todoOf_of_admits (u := u) ha, update_eq_self]

theorem agree_perform (hv : v ≠ u) (ok : Bool) (a : Act Text) :
    Agree u w (w.perform env v ok a).1 := by
  have hne : u ≠ v := hv.symm
  cases a with
  | store ref max => exact ⟨update_of_ne hne .., rfl, rfl, rfl, rfl, rfl⟩
  | save text =>
    simp only [perform]
    split_ifs
    · exact ⟨rfl, update_of_ne hne .., rfl, rfl, update_of_ne hne .., rfl⟩
    · exact ⟨rfl, rfl, rfl, rfl, rfl, rfl⟩
  | emit | view | compare | persist => exact ⟨rfl, rfl, rfl, rfl, rfl, rfl⟩

theorem agree_advance (hv : (w.calls i).user ≠ u) (ok : Bool) :
    Agree u w (w.advance env i ok) := by
  simp only [advance]
  split
  · exact ⟨rfl, rfl, rfl, rfl, rfl, rfl⟩
  · next a rest htodo =>
    have h : Agree u w (w.perform env (w.calls i).user ok a).1 := agree_perform hv ok a
    refine ⟨h.users, h.disk, h.closed, h.origin, h.saves, ?_⟩
    funext j
    by_cases hj : j = i
    · subst hj
      simp [setTodo, Call.todoOf, hv]
    · simp [setTodo, update_of_ne hj]

end World

end Centaurx
