import Centaurx.Core.SectionFacts
import Centaurx.Lib.Runs

namespace Centaurx
open Go List Function

/-- A codex run that `SendPrompt` has started. -/
structure Run where
  handle : RunHandle
  cancel : CancelFunc
  resume : SessionID
  deriving DecidableEq

/-- A started process with the function that cancels its context. -/
inductive Proc
  | run (handle : RunHandle) (cancel : CancelFunc)
  | command (handle : CommandHandle) (cancel : CancelFunc)
  deriving DecidableEq

def Proc.handle : Proc → ℕ
  | .run handle _ => handle
  | .command handle _ => handle

/-- The arguments of `stopTabHandles` and `stopTabHandlesAsync`. -/
structure Stop where
  handle : Option RunHandle
  cancel : Option CancelFunc
  commands : List CommandRun
  deriving DecidableEq

/-- The call signals the process and calls its cancel function. -/
def Stop.covers (stop : Stop) : Proc → Bool
  | .run handle cancel => stop.handle = some handle && stop.cancel = some cancel
  | .command handle cancel => stop.commands.contains ⟨handle, cancel⟩

@[simp] theorem Stop.covers_run (stop : Stop) (handle : RunHandle) (cancel : CancelFunc) :
    stop.covers (.run handle cancel) = true ↔
      stop.handle = some handle ∧ stop.cancel = some cancel := by
  rw [Stop.covers, Bool.and_eq_true]
  exact and_congr decide_eq_true_iff decide_eq_true_iff

@[simp] theorem Stop.covers_command (stop : Stop) (handle : CommandHandle) (cancel : CancelFunc) :
    stop.covers (.command handle cancel) = true ↔ ⟨handle, cancel⟩ ∈ stop.commands :=
  contains_iff_mem

theorem Stop.ne_of_covers {stop : Stop} {p : Proc} (h : stop.covers p = true) :
    stop.handle ≠ none ∨ stop.commands ≠ [] := by
  cases p with
  | run handle cancel => exact .inl (by simp [((Stop.covers_run ..).mp h).1])
  | command handle cancel => exact .inr (ne_nil_of_mem ((Stop.covers_command ..).mp h))

/-- Where a call on the tab stands. -/
inductive Phase
  | idle
  /-- `SendPrompt` has passed the busy check. -/
  | checked
  /-- `SendPrompt` has read the session id to resume. -/
  | prepared (resume : SessionID)
  /-- `SendPrompt` has started the run and not yet published it. -/
  | started (run : Run)
  /-- `handleShell` has found the tab. -/
  | shellFound
  /-- `handleShell` has started the command and not yet registered it. -/
  | shellStarted (command : CommandRun)
  /-- `StopSession` has left its critical section. -/
  | stopping (handle : Option RunHandle) (commands : List CommandRun)
  /-- `CloseTab` has left its critical section. -/
  | closing (stop : Stop)
  deriving DecidableEq

structure TabRuns (n : ℕ) where
  tab : Tab
  /-- The tab is in the tab map. -/
  isOpen : Bool
  calls : Fin n → Phase
  /-- Handles and cancel functions are numbered as they are made. -/
  next : ℕ
  /-- The runs that are published and not yet completed, each with its `consumeEvents`. -/
  runs : List Run
  /-- The commands with a `streamCommandOutput`. -/
  streams : List CommandHandle
  /-- The started processes that have not finished. -/
  live : List Proc
  /-- The calls of `stopTabHandles`, made by `CloseTab`. -/
  closes : List Stop
  /-- The calls of `stopTabHandlesAsync`, made by `StopSession`. -/
  stops : List Stop
  /-- The session ids that the tab has held. -/
  held : List SessionID
  /-- Those of them that it held before its last renewal. -/
  old : List SessionID

inductive RunLabel (n : ℕ)
  | check (i : Fin n)
  | read (i : Fin n)
  | start (i : Fin n)
  | fail (i : Fin n)
  | publish (i : Fin n)
  | report (handle : RunHandle) (newThread : Bool)
  | complete (handle : RunHandle)
  | exit (proc : Proc)
  | find (i : Fin n)
  | startCommand (i : Fin n)
  | register (i : Fin n)
  | unregister (handle : CommandHandle)
  | stop (i : Fin n)
  | stopHandles (i : Fin n)
  | close (i : Fin n)
  | closeHandles (i : Fin n)
  | renew
  deriving DecidableEq

namespace TabRuns

variable {n : ℕ}

/-- A tab after a start of the service, or after its creation. -/
def init (t : Tab) : TabRuns n where
  tab := t.restarted
  isOpen := true
  calls _ := .idle
  next := 0
  runs := []
  streams := []
  live := []
  closes := []
  stops := []
  held := if t.sessionID = [] then [] else [t.sessionID]
  old := []

def setCall (s : TabRuns n) (i : Fin n) (p : Phase) : TabRuns n :=
  { s with calls := update s.calls i p }

theorem setCall_cases (s : TabRuns n) (i : Fin n) (p : Phase) (j : Fin n) :
    (j = i ∧ (s.setCall i p).calls j = p) ∨ (j ≠ i ∧ (s.setCall i p).calls j = s.calls j) := by
  by_cases hj : j = i
  · subst hj
    exact .inl ⟨rfl, update_self ..⟩
  · exact .inr ⟨hj, update_of_ne hj ..⟩

/-- A process has finished. -/
def finish (s : TabRuns n) (handle : ℕ) : TabRuns n :=
  { s with live := s.live.filter (fun p => p.handle ≠ handle) }

/-- An update of the tab by code that looks it up in the tab map. -/
def lookup (s : TabRuns n) (f : Tab → Tab) : TabRuns n :=
  if s.isOpen then { s with tab := f s.tab } else s

@[simp] theorem lookup_isOpen (s : TabRuns n) (f : Tab → Tab) :
    (s.lookup f).isOpen = s.isOpen := by
  simp only [lookup]
  split_ifs <;> rfl

@[simp] theorem lookup_runs (s : TabRuns n) (f : Tab → Tab) : (s.lookup f).runs = s.runs := by
  simp only [lookup]
  split_ifs <;> rfl

@[simp] theorem lookup_calls (s : TabRuns n) (f : Tab → Tab) : (s.lookup f).calls = s.calls := by
  simp only [lookup]
  split_ifs <;> rfl

@[simp] theorem lookup_live (s : TabRuns n) (f : Tab → Tab) : (s.lookup f).live = s.live := by
  simp only [lookup]
  split_ifs <;> rfl

theorem lookup_tab {s : TabRuns n} {f : Tab → Tab} (ho : s.isOpen = true) :
    (s.lookup f).tab = f s.tab := by
  simp only [lookup, ho, if_true]

def check (s : TabRuns n) (i : Fin n) : TabRuns n :=
  if s.calls i = .idle ∧ s.isOpen = true ∧ s.tab.status ≠ .running then s.setCall i .checked
  else s

def read (s : TabRuns n) (i : Fin n) : TabRuns n :=
  match s.calls i with
  | .checked => s.setCall i (.prepared s.tab.sessionID)
  | _ => s

def start (s : TabRuns n) (i : Fin n) : TabRuns n :=
  match s.calls i with
  | .prepared resume =>
    { s.setCall i (.started ⟨s.next, s.next, resume⟩) with
      next := s.next + 1
      live := s.live ++ [.run s.next s.next] }
  | _ => s

/-- A call that returns an error before anything was started. -/
def fail (s : TabRuns n) (i : Fin n) : TabRuns n :=
  match s.calls i with
  | .checked => s.setCall i .idle
  | .prepared _ => s.setCall i .idle
  | .shellFound => s.setCall i .idle
  | _ => s

/-- The publish section does not look the tab up again. -/
def publish (s : TabRuns n) (i : Fin n) : TabRuns n :=
  match s.calls i with
  | .started run =>
    { s.setCall i .idle with
      tab := s.tab.publish run.handle run.cancel
      runs := s.runs ++ [run] }
  | _ => s

/-- The thread id of an event: that of the thread the run resumes, or a new one. -/
def reported (threads : RunHandle → SessionID) (run : Run) (newThread : Bool) : SessionID :=
  if newThread then threads run.handle else run.resume

def report (threads : RunHandle → SessionID) (s : TabRuns n) (handle : RunHandle)
    (newThread : Bool) : TabRuns n :=
  match s.runs.find? (fun run => run.handle = handle) with
  | none => s
  | some run =>
    let sid := reported threads run newThread
    -- `setSessionID` finds the tab in the map, and keeps an id that it has.
    if sid ≠ [] ∧ s.isOpen = true ∧ s.tab.sessionID = [] then
      { s with tab := s.tab.setSessionID sid, held := s.held ++ [sid] }
    else s

def complete (s : TabRuns n) (handle : RunHandle) : TabRuns n :=
  if s.runs.any (fun run => run.handle = handle) then
    { (s.lookup (fun t => t.complete handle)).finish handle with
      runs := s.runs.filter (fun run => run.handle ≠ handle) }
  else s

def find (s : TabRuns n) (i : Fin n) : TabRuns n :=
  if s.calls i = .idle ∧ s.isOpen = true then s.setCall i .shellFound else s

def startCommand (s : TabRuns n) (i : Fin n) : TabRuns n :=
  match s.calls i with
  | .shellFound =>
    { s.setCall i (.shellStarted ⟨s.next, s.next⟩) with
      next := s.next + 1
      live := s.live ++ [.command s.next s.next] }
  | _ => s

/-- `RegisterCommand`, and the start of `streamCommandOutput` after it. -/
def register (s : TabRuns n) (i : Fin n) : TabRuns n :=
  match s.calls i with
  -- Without the tab the command is not registered, but its output is still read.
  | .shellStarted c =>
    { (s.lookup (fun t => t.registerCommand c.handle c.cancel)).setCall i .idle with
      streams := s.streams ++ [c.handle] }
  | _ => s

/-- The deferred end of `streamCommandOutput`. -/
def unregister (s : TabRuns n) (handle : CommandHandle) : TabRuns n :=
  if handle ∈ s.streams then
    { (s.lookup (fun t => t.unregisterCommand handle)).finish handle with
      streams := s.streams.filter (fun h => h ≠ handle) }
  else s

def stop (s : TabRuns n) (i : Fin n) : TabRuns n :=
  if s.calls i = .idle ∧ s.isOpen = true ∧ ¬ (s.tab.run = none ∧ s.tab.commands = []) then
    s.setCall i (.stopping s.tab.run s.tab.commands)
  else s

/-- The cancel function is read here, outside the lock, and not with the handle. -/
def stopHandles (s : TabRuns n) (i : Fin n) : TabRuns n :=
  match s.calls i with
  | .stopping handle commands =>
    { s.setCall i .idle with stops := s.stops ++ [⟨handle, s.tab.runCancel, commands⟩] }
  | _ => s

def close (s : TabRuns n) (i : Fin n) : TabRuns n :=
  if s.calls i = .idle ∧ s.isOpen = true then
    { s.setCall i (.closing ⟨s.tab.run, s.tab.runCancel, s.tab.commands⟩) with isOpen := false }
  else s

def closeHandles (s : TabRuns n) (i : Fin n) : TabRuns n :=
  match s.calls i with
  | .closing stop =>
    -- With nothing to stop, `stopTabHandles` is not called.
    if stop.handle ≠ none ∨ stop.commands ≠ [] then
      { s.setCall i .idle with closes := s.closes ++ [stop] }
    else s.setCall i .idle
  | _ => s

def renew (s : TabRuns n) : TabRuns n :=
  if s.isOpen = true ∧ s.tab.status ≠ .running then
    { s with tab := s.tab.renew, old := s.held }
  else s

def step (threads : RunHandle → SessionID) (s : TabRuns n) : RunLabel n → TabRuns n
  | .check i => s.check i
  | .read i => s.read i
  | .start i => s.start i
  | .fail i => s.fail i
  | .publish i => s.publish i
  | .report handle newThread => s.report threads handle newThread
  | .complete handle => s.complete handle
  | .exit proc => s.finish proc.handle
  | .find i => s.find i
  | .startCommand i => s.startCommand i
  | .register i => s.register i
  | .unregister handle => s.unregister handle
  | .stop i => s.stop i
  | .stopHandles i => s.stopHandles i
  | .close i => s.close i
  | .closeHandles i => s.closeHandles i
  | .renew => s.renew

/-- Every call has returned. -/
def Quiet (s : TabRuns n) : Prop := ∀ i, s.calls i = .idle

instance (s : TabRuns n) : Decidable s.Quiet := inferInstanceAs (Decidable (∀ i, s.calls i = .idle))

/-- A call goes on, and nothing else changes. -/
inductive Goes (s : TabRuns n) : Phase → Phase → Prop
  | read : Goes s .checked (.prepared s.tab.sessionID)
  | failChecked : Goes s .checked .idle
  | failPrepared {resume} : Goes s (.prepared resume) .idle
  | failFound : Goes s .shellFound .idle
  | find : Goes s .idle .shellFound

inductive Move (threads : RunHandle → SessionID) (s : TabRuns n) : RunLabel n → TabRuns n → Prop
  | stay {l} : Move threads s l s
  | go {l i q} (h : s.Goes (s.calls i) q) : Move threads s l (s.setCall i q)
  | check {i} (hi : s.calls i = .idle) (ho : s.isOpen = true) (hstatus : s.tab.status ≠ .running) :
      Move threads s (.check i) (s.setCall i .checked)
  | start {i resume} (hi : s.calls i = .prepared resume) :
      Move threads s (.start i) { s.setCall i (.started ⟨s.next, s.next, resume⟩) with
        next := s.next + 1
        live := s.live ++ [.run s.next s.next] }
  | publish {i run} (hi : s.calls i = .started run) :
      Move threads s (.publish i) { s.setCall i .idle with
        tab := s.tab.publish run.handle run.cancel
        runs := s.runs ++ [run] }
  | report {handle b run} (hrun : run ∈ s.runs) (hne : reported threads run b ≠ [])
      (hnone : s.tab.sessionID = []) :
      Move threads s (.report handle b) { s with
        tab := s.tab.setSessionID (reported threads run b)
        held := s.held ++ [reported threads run b] }
  | complete {run} (hrun : run ∈ s.runs) :
      Move threads s (.complete run.handle)
        { (s.lookup (fun t => t.complete run.handle)).finish run.handle with
          runs := s.runs.filter (fun r => r.handle ≠ run.handle) }
  | exit {proc} : Move threads s (.exit proc) (s.finish proc.handle)
  | startCommand {i} (hi : s.calls i = .shellFound) :
      Move threads s (.startCommand i) { s.setCall i (.shellStarted ⟨s.next, s.next⟩) with
        next := s.next + 1
        live := s.live ++ [.command s.next s.next] }
  | register {i c} (hi : s.calls i = .shellStarted c) :
      Move threads s (.register i)
        { (s.lookup (fun t => t.registerCommand c.handle c.cancel)).setCall i .idle with
          streams := s.streams ++ [c.handle] }
  | unregister {handle} :
      Move threads s (.unregister handle)
        { (s.lookup (fun t => t.unregisterCommand handle)).finish handle with
          streams := s.streams.filter (fun h => h ≠ handle) }
  | stop {i} (hi : s.calls i = .idle) :
      Move threads s (.stop i) (s.setCall i (.stopping s.tab.run s.tab.commands))
  | stopHandles {i handle commands} (hi : s.calls i = .stopping handle commands) :
      Move threads s (.stopHandles i) { s.setCall i .idle with
        stops := s.stops ++ [⟨handle, s.tab.runCancel, commands⟩] }
  | close {i} (hi : s.calls i = .idle) (ho : s.isOpen = true) :
      Move threads s (.close i)
        { s.setCall i (.closing ⟨s.tab.run, s.tab.runCancel, s.tab.commands⟩) with
          isOpen := false }
  | closeHandles {i stop closes} (hi : s.calls i = .closing stop) (hsub : s.closes ⊆ closes)
      (hin : stop.handle ≠ none ∨ stop.commands ≠ [] → stop ∈ closes) :
      Move threads s (.closeHandles i) { s.setCall i .idle with closes := closes }
  | renew (ho : s.isOpen = true) (hstatus : s.tab.status ≠ .running) :
      Move threads s .renew { s with tab := s.tab.renew, old := s.held }

/-- Every step is one of the moves; the invariants are proved over the moves. -/
theorem step_move (threads : RunHandle → SessionID) (s : TabRuns n) (l : RunLabel n) :
    Move threads s l (s.step threads l) := by
  cases l with
  | check i =>
    simp only [step, check]
    split_ifs with hc
    · exact .check hc.1 hc.2.1 hc.2.2
    · exact .stay
  | read i =>
    simp only [step, read]
    split
    · next hi => exact .go (by rw [hi]; exact .read)
    · exact .stay
  | start i =>
    simp only [step, start]
    split
    · next resume hi => exact .start hi
    · exact .stay
  | fail i =>
    simp only [step, fail]
    split
    · next hi => exact .go (by rw [hi]; exact .failChecked)
    · next resume hi => exact .go (by rw [hi]; exact .failPrepared)
    · next hi => exact .go (by rw [hi]; exact .failFound)
    · exact .stay
  | publish i =>
    simp only [step, publish]
    split
    · next run hi => exact .publish hi
    · exact .stay
  | report handle newThread =>
    simp only [step, report]
    split
    · exact .stay
    · next run hfind =>
      split_ifs with hif
      · exact .report (mem_of_find?_eq_some hfind) hif.1 hif.2.2
      · exact .stay
  | complete handle =>
    simp only [step, complete]
    split_ifs with hany
    · obtain ⟨run, hrun, hhandle⟩ := any_eq_true.mp hany
      obtain rfl := of_decide_eq_true hhandle
      exact .complete hrun
    · exact .stay
  | exit proc => exact .exit
  | find i =>
    simp only [step, find]
    split_ifs with hc
    · exact .go (by rw [hc.1]; exact .find)
    · exact .stay
  | startCommand i =>
    simp only [step, startCommand]
    split
    · next hi => exact .startCommand hi
    · exact .stay
  | register i =>
    simp only [step, register]
    split
    · next c hi => exact .register hi
    · exact .stay
  | unregister handle =>
    simp only [step, unregister]
    split_ifs
    · exact .unregister
    · exact .stay
  | stop i =>
    simp only [step, stop]
    split_ifs with hc
    · exact .stop hc.1
    · exact .stay
  | stopHandles i =>
    simp only [step, stopHandles]
    split
    · next handle commands hi => exact .stopHandles hi
    · exact .stay
  | close i =>
    simp only [step, close]
    split_ifs with hc
    · exact .close hc.1 hc.2
    · exact .stay
  | closeHandles i =>
    simp only [step, closeHandles]
    split
    · next stop hi =>
      split_ifs with hne
      · exact .closeHandles hi (subset_append_left _ _) fun _ => by simp
      · exact .closeHandles hi (List.Subset.refl _) fun hne' => absurd hne' hne
    · exact .stay
  | renew =>
    simp only [step, renew]
    split_ifs with hc
    · exact .renew hc.1 hc.2
    · exact .stay

/-- The tab map has the tab exactly while it is open. -/
def Mirrors (id : TabID) (st : UserState) (s : TabRuns n) : Prop :=
  st.tabs.lookup id = if s.isOpen then some s.tab else none

/-- The operation of the service whose critical section a step is. -/
def op (threads : RunHandle → SessionID) (id active : TabID) (s : TabRuns n) :
    RunLabel n → Option Op
  | .check i => if s.calls i = .idle then some (.sendPromptCheck id) else none
  | .publish i =>
    match s.calls i with
    | .started run => some (.sendPromptPublish id active run.handle run.cancel s.tab)
    | _ => none
  | .report handle newThread =>
    match s.runs.find? (fun run => run.handle = handle) with
    | none => none
    | some run =>
      let sid := reported threads run newThread
      if sid = [] then none else some (.setSessionID id sid)
  | .complete handle =>
    if s.runs.any (fun run => run.handle = handle) then some (.consumeComplete id handle)
    else none
  | .register i =>
    match s.calls i with
    | .shellStarted c => some (.registerCommand id c.handle c.cancel)
    | _ => none
  | .unregister handle =>
    if handle ∈ s.streams then some (.unregisterCommand id handle) else none
  | .stop i => if s.calls i = .idle then some (.stopSession id) else none
  | .close i => if s.calls i = .idle then some (.closeTab id) else none
  | .renew => some (.renewSession id)
  | _ => none

section Mirrors

variable {Text : Type} {env : Env Text} {ctx : Option Prefs} {id active : TabID} {st : UserState}
  {s : TabRuns n}

theorem Mirrors.congr (h : Mirrors id st s) {st' : UserState} {s' : TabRuns n}
    (hst : st'.tabs = st.tabs) (ht : s'.tab = s.tab) (ho : s'.isOpen = s.isOpen) :
    Mirrors id st' s' := by
  rwa [Mirrors, hst, ht, ho]

theorem Mirrors.update (h : Mirrors id st s) {st' : UserState} {s' : TabRuns n} {f : Tab → Tab}
    (hopen : s'.isOpen = s.isOpen) (htab : s.isOpen = true → s'.tab = f s.tab)
    (hnone : st.tabs.lookup id = none → st'.tabs = st.tabs)
    (hsome : ∀ t, st.tabs.lookup id = some t → st'.tabs.lookup id = some (f t)) :
    Mirrors id st' s' := by
  rw [Mirrors] at h
  rw [Mirrors, hopen]
  by_cases ho : s.isOpen = true
  · rw [if_pos ho] at h ⊢
    rw [htab ho]
    exact hsome s.tab h
  · rw [if_neg ho] at h ⊢
    rw [hnone h, h]

theorem Mirrors.touchTab (h : Mirrors id st s) {s' : TabRuns n} {f : Tab → Tab}
    (todo : Tab → List (Act Text)) (hopen : s'.isOpen = s.isOpen)
    (htab : s.isOpen = true → s'.tab = f s.tab) :
    Mirrors id (touchTab ctx st id f todo).state s' := by
  refine h.update hopen htab (fun hid => ?_) (fun t hid => ?_)
  · simp only [Centaurx.touchTab, hid]
  · simp [Centaurx.touchTab, hid, UserState.lookup_putTab]

/-- A step does to the tab what its critical section, if it is one, does to the user's state. -/
theorem Mirrors.step (h : Mirrors id st s) (threads : RunHandle → SessionID) (l : RunLabel n) :
    Mirrors id ((op threads id active s l).elim st fun o => (serve env ctx st o).state)
      (s.step threads l) := by
  cases l with
  | publish i =>
    cases hi : s.calls i with
    | started run =>
      simp only [op, hi, TabRuns.step, publish]
      refine h.update (f := fun t => t.publish run.handle run.cancel) rfl (fun _ => rfl)
        (fun hid => ?_) (fun t hid => ?_)
      · simp [serve, sendPromptPublish, hid]
      · simp [serve, sendPromptPublish, hid, UserState.lookup_putTab]
    | _ => simpa [op, hi, TabRuns.step, publish] using h
  | report handle newThread =>
    cases hrun : s.runs.find? (fun run => run.handle = handle) with
    | none => simpa [op, hrun, TabRuns.step, report] using h
    | some run =>
      simp only [op, hrun, TabRuns.step, report]
      by_cases hsid : reported threads run newThread = []
      · simpa [hsid] using h
      · rw [if_neg hsid]
        refine h.touchTab _ ?_ (fun hopen => ?_)
        · split_ifs <;> rfl
        · by_cases hs : s.tab.sessionID = []
          · rw [if_pos ⟨hsid, hopen, hs⟩]
          · rw [if_neg (fun hc => hs hc.2.2), Tab.setSessionID, if_neg hs]
  | complete handle =>
    simp only [op, TabRuns.step, complete]
    split_ifs with hrun
    · refine h.update (f := fun t => t.complete handle) (lookup_isOpen ..) lookup_tab
        (fun hid => ?_) (fun t hid => ?_)
      · simp [serve, consumeComplete, hid]
      · by_cases hr : t.run = some handle
        · simp [serve, consumeComplete, hid, hr, UserState.lookup_putTab]
        · simp [serve, consumeComplete, hid, hr, Tab.complete]
    · exact h
  | register i =>
    cases hi : s.calls i with
    | shellStarted c =>
      simp only [op, hi, TabRuns.step, register]
      exact h.touchTab _ (lookup_isOpen ..) lookup_tab
    | _ => simpa [op, hi, TabRuns.step, register] using h
  | unregister handle =>
    simp only [op, TabRuns.step, unregister]
    split_ifs
    · exact h.touchTab _ (lookup_isOpen ..) lookup_tab
    · exact h
  | close i =>
    rw [Mirrors] at h
    by_cases hi : s.calls i = .idle <;> by_cases hopen : s.isOpen = true
    all_goals simp_all [op, TabRuns.step, close, serve, closeTab, Mirrors, reject,
      UserState.lookup_deleteTab]
  | renew =>
    rw [Mirrors] at h
    by_cases hopen : s.isOpen = true <;> by_cases hbusy : s.tab.status = .running
    all_goals simp_all [op, TabRuns.step, renew, serve, renewSession, Mirrors, reject,
      UserState.lookup_putTab]
  | check i | stop i =>
    refine h.congr ?_ ?_ ?_
    · simp only [op]
      split_ifs
      · simp only [Option.elim, serve, sendPromptCheck, lookupTab]
        (repeat' split) <;> rfl
      · rfl
    all_goals
      simp only [TabRuns.step, check, stop]
      split_ifs <;> rfl
  | _ =>
    -- no critical section: a call goes on, or a process starts or ends
    refine h.congr rfl ?_ ?_ <;>
      simp only [TabRuns.step, read, start, fail, find, startCommand, stopHandles, closeHandles] <;>
      (repeat' split) <;> rfl

/-- The machine, and the service, which takes the step's critical section if it is one. A label has
the preferences of its session and the active tab. -/
def lockstep (env : Env Text) (threads : RunHandle → SessionID) (id : TabID)
    (p : UserState × TabRuns n) (l : RunLabel n × Option Prefs × TabID) : UserState × TabRuns n :=
  ((op threads id l.2.2 p.2 l.1).elim p.1 fun o => (serve env l.2.1 p.1 o).state,
    p.2.step threads l.1)

/-- **Refinement.** Whatever the interleaving, the service has the tab of the machine in its tab map
as long as it is open, and no such tab after that. -/
theorem machine_mirrors_service (env : Env Text) (threads : RunHandle → SessionID) (id : TabID)
    (st : UserState) (t : Tab) (run : List (RunLabel n × Option Prefs × TabID)) :
    let p := Runs.exec (lockstep env threads id) (st.putTab id t.restarted, init t) run
    p.1.tabs.lookup id = if p.2.isOpen then some p.2.tab else none := by
  refine Runs.exec_invariant (I := fun p : UserState × TabRuns n => Mirrors id p.1 p.2)
    (fun _ l h => h.step threads l.1) ?_ run
  simp [Mirrors, init, UserState.lookup_putTab]

end Mirrors

end TabRuns

end Centaurx
