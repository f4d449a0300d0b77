import Centaurx.Core.BufferLife
import Centaurx.HttpApi.Reconnect
import Centaurx.HttpApi.Snapshot
import Centaurx.HttpApi.TabLists
import Centaurx.Lib.Maps

namespace Centaurx.AndroidRefresh
open Go Runs Newest TabLists List Function

def maxLines : ℕ := 2000

section Client
variable {α : Type}

/-- The part of `UiState` that events and the refresh write, and the tab of the last login. -/
structure ViewModel (α : Type) where
  tabs : List AndroidTab := []
  activeTabId : Option TabID := none
  buffers : TabID → Option (List α) := fun _ => none
  systemLines : List α := []
  theme : Option GoString := none
  lastActiveTabId : Option TabID := none

structure Snapshot (α : Type) where
  tabs : List AndroidTab
  activeTab : Option TabID
  buffers : TabID → Option (List α)
  system : List α
  theme : Option GoString

inductive AppEvent (α : Type)
  | snapshot (snapshot : Snapshot α)
  | tab (type : TabEventType) (tab : AndroidTab) (theme : Option GoString)
  | output (tabId : TabID) (lines : List α)
  | system (lines : List α)

/-- `takeLast`, when there are too many lines. -/
def trimmed (merged : List α) : List α :=
  if merged.length > maxLines then merged.rtake maxLines else merged

def resolveActiveTab (lastActiveTabId current candidate : Option TabID) (tabs : List AndroidTab) :
    Option TabID :=
  let ids := tabs.map AndroidTab.id
  let known := fun id => !Client.android.ignores id && decide (id ∈ ids)
  ((current <|> lastActiveTabId).filter known <|> candidate.filter known) <|> ids.head?

def applySnapshot (s : ViewModel α) (snapshot : Snapshot α) : ViewModel α :=
  { s with
    tabs := snapshot.tabs
    activeTabId :=
      resolveActiveTab s.lastActiveTabId s.activeTabId snapshot.activeTab snapshot.tabs
    buffers := snapshot.buffers
    systemLines := snapshot.system
    theme := snapshot.theme }

def applyTabEvent (s : ViewModel α) (type : TabEventType) (tab : AndroidTab)
    (theme : Option GoString) : ViewModel α :=
  let tabs := Android.applyTabEvent s.tabs type tab
  let active := if type = .closed ∧ s.activeTabId = some tab.id then none else s.activeTabId
  { s with
    tabs := tabs
    activeTabId := active.filter (· ∈ tabs.map AndroidTab.id) <|> (tabs.map AndroidTab.id).head?
    buffers := if type = .closed then update s.buffers tab.id none else s.buffers
    theme := theme <|> s.theme }

def appendLines (s : ViewModel α) (tabId : TabID) (lines : List α) : ViewModel α :=
  if Client.android.ignores tabId || lines.isEmpty then s
  else
    { s with
      buffers := update s.buffers tabId
        (some (trimmed ((s.buffers tabId).getD [] ++ lines))) }

def appendSystem (s : ViewModel α) (lines : List α) : ViewModel α :=
  if lines.isEmpty then s else { s with systemLines := trimmed (s.systemLines ++ lines) }

def handleStreamEvent (s : ViewModel α) : AppEvent α → ViewModel α
  | .snapshot snapshot => applySnapshot s snapshot
  | .tab type tab theme => applyTabEvent s type tab theme
  | .output tabId lines => appendLines s tabId lines
  | .system lines => appendSystem s lines

end Client

/-- A line with its number among all lines of its tab. No code reads the number. -/
abbrev Line := GoString × ℕ

/-- What the service has for the user. -/
structure Server where
  tabs : List AndroidTab := []
  buffers : TabID → Buffer Line
  system : Buffer Line
  /-- The tabs that were closed. -/
  closed : List TabID := []
  /-- All lines that were appended. -/
  history : TabID → List GoString := fun _ => []
  systemHistory : List GoString := []
  /-- How many calls there were. -/
  clock : ℕ := 0

inductive ServerCall
  | createTab (tab : AndroidTab)
  /-- Any call that changes a tab and reports it. -/
  | changeTab (type : TabEventType) (tab : AndroidTab) (theme : Option GoString)
  | closeTab (id : TabID)
  | appendOutput (id : TabID) (texts : List GoString)
  | appendSystemOutput (texts : List GoString)
  | scrollBuffer (id : TabID) (offset : ℕ)

namespace Server

def ids (s : Server) : List TabID := s.tabs.map AndroidTab.id

/-- The server after a call, and the events that it publishes. Ids are not used again. -/
def call (s : Server) : ServerCall → Server × List (AppEvent Line)
  | .createTab tab =>
    if tab.id ∈ s.ids ∨ tab.id ∈ s.closed then (s, [])
    else ({ s with tabs := s.tabs ++ [tab] }, [.tab .created tab none])
  | .changeTab type tab theme =>
    if tab.id ∈ s.ids ∧ type ≠ .closed then
      ({ s with tabs := place AndroidTab.id s.tabs tab }, [.tab type tab theme])
    else (s, [])
  | .closeTab id =>
    match s.tabs.find? (·.id = id) with
    | none => (s, [])
    | some tab =>
      ({ s with tabs := s.tabs.filter (·.id ≠ id), closed := s.closed ++ [id] },
        [.tab .closed tab none])
  | .appendOutput id texts =>
    if id ∈ s.ids ∧ texts ≠ [] then
      let lines := texts.zipIdx (s.history id).length
      ({ s with
          buffers := update s.buffers id ((s.buffers id).append lines)
          history := update s.history id (s.history id ++ texts) },
        [.output id lines])
    else (s, [])
  | .appendSystemOutput texts =>
    if texts ≠ [] then
      let lines := texts.zipIdx s.systemHistory.length
      ({ s with
          system := s.system.append lines
          systemHistory := s.systemHistory ++ texts },
        [.system lines])
    else (s, [])
  | .scrollBuffer id offset =>
    ({ s with
        buffers := update s.buffers id { s.buffers id with scrollOffset := offset } }, [])

/-- `appendOutput` fills the buffers as `emit` does, and publishes the same lines. -/
theorem call_emit (cfg : StreamConfig) (log : EventLog Line) {s : Server} {id : TabID}
    (hid : id ∈ s.ids) {texts : List GoString} (hne : texts ≠ []) :
    ∃ lines, (s.call (.appendOutput id texts)).2 = [.output id lines] ∧
      let emitted := Centaurx.Server.emit cfg ⟨s.buffers, log⟩ (.output id lines)
      emitted.1.buffers = (s.call (.appendOutput id texts)).1.buffers ∧
        emitted.2.map Event.body = [.output id lines] := by
  simp [call, Server.emit, hid, hne, EventLog.stamp]

end Server

/-- The server has the tabs, lines and offsets that the user's state in the service has. -/
structure Server.Serves (cap : Int) (st : UserState) (s : Server) : Prop where
  ids : ∀ id, id ∈ s.ids ↔ id ∈ st.tabs
  closed : ∀ id ∈ st.tabs, id ∉ s.closed
  buffers : ∀ id, id ∉ s.closed → (s.buffers id).map Prod.fst =
    ((st.tabs.lookup id).map Tab.buffer).getD { maxLines := cap }
  system : s.system.map Prod.fst = st.system

namespace Server.Serves
variable {Text : Type} {env : Env Text} {st : UserState} {s : Server}
  (h : s.Serves env.cfg.bufferMaxLines st)
include h

theorem put {id : TabID} (hid : id ∈ st.tabs) {t : Tab} {b : Buffer Line}
    (hb : b.map Prod.fst = t.buffer) (history : TabID → List GoString) :
    Serves env.cfg.bufferMaxLines (st.putTab id t)
      { s with buffers := update s.buffers id b, history := history } := by
  have hmem : ∀ id', id' ∈ st.tabs.insert id t ↔ id' ∈ st.tabs := fun id' => by
    rw [Finmap.mem_insert]
    exact or_iff_right_of_imp fun heq => heq ▸ hid
  refine ⟨fun id' => (h.ids id').trans (hmem id').symm, fun id' => h.closed id' ∘ (hmem id').mp,
    fun id' hclosed => ?_, h.system⟩
  dsimp only
  rw [UserState.putTab, Maps.lookup_insert_eq, update_apply]
  split_ifs
  · exact hb
  · exact h.buffers id' hclosed

theorem call_put {t t' : Tab} {id : TabID} (hid : st.tabs.lookup id = some t)
    (ht : t.Ok env.cfg id) (hstep : t.Step t') :
    ∃ call, (s.call call).1.Serves env.cfg.bufferMaxLines (st.putTab id t') := by
  have hmem := Finmap.mem_of_lookup_eq_some hid
  have hold := h.buffers id (h.closed id hmem)
  rw [hid] at hold
  have hoffset := (hstep.ok ht).buffer.offset_nonneg
  have hscroll : t'.buffer = { t.buffer with scrollOffset := t'.buffer.scrollOffset } →
      ∃ call, (s.call call).1.Serves env.cfg.bufferMaxLines (st.putTab id t') := fun heq => by
    refine ⟨.scrollBuffer id t'.buffer.scrollOffset.toNat, h.put hmem ?_ s.history⟩
    rw [Int.toNat_of_nonneg hoffset, heq]
    exact congrArg (fun b : Buffer => { b with scrollOffset := t'.buffer.scrollOffset }) hold
  cases hstep with
  | append lines =>
    by_cases hne : lines = []
    · subst hne
      exact hscroll rfl
    · refine ⟨.appendOutput id lines, ?_⟩
      rw [Server.call, if_pos ⟨(h.ids id).mpr hmem, hne⟩]
      refine h.put hmem ?_ _
      rw [Buffer.append_map, zipIdx_map_fst, hold]
      rfl
  | session sid =>
    refine hscroll ?_
    rw [Tab.setSessionID]
    split_ifs <;> rfl
  | complete handle =>
    refine hscroll ?_
    rw [Tab.complete]
    split_ifs <;> rfl
  | _ => exact hscroll rfl

/-- Each critical section of the service is at most one call of the server. -/
theorem serve (hst : st.Ok env.cfg) (ctx : Option Prefs) {op : Op}
    (hnew : ∀ id ∈ op.newID, id ∉ st.tabs ∧ id ∉ s.closed) :
    s.Serves env.cfg.bufferMaxLines (Centaurx.serve env ctx st op).state ∨
      ∃ call, (s.call call).1.Serves env.cfg.bufferMaxLines
        (Centaurx.serve env ctx st op).state := by
  have heffect := serve_effect env ctx st op
  generalize (Centaurx.serve env ctx st op).state = st' at heffect ⊢
  cases heffect with
  | stay | missing => exact .inl h
  | theme => exact .inl ⟨h.ids, h.closed, h.buffers, h.system⟩
  | put _ hid ht => exact .inr (h.call_put hid (hst.tab _ _ hid) ht)
  | @system _ lines =>
    by_cases hlines : lines = []
    · subst hlines
      exact .inl h
    · refine .inr ⟨.appendSystemOutput lines, ?_⟩
      rw [Server.call, if_pos hlines]
      refine ⟨h.ids, h.closed, h.buffers, ?_⟩
      rw [Buffer.append_map, zipIdx_map_fst, h.system]
  | @add rand repoName tabName =>
    obtain ⟨htabs, hclosed⟩ := hnew _ rfl
    refine .inr ⟨.createTab ⟨newID rand, none⟩, ?_⟩
    rw [Server.call, if_neg (not_or.mpr ⟨(h.ids _).not.mpr htabs, hclosed⟩)]
    refine ⟨fun id => ?_, fun id hid => ?_, fun id hid => (h.buffers id hid).trans ?_, h.system⟩
    · simp [Server.ids, UserState.addTab, Tab.new, ← h.ids, or_comm]
    · obtain rfl | hid := Finmap.mem_insert.mp hid
      · exact hclosed
      · exact h.closed id hid
    · rw [UserState.addTab, Maps.lookup_insert_eq]
      split_ifs with heq
      · subst heq
        simp [Tab.new, Finmap.lookup_eq_none.mpr htabs, Buffer.newWithMaxLines, Buffer.new,
          env.cfg.bufferMaxLines_pos]
      · rfl
  | @delete id hid =>
    refine .inr ⟨.closeTab id, ?_⟩
    rw [Server.call]
    split
    · next hnone =>
      obtain ⟨tab, htab, rfl⟩ := mem_map.mp ((h.ids id).mpr hid)
      simpa using find?_eq_none.mp hnone tab htab
    · refine ⟨fun id' => ?_, fun id' hid' => ?_, fun id' hclosed => ?_, h.system⟩
      · rw [UserState.deleteTab, Finmap.mem_erase, ← h.ids]
        simp only [Server.ids, mem_map, mem_filter]
        grind
      · obtain ⟨hne, hid'⟩ := Finmap.mem_erase.mp hid'
        simpa [hne] using h.closed id' hid'
      · obtain ⟨hclosed, hne⟩ := not_or.mp (mt mem_append.mpr hclosed)
        rw [UserState.deleteTab, Finmap.lookup_erase_ne (by simpa using hne)]
        exact h.buffers id' hclosed

end Server.Serves

/-- The answer to the first request, and the number of calls before it. -/
structure Listed where
  tabs : List AndroidTab
  candidate : Option TabID
  theme : Option GoString
  clock : ℕ

/-- The variables of the refresh after it. -/
structure Copied where
  listed : Listed
  active : Option TabID
  buffers : TabID → Option (List Line)

/-- The answer to the second request, with the number of calls and of lines of the tab before it. -/
structure Fetched where
  id : TabID
  lines : List Line
  clock : ℕ
  total : ℕ

/-- Where the refresh stands. A request is under way until it is served, and then its answer is. -/
inductive Refresh
  | idle
  | listing
  | listed (r : Listed)
  | fetching (c : Copied) (id : TabID)
  | fetched (c : Copied) (f : Fetched)
  | reading (c : Copied) (f : Option Fetched)
  | systemRead (c : Copied) (f : Option Fetched) (systemLines : List Line)

/-- An event on its way to the client, with the number of calls before its own one. -/
structure Sent where
  event : AppEvent Line
  clock : ℕ

structure System where
  server : Server
  underWay : List Sent := []
  client : ViewModel Line := {}
  refresh : Refresh := .idle
  /-- The lines that output events have brought since the last snapshot. -/
  streamed : TabID → List Line := fun _ => []
  /-- The tabs that events have opened during the refresh. -/
  opened : List TabID := []
  /-- The tabs that events have closed during the refresh. -/
  shut : List TabID := []

inductive RefreshStep
  | call (call : ServerCall)
  /-- The client handles one of the events on their way; the hub may have sent them in any order. -/
  | handle (i : ℕ)
  /-- The stream connects again and begins with a snapshot. -/
  | snapshot (snapshot : Snapshot Line)
  | begin
  /-- The server answers the request, with the active tab of the session and the theme. -/
  | serve (candidate : Option TabID) (theme : Option GoString)
  | receive
  /-- The request fails, which ends the refresh. -/
  | fail

namespace System

def handleEvent (s : System) (event : AppEvent Line) : System :=
  { s with
    client := handleStreamEvent s.client event
    streamed :=
      match event with
      | .snapshot _ => fun _ => []
      | .tab type tab _ =>
        if type = .closed then update s.streamed tab.id [] else s.streamed
      | .output id lines =>
        if Client.android.ignores id || lines.isEmpty then s.streamed
        else update s.streamed id (s.streamed id ++ lines)
      | .system _ => s.streamed
    opened :=
      match event with
      | .tab type tab _ =>
        if type ≠ .closed ∧ tab.id ∉ s.client.tabs.map AndroidTab.id then s.opened ++ [tab.id]
        else s.opened
      | _ => s.opened
    shut :=
      match event with
      | .tab type tab _ => if type = .closed then s.shut ++ [tab.id] else s.shut
      | _ => s.shut }

/-- The server answers the request that is under way. -/
def serve (s : System) (candidate : Option TabID) (theme : Option GoString) : System :=
  match s.refresh with
  | .listing => { s with refresh := .listed ⟨s.server.tabs, candidate, theme, s.server.clock⟩ }
  | .fetching c id =>
    if id ∈ s.server.ids then
      let answer := (s.server.buffers id).snapshot maxLines
      { s with
        refresh := .fetched c ⟨id, answer.1.lines, s.server.clock, (s.server.history id).length⟩
        server := { s.server with buffers := update s.server.buffers id answer.2 } }
    -- the tab is not found, and the exception ends the refresh
    else { s with refresh := .idle }
  | .reading c f =>
    let answer := s.server.system.snapshot maxLines
    { s with
      refresh := .systemRead c f answer.1.lines
      server := { s.server with system := answer.2 } }
  | _ => s

/-- The client goes on with the answer until it is suspended again. -/
def receive (s : System) : System :=
  match s.refresh with
  | .listed r =>
    let active := resolveActiveTab s.client.lastActiveTabId s.client.activeTabId r.candidate r.tabs
    let c : Copied := ⟨r, active, s.client.buffers⟩
    match active.filter (!Client.android.ignores ·) with
    | none => { s with refresh := .reading c none }
    | some id => { s with refresh := .fetching c id }
  | .fetched c f =>
    { s with
      refresh := .reading { c with buffers := update c.buffers f.id (some f.lines) } f }
  | .systemRead c _ systemLines =>
    { s with
      refresh := .idle
      client :=
        { s.client with
          tabs := c.listed.tabs
          activeTabId := c.active
          buffers := c.buffers
          systemLines := systemLines
          theme := c.listed.theme <|> s.client.theme } }
  | _ => s

def step (s : System) : RefreshStep → System
  | .call call =>
    let (server, events) := s.server.call call
    { s with
      server := { server with clock := s.server.clock + 1 }
      underWay := s.underWay ++ events.map (⟨·, s.server.clock⟩) }
  | .handle i =>
    match s.underWay[i]? with
    | none => s
    | some sent => { s.handleEvent sent.event with underWay := s.underWay.eraseIdx i }
  | .snapshot snapshot => s.handleEvent (.snapshot snapshot)
  | .begin =>
    match s.refresh with
    | .idle => { s with refresh := .listing, opened := [], shut := [] }
    | _ => s
  | .serve candidate theme => s.serve candidate theme
  | .receive => s.receive
  | .fail => { s with refresh := .idle }

/-- Nobody has tabs yet, and the service keeps so many lines of each. -/
def start (bufferMaxLines : Int) : System where
  server :=
    { buffers := fun _ => { maxLines := Buffer.capOf bufferMaxLines }
      system := { maxLines := Buffer.capOf bufferMaxLines } }

end System

end Centaurx.AndroidRefresh
