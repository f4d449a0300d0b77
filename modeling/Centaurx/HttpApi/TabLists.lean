import Centaurx.HttpApi.Hub
import Centaurx.System.Registry

namespace Centaurx.TabLists
open Go Runs List

/-- The part of a `TabSnapshot` that decides what the clients do with it. -/
structure WireTab where
  id : TabID
  status : GoString
  deriving DecidableEq

def statusText : TabStatus → GoString
  | .idle => lit "idle"
  | .running => lit "running"
  | .stopped => lit "stopped"

/-- How `OnTabEvent` sends a view; a missing one is the zero value. -/
def wireTab : Option TabView → WireTab
  | some view => ⟨view.id, statusText view.status⟩
  | none => ⟨[], []⟩

/-- Both clients replace a tab that they know, and append one that they do not. -/
def place {α : Type} (id : α → TabID) (tabs : List α) (tab : α) : List α :=
  match tabs.findIdx? (fun t => id t = id tab) with
  | some idx => tabs.set idx tab
  | none => tabs ++ [tab]

/-- The web client. -/
def Web.applyTabEvent (tabs : List WireTab) (type : TabEventType) (tab : WireTab) : List WireTab :=
  if tab.id = [] then tabs
  else if type = .closed then tabs.filter fun t => t.id ≠ tab.id
  else place WireTab.id tabs tab

/-- A tab of the Android client. -/
structure AndroidTab where
  id : TabID
  status : Option TabStatus
  deriving DecidableEq

/-- The JSON library of the Android client decodes the names of `TabStatus`. It does not coerce
values, so any other name makes the decoding fail. -/
structure StatusDecoder where
  decode : GoString → Option (Option TabStatus)
  known : ∀ status, decode (statusText status) = some (some status)
  unknown : ∀ text, (∀ status, statusText status ≠ text) → decode text = none

def Android.decodeTab (decoder : StatusDecoder) (tab : WireTab) : Option AndroidTab :=
  (decoder.decode tab.status).map fun status => ⟨tab.id, status⟩

def Android.applyTabEvent (tabs : List AndroidTab) (type : TabEventType) (tab : AndroidTab) :
    List AndroidTab :=
  if type = .closed then
    match tabs.findIdx? (fun t => t.id = tab.id) with
    | some idx => tabs.eraseIdx idx
    | none => tabs
  else place AndroidTab.id tabs tab

/-- What the Android client does with an event of the stream. -/
def Android.onTabEvent (decoder : StatusDecoder) (tabs : List AndroidTab) (type : TabEventType)
    (tab : WireTab) : List AndroidTab :=
  match Android.decodeTab decoder tab with
  | some tab => Android.applyTabEvent tabs type tab
  -- `StreamClient` drops an event that does not decode
  | none => tabs

/-- A call of the service, or a section of the goroutine that consumes the events of a run. -/
inductive ServiceCall
  | single (op : Op)
  /-- `SendPrompt`, the lines that it appends, and the run if it has been started. -/
  | sendPrompt (id : TabID) (lines : List (List GoString))
      (started : Option (RunHandle × CancelFunc))

/-- A user of the service, the sessions, and the tabs of two clients. -/
structure Viewed where
  user : UserState
  sessions : ℕ → Option Prefs
  web : List WireTab
  android : List AndroidTab

/-- The tab events that a section leaves to emit. -/
def tabEvents {Text : Type} (todo : List (Act Text)) : List (TabEventType × WireTab) :=
  todo.filterMap fun act => match act with
    | .emit (.tab type view _ _) => some (type, wireTab view)
    | _ => none

/-- The ids of `ListTabs`. -/
def listTabs (st : UserState) : List TabID := st.bar.map Tab.id

section Calls
variable {Text : Type} (env : Env Text) (decoder : StatusDecoder)

/-- A section of a call from a session, with its events. -/
def runSection (session : ℕ) (s : Viewed) (op : Op) : Viewed :=
  if op.admitted env.uni then
    let out := serve env (s.sessions session) s.user op
    { user := out.state
      sessions := Function.update s.sessions session out.prefs
      web := (tabEvents out.todo).foldl (fun tabs e => Web.applyTabEvent tabs e.1 e.2) s.web
      android := (tabEvents out.todo).foldl
        (fun tabs e => Android.onTabEvent decoder tabs e.1 e.2) s.android }
  else s

/-- The sections of a call, from the state that it finds. -/
def sections (s : Viewed) (session : ℕ) : ServiceCall → List Op
  | .single (.sendPromptCheck _) | .single (.sendPromptPublish ..) => []
  | .single op => [op]
  | .sendPrompt id lines started =>
    -- the later sections are reached only from a tab that the check has found idle
    .sendPromptCheck id ::
      match s.user.tabs.lookup id with
      | none => []
      | some t =>
        if t.status = .running then []
        else
          let active := (activeTabFromContext env.firstKey (s.sessions session) s.user).2
          lines.map (.appendLines id) ++ match started with
            | none => []
            | some (handle, cancel) => [.sendPromptPublish id active handle cancel t]

def call (s : Viewed) (c : ℕ × ServiceCall) : Viewed :=
  (sections env s c.1 c.2).foldl (runSection env decoder c.1) s

end Calls

/-- A client has got the tabs of the snapshot. -/
def Viewed.start (st : UserState) (sessions : ℕ → Option Prefs) : Viewed where
  user := st
  sessions := sessions
  web := st.bar.map fun t => wireTab (some (t.snapshot false))
  android := st.bar.map fun t => ⟨t.id, some t.status⟩

/-- The id of a new tab is not in use. -/
def DrawsUnused (s : Viewed) (c : ℕ × ServiceCall) : Prop :=
  match c.2 with
  | .single op => ∀ id ∈ op.newID, id ∉ s.user.order
  | .sendPrompt .. => True

instance (s : Viewed) : (c : ℕ × ServiceCall) → Decidable (DrawsUnused s c)
  | (_, .single _) => inferInstanceAs (Decidable (∀ _, _))
  | (_, .sendPrompt ..) => isTrue trivial

section Place
variable {α : Type} {id : α → TabID}

theorem place_ids (tabs : List α) (tab : α) :
    (place id tabs tab).map id =
      if id tab ∈ tabs.map id then tabs.map id else tabs.map id ++ [id tab] := by
  rw [place]
  cases h : tabs.findIdx? (fun t => id t = id tab) with
  | none =>
    have hnone : ∀ t ∈ tabs, id t ≠ id tab := by simpa [findIdx?_eq_none_iff] using h
    have hmem : id tab ∉ tabs.map id := by
      simpa [mem_map] using hnone
    simp [hmem]
  | some idx =>
    obtain ⟨hlt, hidx, -⟩ := findIdx?_eq_some_iff_getElem.mp h
    have hsame : id (tabs[idx]) = id tab := by simpa using hidx
    have hmem : id tab ∈ tabs.map id := by
      rw [← hsame]
      exact mem_map_of_mem (getElem_mem hlt)
    rw [if_pos hmem, map_set, ← hsame, ← getElem_map id (h := by simpa using hlt),
      set_getElem_self]

end Place

theorem decodeTab_some (decoder : StatusDecoder) (view : TabView) :
    Android.decodeTab decoder (wireTab (some view)) = some ⟨view.id, some view.status⟩ := by
  simp [Android.decodeTab, wireTab, decoder.known]

theorem decodeTab_none (decoder : StatusDecoder) :
    Android.decodeTab decoder (wireTab none) = none := by
  have hunknown : ∀ status, statusText status ≠ [] := by
    intro status
    cases status <;> decide
  simp [Android.decodeTab, wireTab, decoder.unknown [] hunknown]

theorem applyTabEvent_closed_ids (tabs : List AndroidTab) (tab : AndroidTab) :
    (Android.applyTabEvent tabs .closed tab).map AndroidTab.id =
      (tabs.map AndroidTab.id).erase tab.id := by
  simp only [Android.applyTabEvent, if_true]
  induction tabs with
  | nil => rfl
  | cons t tabs ih =>
    rw [findIdx?_cons]
    by_cases ht : t.id = tab.id
    · simp [ht]
    · have hne : ¬(t.id == tab.id) = true := by simpa using ht
      rw [map_cons, erase_cons_tail hne, ← ih]
      simp only [ht, decide_false, Bool.false_eq_true, if_false]
      cases tabs.findIdx? fun t => t.id = tab.id <;> rfl

/-- The order of the tabs after a section, and the tab events of the section. -/
inductive TabChange (st : UserState) : List TabID → List (TabEventType × WireTab) → Prop
  | silent : TabChange st st.order []
  | created (view : TabView) :
      TabChange st (st.order ++ [view.id]) [(.created, wireTab (some view))]
  | closed (view : TabView) (h : view.id ∈ st.tabs) :
      TabChange st (st.order.erase view.id) [(.closed, wireTab (some view))]
  | changed (type : TabEventType) (view : TabView) (htype : type ≠ .closed)
      (h : view.id ∈ st.tabs) : TabChange st st.order [(type, wireTab (some view))]
  | noTab : TabChange st st.order [(.updated, wireTab none)]

/-- The publish section finds the tab that the check section found. -/
def Finds (st : UserState) : Op → Prop
  | .sendPromptPublish id _ _ _ _ => id ∈ st.tabs
  | _ => True

section Inversion
variable {Text : Type} {env : Env Text} {ctx : Option Prefs} {st : UserState}

theorem tabEvents_emitOutput (id : TabID) (lines : List GoString) (rest : List (Act Text)) :
    tabEvents (emitOutput id lines ++ rest) = tabEvents rest := by
  rw [emitOutput]
  split_ifs <;> rfl

theorem tabChange_touchTab {id : TabID} {f : Tab → Tab} {todo : Tab → List (Act Text)}
    (htodo : ∀ t, tabEvents (todo t) = []) :
    TabChange st (touchTab ctx st id f todo).state.order
      (tabEvents (touchTab ctx st id f todo).todo) := by
  simp only [touchTab]
  split
  · exact .silent
  · next t hid =>
    simp only [htodo]
    exact .silent

theorem tabChange_of_lookup (hids : ∀ id t, st.tabs.lookup id = some t → t.id = id)
    {id : TabID} {t t' : Tab} (hid : st.tabs.lookup id = some t) (ht : t'.id = t.id)
    {type : TabEventType} (htype : type ≠ .closed) (active : Bool) :
    TabChange st st.order [(type, wireTab (some (t'.snapshot active)))] := by
  refine .changed type _ htype ?_
  simp only [Tab.snapshot, ht, hids id t hid]
  exact Finmap.mem_of_lookup_eq_some hid

theorem serve_tabChange (hids : ∀ id t, st.tabs.lookup id = some t → t.id = id) {op : Op}
    (hfinds : Finds st op) :
    TabChange st (serve env ctx st op).state.order (tabEvents (serve env ctx st op).todo) := by
  cases op with
  | createTab rand repoName tabName =>
    exact TabChange.created ((Tab.new env.cfg (newID rand) repoName tabName).snapshot _)
  | closeTab id =>
    simp only [serve, closeTab]
    split
    · exact .silent
    · next t hid =>
      have hkey := hids id t hid
      have hmem : (t.snapshot false).id ∈ st.tabs := by
        simp only [Tab.snapshot, hkey]
        exact Finmap.mem_of_lookup_eq_some hid
      have hclosed : TabChange st _ _ := .closed (t.snapshot false) hmem
      simp only [Tab.snapshot, hkey, ← removeTabID_eq_erase] at hclosed
      simpa [tabEvents, UserState.deleteTab, Tab.snapshot, hkey] using hclosed
  | activateTab | switchRepo =>
    simp only [serve, activateTab, switchRepo]
    split
    · exact .silent
    · next t hid =>
      refine tabChange_of_lookup hids hid ?_ (by simp) _
      rfl
  | setModel id model effort =>
    simp only [serve, setModel]
    split
    · exact .silent
    · next t hid =>
      split
      · exact .silent
      · split
        · refine tabChange_of_lookup hids hid ?_ (by simp) _
          rfl
        · split
          · exact .silent
          · refine tabChange_of_lookup hids hid ?_ (by simp) _
            rfl
  | renewSession id =>
    simp only [serve, renewSession]
    split
    · exact .silent
    · next t hid =>
      split
      · exact .silent
      · refine tabChange_of_lookup hids hid ?_ (by simp) _
        rfl
  | setTheme theme =>
    simp only [serve, setTheme]
    generalize (activeTabFromContext env.firstKey ctx { st with theme := theme }).2 = active
    by_cases hactive : active = []
    · simp only [hactive, if_true]
      exact .noTab
    · simp only [hactive, if_false]
      cases hl : st.tabs.lookup active with
      | none => exact .noTab
      | some t => exact tabChange_of_lookup hids hl rfl (by simp) _
  | getBuffer | scrollBuffer | stopSession | getHistory | getTabUsage =>
    simp only [serve, getBuffer, scrollBuffer, lookupTab]
    split <;> exact .silent
  | appendOutput id lines =>
    simp only [serve, appendOutput]
    split
    · exact .silent
    · simp only [tabEvents_emitOutput]
      exact .silent
  | appendHistory id entry =>
    simp only [serve, appendHistory]
    split
    · exact .silent
    · split_ifs <;> exact .silent
  | sendPromptCheck id =>
    simp only [serve, sendPromptCheck]
    split
    · exact .silent
    · split <;> exact .silent
  | sendPromptPublish id active handle cancel closed =>
    simp only [serve, sendPromptPublish]
    split
    · next hid => exact absurd hfinds (Finmap.lookup_eq_none.mp hid)
    · next t hid =>
      refine tabChange_of_lookup hids hid ?_ (by simp) _
      rfl
  | consumeComplete id handle =>
    simp only [serve, consumeComplete]
    split
    · exact .silent
    · next t hid =>
      split
      · refine tabChange_of_lookup hids hid ?_ (by simp) _
        simp only [Tab.complete]
        split <;> rfl
      · exact .silent
  | registerCommand | unregisterCommand | consumeUsage => exact tabChange_touchTab fun _ => rfl
  | setSessionID id sid =>
    refine tabChange_touchTab fun t => ?_
    split_ifs <;> rfl
  | appendLines id lines => exact tabChange_touchTab fun _ => tabEvents_emitOutput _ _ _
  | listTabs | getSystemBuffer | appendSystemOutput | appendSystemLines => exact .silent

end Inversion

section Follow
variable {st : UserState} {order : List TabID} {events : List (TabEventType × WireTab)}

variable {tabs : List WireTab}

theorem applyTabEvent_ids {tab : WireTab} (hid : tab.id ≠ []) {type : TabEventType}
    (htype : type ≠ .closed) :
    (Web.applyTabEvent tabs type tab).map WireTab.id =
      if tab.id ∈ tabs.map WireTab.id then tabs.map WireTab.id
      else tabs.map WireTab.id ++ [tab.id] := by
  rw [Web.applyTabEvent, if_neg hid, if_neg htype, place_ids]

theorem onTabEvent_ids {decoder : StatusDecoder} {tabs : List AndroidTab} {view : TabView}
    {type : TabEventType} (htype : type ≠ .closed) :
    (Android.onTabEvent decoder tabs type (wireTab (some view))).map AndroidTab.id =
      if view.id ∈ tabs.map AndroidTab.id then tabs.map AndroidTab.id
      else tabs.map AndroidTab.id ++ [view.id] := by
  rw [Android.onTabEvent, decodeTab_some]
  simp only [Android.applyTabEvent, if_neg htype, place_ids]

theorem map_filter_ids {id : TabID} (hnodup : (tabs.map WireTab.id).Nodup) :
    (tabs.filter fun t => t.id ≠ id).map WireTab.id = (tabs.map WireTab.id).erase id := by
  rw [hnodup.erase_eq_filter, filter_map]
  congr 1
  apply filter_congr
  intro t _
  by_cases ht : t.id = id <;> simp [ht]

theorem notMem_of_nodup_append {ids : List TabID} {id : TabID} (h : (ids ++ [id]).Nodup) :
    id ∉ ids := by
  rw [← concat_eq_append, nodup_concat] at h
  exact h.1

theorem TabChange.web (h : TabChange st order events) (hst : st.Registered) (hnamed : [] ∉ st.order)
    (hnodup : order.Nodup) (hnamed' : [] ∉ order) (htabs : tabs.map WireTab.id = st.order) :
    (events.foldl (fun tabs e => Web.applyTabEvent tabs e.1 e.2) tabs).map WireTab.id = order := by
  have hne : ∀ {id}, id ∈ st.tabs → id ≠ [] := fun hid he =>
    hnamed (he ▸ (hst.mem_iff _).mpr hid)
  cases h with
  | silent => exact htabs
  | created view =>
    have hid : view.id ≠ [] := fun he => hnamed' (by simp [he])
    have hnew : (wireTab (some view)).id ∉ st.order := notMem_of_nodup_append hnodup
    rw [foldl_cons, foldl_nil, applyTabEvent_ids hid (by simp), htabs, if_neg hnew]
    rfl
  | closed view hid =>
    have hwire : (wireTab (some view)).id ≠ [] := hne hid
    rw [foldl_cons, foldl_nil, Web.applyTabEvent, if_neg hwire, if_pos rfl,
      map_filter_ids (htabs ▸ hst.nodup), htabs]
    rfl
  | changed type view htype hid =>
    have hmem : (wireTab (some view)).id ∈ st.order := (hst.mem_iff _).mpr hid
    rw [foldl_cons, foldl_nil, applyTabEvent_ids (hne hid) htype, htabs, if_pos hmem]
  | noTab => exact htabs

theorem TabChange.android (h : TabChange st order events) (hst : st.Registered)
    (hnodup : order.Nodup) {tabs : List AndroidTab}
    (htabs : tabs.map AndroidTab.id = st.order) (decoder : StatusDecoder) :
    (events.foldl (fun tabs e => Android.onTabEvent decoder tabs e.1 e.2) tabs).map AndroidTab.id =
      order := by
  cases h with
  | silent => exact htabs
  | created view =>
    rw [foldl_cons, foldl_nil, onTabEvent_ids (by simp), htabs,
      if_neg (notMem_of_nodup_append hnodup)]
  | closed view hid =>
    rw [foldl_cons, foldl_nil, Android.onTabEvent, decodeTab_some]
    simp only [applyTabEvent_closed_ids, htabs]
  | changed type view htype hid =>
    have hmem : view.id ∈ st.order := (hst.mem_iff _).mpr hid
    rw [foldl_cons, foldl_nil, onTabEvent_ids htype, htabs, if_pos hmem]
  | noTab =>
    -- the reducer would append the zero tab, but the decoder has dropped it
    rw [foldl_cons, foldl_nil, Android.onTabEvent, decodeTab_none]
    exact htabs

end Follow

section Runs
variable {Text : Type} {env : Env Text} {decoder : StatusDecoder}

/-- Both clients have the tabs of the user, who has no tab with an empty id. -/
structure Tracks (env : Env Text) (s : Viewed) : Prop where
  ok : s.user.Ok env.cfg
  named : [] ∉ s.user.order
  web : s.web.map WireTab.id = s.user.order
  android : s.android.map AndroidTab.id = s.user.order

variable {s : Viewed}

theorem Tracks.runSection (h : Tracks env s) (session : ℕ) {op : Op} (hfinds : Finds s.user op)
    (hfresh : ∀ id ∈ op.newID, id ∉ s.user.order) :
    Tracks env (runSection env decoder session s op) := by
  rw [TabLists.runSection]
  split_ifs with hop
  · have hchange : TabChange s.user (serve env (s.sessions session) s.user op).state.order
        (tabEvents (serve env (s.sessions session) s.user op).todo) :=
      serve_tabChange (fun id t ht => (h.ok.tab id t ht).id_eq) hfinds
    have hok : (serve env (s.sessions session) s.user op).state.Ok env.cfg :=
      (serve_step env _ _ hop).ok h.ok fun id ha => hfresh id (serve_adds env _ _ ha)
    have hnamed : [] ∉ (serve env (s.sessions session) s.user op).state.order := by
      intro hid
      rcases mem_serve_order env _ _ hid with hold | hnew
      · exact h.named hold
      · exact newID_named hnew rfl
    exact ⟨hok, hnamed, hchange.web h.ok.registered h.named hok.registered.nodup hnamed h.web,
      hchange.android h.ok.registered hok.registered.nodup h.android decoder⟩
  · exact h

/-- The sections of `SendPrompt` for a tab. -/
def OfPrompt (id : TabID) : Op → Prop
  | .sendPromptCheck id' | .appendLines id' _ | .sendPromptPublish id' .. => id' = id
  | _ => False

theorem Tracks.runPrompt (h : Tracks env s) (session : ℕ) {id : TabID} (hid : id ∈ s.user.order)
    {op : Op} (hop : OfPrompt id op) :
    Tracks env (TabLists.runSection env decoder session s op) ∧
      id ∈ (TabLists.runSection env decoder session s op).user.order := by
  have hmem := (h.ok.registered.mem_iff id).mp hid
  have hsame : (TabLists.runSection env decoder session s op).user.order = s.user.order := by
    rw [TabLists.runSection]
    split_ifs
    · dsimp only
      rw [serve_order]
      cases op <;> first | rfl | exact hop.elim
    · rfl
  refine ⟨h.runSection session ?_ ?_, hsame ▸ hid⟩
  · cases op <;> first | trivial | exact hop ▸ hmem
  · cases op <;> first | exact hop.elim | simp [Op.newID]

theorem Tracks.foldPrompt (h : Tracks env s) (session : ℕ) {id : TabID} (hid : id ∈ s.user.order)
    {ops : List Op} (hops : ∀ op ∈ ops, OfPrompt id op) :
    Tracks env (ops.foldl (TabLists.runSection env decoder session) s) := by
  have hstep : ∀ s op, Tracks env s ∧ id ∈ s.user.order → OfPrompt id op →
      Tracks env (TabLists.runSection env decoder session s op) ∧
        id ∈ (TabLists.runSection env decoder session s op).user.order :=
    fun _ _ hs hop => hs.1.runPrompt session hs.2 hop
  exact (exec_invariant_of_mem hstep ⟨h, hid⟩ hops).1

theorem ofPrompt_sections {session : ℕ} {id : TabID} {lines : List (List GoString)}
    {started : Option (RunHandle × CancelFunc)} :
    ∀ op ∈ sections env s session (.sendPrompt id lines started), OfPrompt id op := by
  intro op hop
  simp only [sections, mem_cons] at hop
  rcases hop with rfl | hop
  · rfl
  · split at hop
    · simp at hop
    · split_ifs at hop
      · simp at hop
      · rcases mem_append.mp hop with hop | hop
        · obtain ⟨ls, -, rfl⟩ := mem_map.mp hop
          rfl
        · cases started with
          | none => simp at hop
          | some run =>
            rw [mem_singleton] at hop
            rw [hop]
            rfl

theorem sections_single (env : Env Text) (s : Viewed) (session : ℕ) (op : Op) :
    sections env s session (.single op) = [] ∨
      sections env s session (.single op) = [op] ∧ Finds s.user op := by
  cases op with
  | sendPromptCheck | sendPromptPublish => exact .inl rfl
  | _ => exact .inr ⟨rfl, trivial⟩

theorem Tracks.call (h : Tracks env s) {c : ℕ × ServiceCall} (hfresh : DrawsUnused s c) :
    Tracks env (call env decoder s c) := by
  obtain ⟨session, c⟩ := c
  cases c with
  | single op =>
    rw [TabLists.call]
    rcases sections_single env s session op with hnone | ⟨hone, hfinds⟩
    · rwa [hnone]
    · rw [hone]
      exact h.runSection session hfinds hfresh
  | sendPrompt id lines started =>
    by_cases hid : id ∈ s.user.order
    · -- no section of the prompt closes the tab, so each of them finds it
      exact h.foldPrompt session hid ofPrompt_sections
    · have hnone : s.user.tabs.lookup id = none :=
        Finmap.lookup_eq_none.mpr fun hmem => hid ((h.ok.registered.mem_iff id).mpr hmem)
      simp only [TabLists.call, sections, hnone, foldl_cons, foldl_nil]
      exact h.runSection session trivial (by simp [Op.newID])

theorem start_tracks {st : UserState} (hst : st.Ok env.cfg) (hnamed : [] ∉ st.order)
    (sessions : ℕ → Option Prefs) : Tracks env (Viewed.start st sessions) where
  ok := hst
  named := hnamed
  web := by
    simp only [Viewed.start, map_map]
    exact UserState.bar_map hst
  android := by
    simp only [Viewed.start, map_map]
    exact UserState.bar_map hst

/-- From the snapshot of any state that the service reaches, both clients have the tabs of
`ListTabs`, in their order, after every sequence of calls. -/
theorem clients_track_tabs {n : ℕ} (env : Env Text) (decoder : StatusDecoder) {run : List (Label n)}
    (hrun : Meets (World.step env) World.DrawsFresh (World.birth : World Text n) run)
    {u : UserID} {st : UserState}
    (hu : (exec (World.step env) (World.birth : World Text n) run).users u = some st)
    (sessions : ℕ → Option Prefs) {calls : List (ℕ × ServiceCall)}
    (hcalls : Meets (call env decoder) DrawsUnused (Viewed.start st sessions) calls) :
    let s := exec (call env decoder) (Viewed.start st sessions) calls
    s.web.map WireTab.id = listTabs s.user ∧ s.android.map AndroidTab.id = listTabs s.user := by
  intro s
  have hst := (World.good_of_run env hrun).users u st hu
  have hnamed : [] ∉ st.order := fun hid => World.drawn_named run (hst.known _ hid)
  have htracks : Tracks env s :=
    hcalls.invariant (fun _ _ h hc => h.call hc) (start_tracks hst.ok hnamed sessions)
  rw [listTabs, UserState.bar_map htracks.ok]
  exact ⟨htracks.web, htracks.android⟩

/-- The last tab is closed, a theme is chosen while there is none, and a new tab gets a prompt. -/
def themeCalls : List (ℕ × ServiceCall) :=
  [(0, .single (.closeTab (lit "0000000000000002"))), (1, .single (.setTheme (lit "dark"))),
    (1, .single (.createTab (some (randBytes 3)) (lit "repo") [])),
    (0, .sendPrompt (lit "0000000000000003") [[lit "> hi"]] (some (1, 1)))]

/-- The names, and nothing else. -/
def namesDecoder : StatusDecoder where
  decode text := ([.idle, .running, .stopped].find? fun status => statusText status = text).map some
  known status := by cases status <;> decide
  unknown text h := by simp [h]

theorem clients_track_tabs_theme :
    ∃ st, (exec (World.step (Env.stock Json.plain)) World.birth
          (World.tabsRun (0 : Fin 1))).users (lit "alice") = some st ∧
      Meets (call (Env.stock Json.plain) namesDecoder) DrawsUnused (Viewed.start st fun _ => none)
        themeCalls ∧
      let s := exec (call (Env.stock Json.plain) namesDecoder) (Viewed.start st fun _ => none)
        themeCalls
      s.web.map WireTab.id = [lit "0000000000000003"] ∧
        s.android.map AndroidTab.id = [lit "0000000000000003"] := by
  refine ⟨_, rfl, by decide, ?_⟩
  obtain ⟨hweb, handroid⟩ := clients_track_tabs (u := lit "alice") (Env.stock Json.plain)
    namesDecoder (show Meets _ _ _ (World.tabsRun (0 : Fin 1)) by decide) rfl (fun _ => none)
    (show Meets _ _ _ themeCalls by decide)
  exact ⟨hweb.trans (by decide), handroid.trans (by decide)⟩

end Runs

end Centaurx.TabLists
