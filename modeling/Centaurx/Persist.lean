import Centaurx.Core.UserState

namespace Centaurx
open Go List

/-- `persist.TabSnapshot`. -/
structure TabSnapshot where
  id : TabID
  name : TabName
  repo : RepoName
  model : ModelID
  modelReasoningEffort : ModelReasoningEffort
  sessionID : SessionID
  buffer : PersistedBuffer
  history : List GoString
  deriving DecidableEq

/-- `persist.UserSnapshot`. -/
structure UserSnapshot where
  order : List TabID
  tabs : List TabSnapshot
  system : PersistedBuffer
  theme : ThemeName
  deriving DecidableEq

/-- A snapshot without its scroll offsets. -/
def UserSnapshot.unscrolled (s : UserSnapshot) : UserSnapshot :=
  { s with
    tabs := s.tabs.map fun t => { t with buffer := { t.buffer with scrollOffset := 0 } }
    system := { s.system with scrollOffset := 0 } }

def PersistedBuffer.mapStrings (f : GoString → GoString) (b : PersistedBuffer) : PersistedBuffer :=
  { b with lines := b.lines.map f }

def TabSnapshot.mapStrings (f : GoString → GoString) (s : TabSnapshot) : TabSnapshot where
  id := f s.id
  name := f s.name
  repo := f s.repo
  model := f s.model
  modelReasoningEffort := f s.modelReasoningEffort
  sessionID := f s.sessionID
  buffer := s.buffer.mapStrings f
  history := s.history.map f

def UserSnapshot.mapStrings (f : GoString → GoString) (s : UserSnapshot) : UserSnapshot where
  order := s.order.map f
  tabs := s.tabs.map (TabSnapshot.mapStrings f)
  system := s.system.mapStrings f
  theme := f s.theme

/-- Encoding and decoding of snapshots; `str` is what a string becomes on the way. -/
structure Json (Text : Type) where
  str : GoString → GoString
  str_valid : ∀ s, validUTF8 s = true → str s = s
  marshal : UserSnapshot → Text
  unmarshal : Text → Option UserSnapshot
  unmarshal_marshal : ∀ s, unmarshal (marshal s) = some (s.mapStrings str)

inductive LoadResult
  | failed
  | missing
  | loaded (snapshot : UserSnapshot)
  deriving DecidableEq

/-- `Store.Load` on the user's file: reading it can fail for any reason (`readOK = false`),
the file may not exist, and its content may not decode. -/
def Json.load {Text : Type} (json : Json Text) (file : Option Text) (readOK : Bool) : LoadResult :=
  if readOK then
    match file with
    | none => .missing
    | some text =>
      match json.unmarshal text with
      | none => .failed
      | some snapshot => .loaded snapshot
  else .failed

/-- The persisted form of one tab. -/
def Tab.exportTab (t : Tab) : TabSnapshot where
  id := t.id
  name := t.name
  repo := t.repo
  model := t.model
  modelReasoningEffort := t.modelReasoningEffort
  sessionID := t.sessionID
  buffer := t.buffer.exportBuffer
  history := t.history.entries

def snapshotUser (st : UserState) : UserSnapshot where
  order := st.order
  tabs := st.bar.map Tab.exportTab
  system := st.system.exportBuffer
  theme := st.theme

/-- A tab rebuilt from its persisted form. -/
def Tab.restore (cfg : Config) (s : TabSnapshot) : Tab where
  id := s.id
  name := s.name
  repo := s.repo
  model := s.model
  modelReasoningEffort :=
    if blank s.modelReasoningEffort then defaultModelReasoningEffort else s.modelReasoningEffort
  sessionID := s.sessionID
  status := .idle
  lastUsage := none
  buffer := Buffer.newFromPersistedWithMaxLines s.buffer cfg.bufferMaxLines
  history := HistoryBuffer.newFromPersisted s.history
  run := none
  runCancel := none
  commands := []

def restoreTabs (cfg : Config) (tabs : List TabSnapshot) : TabMap :=
  tabs.foldl (fun m s => m.insert s.id (Tab.restore cfg s)) ∅

/-- Ids that no saved tab carries are dropped; an order without any is rebuilt from the tabs. -/
def restoreOrder (m : TabMap) (snapshot : UserSnapshot) : List TabID :=
  let order := snapshot.order.filter (fun id => id ∈ m)
  if order.length = 0 then snapshot.tabs.map TabSnapshot.id else order

/-- `loadUserStateLocked`. A failed load and a missing file both give a fresh user. -/
def loadUserState (cfg : Config) : LoadResult → UserState
  -- The error of `Load` is logged and dropped.
  | .failed => UserState.fresh cfg
  | .missing => UserState.fresh cfg
  | .loaded snapshot =>
    let tabs := restoreTabs cfg snapshot.tabs
    { tabs := tabs
      order := restoreOrder tabs snapshot
      system := Buffer.newFromPersistedWithMaxLines snapshot.system cfg.bufferMaxLines
      theme := if snapshot.theme = [] then cfg.defaultTheme else snapshot.theme }

theorem Tab.restore_ok (cfg : Config) (s : TabSnapshot) : (Tab.restore cfg s).Ok cfg s.id where
  id_eq := rfl
  effort := by
    simp only [restore]
    split_ifs with h
    · exact defaultModelReasoningEffort_not_blank
    · simpa using h
  buffer := Buffer.newFromPersisted_ok cfg.bufferMaxLines_pos _
  history := HistoryBuffer.newFromPersisted_ok _

section RestoreTabs

variable (cfg : Config)

theorem foldl_insert_lookup (tabs : List TabSnapshot) (m : TabMap) (id : TabID) :
    (tabs.foldl (fun m s => m.insert s.id (Tab.restore cfg s)) m).lookup id =
      ((tabs.reverse.find? (fun s => s.id = id)).map (Tab.restore cfg)).or (m.lookup id) := by
  induction tabs generalizing m with
  | nil => rfl
  | cons s tabs ih =>
    rw [foldl_cons, ih, reverse_cons, find?_append]
    cases hf : tabs.reverse.find? (fun s => s.id = id) with
    | some s' => simp
    | none =>
      by_cases hs : s.id = id
      · subst hs
        simp
      · have hne : id ≠ s.id := fun h => hs h.symm
        simp [hs, Finmap.lookup_insert_of_ne _ hne]

theorem lookup_restoreTabs (tabs : List TabSnapshot) (id : TabID) :
    (restoreTabs cfg tabs).lookup id =
      (tabs.reverse.find? (fun s => s.id = id)).map (Tab.restore cfg) := by
  simp [restoreTabs, foldl_insert_lookup]

theorem mem_restoreTabs (tabs : List TabSnapshot) (id : TabID) :
    id ∈ restoreTabs cfg tabs ↔ id ∈ tabs.map TabSnapshot.id := by
  rw [← Finmap.lookup_isSome, lookup_restoreTabs, Option.isSome_map, find?_isSome]
  simp

theorem lookup_restoreTabs_of_mem {tabs : List TabSnapshot}
    (hn : (tabs.map TabSnapshot.id).Nodup) {s : TabSnapshot} (hs : s ∈ tabs) :
    (restoreTabs cfg tabs).lookup s.id = some (Tab.restore cfg s) := by
  rw [lookup_restoreTabs]
  cases hf : tabs.reverse.find? (fun s' => s'.id = s.id) with
  | none =>
    have := find?_eq_none.mp hf s (mem_reverse.mpr hs)
    simp at this
  | some s' =>
    have hid : s'.id = s.id := by simpa using find?_some hf
    have hmem : s' ∈ tabs := mem_reverse.mp (mem_of_find?_eq_some hf)
    rw [inj_on_of_nodup_map hn hmem hs hid]
    rfl

theorem restoreTabs_ok (tabs : List TabSnapshot) {id : TabID} {t : Tab}
    (h : (restoreTabs cfg tabs).lookup id = some t) : t.Ok cfg id := by
  rw [lookup_restoreTabs, Option.map_eq_some_iff] at h
  obtain ⟨s, hf, rfl⟩ := h
  have hid : s.id = id := by simpa using find?_some hf
  exact hid ▸ Tab.restore_ok cfg s

end RestoreTabs

/-- A snapshot whose order lists each saved tab once. -/
structure UserSnapshot.Registered (snapshot : UserSnapshot) : Prop where
  nodup : snapshot.order.Nodup
  mem_iff : ∀ id, id ∈ snapshot.order ↔ id ∈ snapshot.tabs.map TabSnapshot.id

theorem restoreOrder_of_registered (cfg : Config) {snapshot : UserSnapshot}
    (h : snapshot.Registered) :
    restoreOrder (restoreTabs cfg snapshot.tabs) snapshot = snapshot.order := by
  have hf : snapshot.order.filter (fun id => id ∈ restoreTabs cfg snapshot.tabs) =
      snapshot.order := by
    rw [filter_eq_self]
    intro id hid
    simpa [mem_restoreTabs] using (h.mem_iff id).mp hid
  simp only [restoreOrder, hf]
  split_ifs with h0
  · have hnil : snapshot.order = [] := length_eq_zero_iff.mp h0
    rw [hnil, eq_nil_iff_forall_not_mem]
    intro id hid
    exact absurd ((h.mem_iff id).mpr hid) (by simp [hnil])
  · rfl

theorem loadUserState_theme_ne (cfg : Config) (result : LoadResult) :
    (loadUserState cfg result).theme ≠ [] := by
  cases result with
  | failed | missing => exact cfg.defaultTheme_ne
  | loaded snapshot =>
    simp only [loadUserState]
    split_ifs with ht
    · exact cfg.defaultTheme_ne
    · exact ht

/-- Loading a registered snapshot gives a well-formed user with the saved order. -/
theorem loadUserState_loaded (cfg : Config) {snapshot : UserSnapshot} (h : snapshot.Registered) :
    (loadUserState cfg (.loaded snapshot)).Ok cfg ∧
      (loadUserState cfg (.loaded snapshot)).order = snapshot.order := by
  have ho := restoreOrder_of_registered cfg h
  refine ⟨⟨⟨?_, ?_⟩, ?_, ?_, ?_⟩, ho⟩
  · simpa only [loadUserState, ho] using h.nodup
  · intro id
    simp only [loadUserState, ho, mem_restoreTabs]
    exact h.mem_iff id
  · intro id t hl
    exact restoreTabs_ok cfg _ hl
  · exact Buffer.newFromPersisted_ok cfg.bufferMaxLines_pos _
  · exact loadUserState_theme_ne cfg _

end Centaurx
