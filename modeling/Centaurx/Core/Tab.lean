import Centaurx.Core.Buffer

namespace Centaurx
open Go

structure HistoryBuffer where
  entries : List GoString
  max : Int
  deriving DecidableEq, Repr

def defaultHistoryMax : Int := 200

namespace HistoryBuffer

def new (max : Int) : HistoryBuffer :=
  { entries := [], max := if max ≤ 0 then defaultHistoryMax else max }

/-- The last `max` entries. -/
def cap (max : Int) (entries : List GoString) : List GoString :=
  if entries.length > max then entries.drop (entries.length - max).toNat else entries

def newFromPersisted (entries : List GoString) : HistoryBuffer :=
  let h := new defaultHistoryMax
  if entries.length = 0 then h else { h with entries := cap h.max entries }

/-- `Append`: blank entries and a repetition of the last entry are not recorded. -/
def append (h : HistoryBuffer) (entry : GoString) : HistoryBuffer × Bool :=
  if blank entry then (h, false)
  else if h.entries.getLast? = some entry then (h, false)
  else ({ h with entries := cap h.max (h.entries ++ [entry]) }, true)

structure Ok (h : HistoryBuffer) : Prop where
  max_eq : h.max = defaultHistoryMax
  length_le : h.entries.length ≤ defaultHistoryMax

theorem length_cap_le {max : Int} (hm : 0 ≤ max) (entries : List GoString) :
    (cap max entries).length ≤ max := by
  simp only [cap]
  split_ifs with h
  · rw [List.length_drop]
    omega
  · omega

theorem new_ok : (new defaultHistoryMax).Ok := ⟨rfl, by decide⟩

theorem newFromPersisted_ok (entries : List GoString) : (newFromPersisted entries).Ok := by
  simp only [newFromPersisted]
  split_ifs
  · exact new_ok
  · exact ⟨rfl, length_cap_le (by decide) entries⟩

variable {h : HistoryBuffer}

theorem append_ok (hh : h.Ok) (entry : GoString) : (h.append entry).1.Ok := by
  simp only [append]
  split_ifs
  · exact hh
  · exact hh
  · refine ⟨hh.max_eq, ?_⟩
    rw [hh.max_eq]
    exact length_cap_le (by decide) _

theorem append_false {entry : GoString} (hf : (h.append entry).2 = false) :
    (h.append entry).1 = h := by
  simp only [append] at hf ⊢
  split_ifs at hf ⊢ <;> rfl

theorem newFromPersisted_entries (hh : h.Ok) : newFromPersisted h.entries = h := by
  have hn : new defaultHistoryMax = { entries := [], max := h.max } := by
    rw [hh.max_eq]
    rfl
  have hl : ¬ (h.entries.length : Int) > h.max := by
    rw [hh.max_eq]
    exact not_lt.mpr hh.length_le
  simp only [newFromPersisted, hn, cap, hl, if_false]
  split_ifs with h0
  · rw [← List.length_eq_zero_iff.mp h0]
  · rfl

end HistoryBuffer

abbrev RunHandle := ℕ
abbrev CommandHandle := ℕ
abbrev CancelFunc := ℕ

structure CommandRun where
  handle : CommandHandle
  cancel : CancelFunc
  deriving DecidableEq, Repr

/-- The stored repo reference has only its name set; its path is computed on demand. -/
structure Tab where
  id : TabID
  name : TabName
  repo : RepoName
  model : ModelID
  modelReasoningEffort : ModelReasoningEffort
  sessionID : SessionID
  status : TabStatus
  lastUsage : Option TurnUsage
  buffer : Buffer
  history : HistoryBuffer
  run : Option RunHandle
  runCancel : Option CancelFunc
  commands : List CommandRun
  deriving DecidableEq

/-- The transport view of a tab (`schema.TabSnapshot`). -/
structure TabView where
  id : TabID
  name : TabName
  repo : RepoName
  model : ModelID
  modelReasoningEffort : ModelReasoningEffort
  sessionID : SessionID
  status : TabStatus
  active : Bool
  deriving DecidableEq

/-- `formatTabName`: lengths and cuts are in bytes. -/
def formatTabName (name : GoString) (max : Int) (suffix : GoString) : GoString :=
  if max ≤ 0 then name
  else if name.length ≤ max then name
  else
    let cut := max - suffix.length
    if cut < 1 then name.take max.toNat else name.take cut.toNat ++ suffix

namespace Tab

/-- The tab that `CreateTab` builds; an empty tab name falls back to the repo name. -/
def new (cfg : Config) (id : TabID) (repoName : RepoName) (tabName : TabName) : Tab where
  id := id
  name := formatTabName (if blank tabName then repoName else tabName)
    cfg.tabNameMax cfg.tabNameSuffix
  repo := repoName
  model := cfg.defaultModel
  modelReasoningEffort := defaultModelReasoningEffort
  sessionID := []
  status := .idle
  lastUsage := none
  buffer := Buffer.newWithMaxLines cfg.bufferMaxLines
  history := HistoryBuffer.new defaultHistoryMax
  run := none
  runCancel := none
  commands := []

def snapshot (t : Tab) (active : Bool) : TabView where
  id := t.id
  name := t.name
  repo := t.repo
  model := t.model
  modelReasoningEffort := t.modelReasoningEffort
  sessionID := t.sessionID
  status := t.status
  active := active

/-- The publish section of `SendPrompt`. -/
def publish (t : Tab) (handle : RunHandle) (cancel : CancelFunc) : Tab :=
  { t with status := .running, run := some handle, runCancel := some cancel }

/-- The completion section of `consumeEvents`: only the run that the tab still holds. -/
def complete (t : Tab) (handle : RunHandle) : Tab :=
  if t.run = some handle then { t with status := .idle, run := none, runCancel := none } else t

/-- The update of `RenewSession`. -/
def renew (t : Tab) : Tab := { t with sessionID := [], lastUsage := none }

/-- `setSessionID` keeps the first id it is given. -/
def setSessionID (t : Tab) (sid : SessionID) : Tab :=
  if t.sessionID = [] then { t with sessionID := sid } else t

/-- The update of `SetModel` with a normalised model and an effort that may be empty. -/
def setModel (t : Tab) (model : ModelID) (effort : ModelReasoningEffort) : Tab :=
  let kept :=
    if blank t.modelReasoningEffort then defaultModelReasoningEffort else t.modelReasoningEffort
  { t with model := model, modelReasoningEffort := if blank effort then kept else effort }

def registerCommand (t : Tab) (handle : CommandHandle) (cancel : CancelFunc) : Tab :=
  { t with commands := t.commands ++ [⟨handle, cancel⟩] }

def unregisterCommand (t : Tab) (handle : CommandHandle) : Tab :=
  { t with commands := t.commands.filter (fun c => c.handle ≠ handle) }

/-- What a restart makes of a tab: the status, the run, the commands and the usage are
not saved. -/
def restarted (t : Tab) : Tab :=
  { t with status := .idle, lastUsage := none, run := none, runCancel := none, commands := [] }

/-- The invariant of a tab stored under `id` in a service with configuration `cfg`. -/
structure Ok (cfg : Config) (id : TabID) (t : Tab) : Prop where
  id_eq : t.id = id
  effort : blank t.modelReasoningEffort = false
  buffer : t.buffer.Ok cfg.bufferMaxLines
  history : t.history.Ok

theorem new_ok (cfg : Config) (id : TabID) (repoName : RepoName) (tabName : TabName) :
    (new cfg id repoName tabName).Ok cfg id where
  id_eq := rfl
  effort := defaultModelReasoningEffort_not_blank
  buffer := Buffer.newWithMaxLines_ok cfg.bufferMaxLines_pos
  history := HistoryBuffer.new_ok

/-- Every in-place update that the service makes to a tab it finds in the tab map. -/
inductive Step : Tab → Tab → Prop
  | append (t : Tab) (ls : List GoString) : Step t { t with buffer := t.buffer.append ls }
  | scroll (t : Tab) (delta limit : Int) :
      Step t { t with buffer := t.buffer.scroll delta limit }
  | store (t : Tab) (max : Int) (h0 : 0 ≤ max) (h1 : max ≤ t.buffer.lines.length) :
      Step t { t with buffer := { t.buffer with scrollOffset := max } }
  | history (t : Tab) (entry : GoString) :
      Step t { t with history := (t.history.append entry).1 }
  | model (t : Tab) (model : ModelID) (effort : ModelReasoningEffort) :
      Step t (t.setModel model effort)
  | repo (t : Tab) (repo : RepoName) : Step t { t with repo := repo }
  | renew (t : Tab) : Step t t.renew
  | session (t : Tab) (sid : SessionID) : Step t (t.setSessionID sid)
  | usage (t : Tab) (usage : TurnUsage) : Step t { t with lastUsage := some usage }
  | publish (t : Tab) (h : RunHandle) (c : CancelFunc) : Step t (t.publish h c)
  | complete (t : Tab) (h : RunHandle) : Step t (t.complete h)
  | register (t : Tab) (h : CommandHandle) (c : CancelFunc) : Step t (t.registerCommand h c)
  | unregister (t : Tab) (h : CommandHandle) : Step t (t.unregisterCommand h)

theorem setModel_effort (t : Tab) (model : ModelID) (effort : ModelReasoningEffort) :
    blank (t.setModel model effort).modelReasoningEffort = false := by
  simp only [setModel]
  split_ifs with he hk
  · exact defaultModelReasoningEffort_not_blank
  · simpa using hk
  · simpa using he

theorem Step.ok {cfg : Config} {id : TabID} {t t' : Tab} (h : Step t t') (ht : t.Ok cfg id) :
    t'.Ok cfg id := by
  cases h with
  | append ls => exact ⟨ht.id_eq, ht.effort, Buffer.append_ok ht.buffer ls, ht.history⟩
  | scroll delta limit =>
    exact ⟨ht.id_eq, ht.effort, Buffer.scroll_ok ht.buffer delta limit, ht.history⟩
  | store max h0 h1 => exact ⟨ht.id_eq, ht.effort, ht.buffer.setOffset h0 h1, ht.history⟩
  | history entry =>
    exact ⟨ht.id_eq, ht.effort, ht.buffer, HistoryBuffer.append_ok ht.history entry⟩
  | model model effort => exact ⟨ht.id_eq, setModel_effort t model effort, ht.buffer, ht.history⟩
  | session sid =>
    simp only [setSessionID]
    split_ifs
    · exact ⟨ht.id_eq, ht.effort, ht.buffer, ht.history⟩
    · exact ht
  | complete h =>
    simp only [Tab.complete]
    split_ifs
    · exact ⟨ht.id_eq, ht.effort, ht.buffer, ht.history⟩
    · exact ht
  | repo | renew | usage | publish | register | unregister =>
    exact ⟨ht.id_eq, ht.effort, ht.buffer, ht.history⟩

theorem Step.id_eq {t t' : Tab} (h : Step t t') : t'.id = t.id := by
  cases h with
  | session sid =>
    simp only [setSessionID]
    split_ifs <;> rfl
  | complete h =>
    simp only [Tab.complete]
    split_ifs <;> rfl
  | _ => rfl

theorem Step.length_le {cfg : Config} {id : TabID} {t t' : Tab} (h : Step t t')
    (ht : t.Ok cfg id) : t.buffer.lines.length ≤ t'.buffer.lines.length := by
  cases h with
  | append ls => exact Buffer.length_le_append ht.buffer ls
  | session sid =>
    simp only [setSessionID]
    split_ifs <;> exact le_rfl
  | complete h =>
    simp only [Tab.complete]
    split_ifs <;> exact le_rfl
  | _ => exact le_rfl

end Tab

end Centaurx
