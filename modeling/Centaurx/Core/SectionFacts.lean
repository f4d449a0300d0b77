import Centaurx.Core.Sections

namespace Centaurx
open Go List

/-- The id that an operation draws from `newID`. -/
def Op.newID : Op → Option TabID
  | .createTab rand _ _ => some (Centaurx.newID rand)
  | _ => none

variable {Text : Type} (env : Env Text) (ctx : Option Prefs) (st : UserState)

/-- Neither opens a tab nor closes one. -/
def Op.keepsOrder : Op → Bool
  | .createTab .. => false
  | .closeTab _ => false
  | _ => true

/-- Appends lines to a tab. -/
def Op.appendsLines : Op → Bool
  | .appendOutput .. => true
  | .appendLines .. => true
  | _ => false

/-- What a section does to the user's state, and when it leaves a `persist` behind. -/
inductive Effect (cfg : Config) (st : UserState) (todo : List (Act Text)) : Op → UserState → Prop
  | stay {op} (hop : op.keepsOrder = true) : Effect cfg st todo op st
  | add {rand repoName tabName} (hp : .persist ∈ todo) :
      Effect cfg st todo (.createTab rand repoName tabName)
        (st.addTab (Tab.new cfg (newID rand) repoName tabName))
  | missing {id} (hid : id ∉ st.tabs) : Effect cfg st todo (.closeTab id) st
  | delete {id} (hid : id ∈ st.tabs) (hp : .persist ∈ todo) :
      Effect cfg st todo (.closeTab id) (st.deleteTab id)
  | put {op id t t'} (hop : op.keepsOrder = true) (hid : st.tabs.lookup id = some t)
      (ht : Tab.Step t t') (hp : .persist ∈ todo ∨ t'.exportTab = t.exportTab)
      (hlines : op.appendsLines = false → t'.buffer.lines = t.buffer.lines) :
      Effect cfg st todo op (st.putTab id t')
  | theme {theme} (hp : .persist ∈ todo) :
      Effect cfg st todo (.setTheme theme) { st with theme := theme }
  | system {op lines} (hop : op.keepsOrder = true) (hp : .persist ∈ todo) :
      Effect cfg st todo op { st with system := st.system.append lines }

variable {op : Op}

theorem touchTab_effect (hop : op.keepsOrder = true) (id : TabID) {f : Tab → Tab}
    {todo : Tab → List (Act Text)} (hf : ∀ t, Tab.Step t (f t))
    (hp : ∀ t, Act.persist ∈ todo t ∨ (f t).exportTab = t.exportTab)
    (hlines : op.appendsLines = false → ∀ t, (f t).buffer.lines = t.buffer.lines) :
    Effect env.cfg st (touchTab ctx st id f todo).todo op (touchTab ctx st id f todo).state := by
  simp only [touchTab]
  split
  · exact .stay hop
  · next t hid => exact .put hop hid (hf t) (hp t) fun h => hlines h t

theorem lookupTab_effect (hop : op.keepsOrder = true) (id : TabID) :
    Effect env.cfg st (lookupTab ctx st id : Outcome Text).todo op
      (lookupTab ctx st id : Outcome Text).state := by
  simp only [lookupTab]
  split <;> exact .stay hop

theorem serve_effect (op : Op) :
    Effect env.cfg st (serve env ctx st op).todo op (serve env ctx st op).state := by
  cases op with
  | createTab rand repoName tabName => exact .add (by simp [serve, createTab])
  | closeTab id =>
    simp only [serve, closeTab]
    split
    · next hid => exact .missing (Finmap.lookup_eq_none.mp hid)
    · next t hid => exact .delete (Finmap.mem_of_lookup_eq_some hid) (by simp)
  | activateTab id =>
    simp only [serve, activateTab]
    split <;> exact .stay rfl
  | setModel id model effort =>
    simp only [serve, setModel]
    split
    · exact .stay rfl
    · next t hid =>
      split
      · exact .stay rfl
      · next model _ =>
        split
        · exact .put rfl hid (.model t model []) (.inl (by simp [updateTab])) fun _ => rfl
        · split
          · exact .stay rfl
          · next effort _ =>
            exact .put rfl hid (.model t model effort) (.inl (by simp [updateTab])) fun _ => rfl
  | switchRepo id repoName =>
    simp only [serve, switchRepo]
    split
    · exact .stay rfl
    · next t hid =>
      exact .put rfl hid (.repo t repoName) (.inl (by simp [updateTab])) fun _ => rfl
  | renewSession id =>
    simp only [serve, renewSession]
    split
    · exact .stay rfl
    · next t hid =>
      split
      · exact .stay rfl
      · exact .put rfl hid (.renew t) (.inl (by simp)) fun _ => rfl
  | setTheme theme => exact .theme (by simp [serve, setTheme])
  | getBuffer id limit =>
    simp only [serve, getBuffer]
    split <;> exact .stay rfl
  | scrollBuffer id delta limit =>
    simp only [serve, scrollBuffer]
    split
    · exact .stay rfl
    · next t hid => exact .put rfl hid (.scroll t delta limit) (.inl (by simp)) fun _ => rfl
  | appendOutput id lines =>
    simp only [serve, appendOutput]
    split
    · exact .stay rfl
    · next t hid => exact .put rfl hid (.append t lines) (.inl (by simp)) fun h => by cases h
  | appendHistory id entry =>
    simp only [serve, appendHistory]
    split
    · exact .stay rfl
    · next t hid =>
      refine .put rfl hid (.history t entry) ?_ fun _ => rfl
      cases hc : (t.history.append entry).2 with
      | true => exact .inl (by simp)
      | false => exact .inr (by rw [HistoryBuffer.append_false hc])
  | sendPromptCheck id =>
    simp only [serve, sendPromptCheck]
    repeat' split
    all_goals exact .stay rfl
  | sendPromptPublish id active handle cancel closed =>
    simp only [serve, sendPromptPublish]
    split
    · exact .stay rfl
    · next t hid => exact .put rfl hid (.publish t handle cancel) (.inr rfl) fun _ => rfl
  | consumeComplete id handle =>
    simp only [serve, consumeComplete]
    split
    · exact .stay rfl
    · next t hid =>
      split
      · next hrun =>
        have hcomplete : (t.complete handle).exportTab = t.exportTab ∧
            (t.complete handle).buffer = t.buffer := by
          rw [Tab.complete, if_pos hrun]
          exact ⟨rfl, rfl⟩
        exact .put rfl hid (.complete t handle) (.inr hcomplete.1) fun _ => by rw [hcomplete.2]
      · exact .stay rfl
  | stopSession id | getHistory id | getTabUsage id => exact lookupTab_effect env _ st rfl id
  | registerCommand id handle cancel =>
    exact touchTab_effect env ctx st rfl id (fun t => .register t handle cancel)
      (fun _ => .inr rfl) fun _ _ => rfl
  | unregisterCommand id handle =>
    exact touchTab_effect env ctx st rfl id (fun t => .unregister t handle)
      (fun _ => .inr rfl) fun _ _ => rfl
  | consumeUsage id usage =>
    exact touchTab_effect env ctx st rfl id (fun t => .usage t usage)
      (fun _ => .inr rfl) fun _ _ => rfl
  | setSessionID id sid =>
    refine touchTab_effect env ctx st rfl id (fun t => .session t sid) (fun t => ?_) fun _ t => ?_
    · by_cases hs : t.sessionID = []
      · exact .inl (by simp [hs])
      · exact .inr (by simp [Tab.setSessionID, hs])
    · rw [Tab.setSessionID]
      split_ifs <;> rfl
  | appendLines id lines =>
    exact touchTab_effect env ctx st rfl id (fun t => .append t lines)
      (fun _ => .inl (by simp)) fun h => by cases h
  | appendSystemOutput lines | appendSystemLines lines =>
    exact .system rfl (by simp [serve, appendSystem])
  | listTabs | getSystemBuffer => exact .stay rfl

/-- Every admitted operation changes the user's state by one `UserState.Step`. -/
theorem serve_step (hop : op.admitted env.uni = true) :
    UserState.Step env.cfg st (serve env ctx st op).state := by
  have heffect := serve_effect env ctx st op
  generalize (serve env ctx st op).state = st' at heffect ⊢
  cases heffect with
  | stay | missing => exact .refl st
  | add => exact .add st _ (Tab.new_ok _ _ _ _)
  | @delete id => exact .delete st id
  | put _ hid ht => exact .tab st _ _ _ hid ht
  | @theme theme =>
    refine .theme st theme (ne_nil_of_not_blank ?_)
    simpa [Op.admitted] using hop
  | @system _ lines => exact .system st lines

/-- What each operation does to the order: `CreateTab` appends its id, a `CloseTab` that
finds the tab removes the id, and no other operation touches it. -/
theorem serve_order (op : Op) :
    (serve env ctx st op).state.order =
      match op with
      | .createTab rand _ _ => st.order ++ [newID rand]
      | .closeTab id => if id ∈ st.tabs then st.order.erase id else st.order
      | _ => st.order := by
  have hkeep : ∀ {op : Op}, op.keepsOrder = true → st.order = match op with
      | .createTab rand _ _ => st.order ++ [newID rand]
      | .closeTab id => if id ∈ st.tabs then st.order.erase id else st.order
      | _ => st.order := by
    intro op hop
    cases op <;> first | rfl | cases hop
  have heffect := serve_effect env ctx st op
  generalize (serve env ctx st op).state = st' at heffect ⊢
  cases heffect with
  | stay hop | put hop | system hop => exact hkeep hop
  | add | theme => rfl
  | missing hid => exact (if_neg hid).symm
  | delete hid => exact (removeTabID_eq_erase _ _).trans (if_pos hid).symm

variable {id : TabID}

theorem mem_serve_order (h : id ∈ (serve env ctx st op).state.order) :
    id ∈ st.order ∨ id ∈ op.newID := by
  rw [serve_order] at h
  cases op with
  | createTab rand repoName tabName => simpa [Op.newID, eq_comm] using h
  | closeTab id' =>
    dsimp only at h
    split_ifs at h
    · exact .inl (mem_of_mem_erase h)
    · exact .inl h
  | _ => exact .inl h

theorem newID_of_mem (h : id ∈ op.newID) : ∃ rand, id = newID rand := by
  cases op with
  | createTab rand repoName tabName => exact ⟨rand, (Option.mem_some.mp h).symm⟩
  | _ => simp [Op.newID] at h

theorem newID_ne_nil (rand) : newID rand ≠ [] := by
  cases rand with
  | none => decide
  | some buf =>
    intro h
    have hlen : (hexEncode buf.toList).length = 0 := by
      rw [show hexEncode buf.toList = [] from h, length_nil]
    simp [hexEncode] at hlen

theorem newID_named (h : id ∈ op.newID) : id ≠ [] := by
  obtain ⟨rand, rfl⟩ := newID_of_mem h
  exact newID_ne_nil rand

theorem serve_adds (h : UserState.Adds st (serve env ctx st op).state id) : op.newID = some id := by
  have hlen : (serve env ctx st op).state.order.length = st.order.length + 1 := by
    rw [h, length_append]
    rfl
  rw [serve_order] at hlen
  cases op with
  | createTab rand repoName tabName =>
    have h' : st.order ++ [newID rand] = st.order ++ [id] := (serve_order env ctx st _).symm.trans h
    simpa [Op.newID] using h'
  | closeTab id' =>
    dsimp only at hlen
    split_ifs at hlen
    · have := length_erase_le (a := id') (l := st.order)
      omega
    · omega
  | _ => dsimp only at hlen; omega

theorem mem_serve (hop : ∀ id, op ≠ .closeTab id) (hid : id ∈ st.tabs) :
    id ∈ (serve env ctx st op).state.tabs := by
  have heffect := serve_effect env ctx st op
  generalize (serve env ctx st op).state = st' at heffect ⊢
  cases heffect with
  | stay | theme | system => exact hid
  | add | put => exact Finmap.mem_insert.mpr (.inr hid)
  | missing | delete => exact absurd rfl (hop _)

theorem mem_serve_closeTab {tab : TabID} (hid : id ∈ st.tabs) (hne : id ≠ tab) :
    id ∈ (serve env ctx st (.closeTab tab)).state.tabs := by
  simp only [serve, closeTab]
  split
  · exact hid
  · exact Finmap.mem_erase.mpr ⟨hne, hid⟩

/-- A write to a tab that leaves its persisted form alone is not seen by the snapshot. -/
theorem snapshotUser_putTab {t t' : Tab} (hid : st.tabs.lookup id = some t)
    (h : t'.exportTab = t.exportTab) : snapshotUser (st.putTab id t') = snapshotUser st := by
  have hb : ((st.putTab id t').bar).map Tab.exportTab = st.bar.map Tab.exportTab := by
    simp only [UserState.bar, map_filterMap]
    apply filterMap_congr
    intro id' _
    rw [UserState.lookup_putTab]
    split_ifs with he
    · subst he
      rw [hid, Option.map_some, Option.map_some, h]
    · rfl
  simp only [snapshotUser, hb]
  rfl

/-- A section either leaves a `persist` to do, or does not change what would be saved. -/
theorem serve_persist (op : Op) :
    Act.persist ∈ (serve env ctx st op).todo ∨
      snapshotUser (serve env ctx st op).state = snapshotUser st := by
  have heffect := serve_effect env ctx st op
  generalize (serve env ctx st op).state = st' at heffect ⊢
  cases heffect with
  | stay | missing => exact .inr rfl
  | add hp | delete _ hp | theme hp | system _ hp => exact .inl hp
  | put _ hid _ hp => exact hp.imp_right (snapshotUser_putTab st hid)

/-- The operations that read a view of a buffer. -/
def Op.views : Op → Bool
  | .getBuffer .. => true
  | .scrollBuffer .. => true
  | .getSystemBuffer .. => true
  | _ => false

theorem serve_todo_all {p : Act Text → Bool} (he : ∀ e, p (.emit e) = true) (hp : p .persist = true)
    (hv : op.views = true → ∀ ref limit, p (.view ref limit) = true) :
    (serve env ctx st op).todo.all p = true := by
  have hout : ∀ id lines, (emitOutput id lines ++ [(.persist : Act Text)]).all p = true := by
    intro id lines
    simp only [emitOutput]
    split_ifs <;> simp [he, hp]
  cases op with
  | appendOutput id lines =>
    simp only [serve, appendOutput]
    split
    · rfl
    · exact hout id lines
  | appendLines id lines =>
    simp only [serve, touchTab]
    split
    · rfl
    · exact hout id lines
  | getBuffer id limit =>
    simp only [serve, getBuffer]
    split
    · rfl
    · simp [hv rfl]
  | scrollBuffer id delta limit =>
    simp only [serve, scrollBuffer]
    split
    · rfl
    · simp [hv rfl, hp]
  | getSystemBuffer limit => simp [serve, hv rfl]
  | _ =>
    simp only [serve, createTab, closeTab, activateTab, setModel, switchRepo, renewSession,
      setTheme, appendSystem, appendHistory, touchTab, sendPromptCheck, sendPromptPublish,
      consumeComplete, lookupTab, updateTab]
    repeat' split
    all_goals first | rfl | simp [he, hp]

/-- Stores and saves are never left by a section; they arise from other acts. -/
def Act.initial : Act Text → Bool
  | .emit _ => true
  | .view _ _ => true
  | .persist => true
  | _ => false

theorem serve_initial (op : Op) : (serve env ctx st op).todo.all Act.initial = true :=
  serve_todo_all env ctx st (fun _ => rfl) rfl (fun _ _ _ => rfl)

/-- The acts of a call that reads no view. -/
def Act.plain : Act Text → Bool
  | .emit _ => true
  | .persist => true
  | .save _ => true
  | _ => false

theorem serve_plain (h : op.views = false) : (serve env ctx st op).todo.all Act.plain = true :=
  serve_todo_all env ctx st (fun _ => rfl) rfl (fun hv => by simp [h] at hv)

end Centaurx
