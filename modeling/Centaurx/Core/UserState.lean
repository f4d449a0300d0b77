import Centaurx.Core.Tab
import Mathlib.Data.Finmap
import Mathlib.Data.List.Nodup

namespace Centaurx
open Go List

abbrev TabMap := Finmap (fun _ : TabID => Tab)

structure UserState where
  tabs : TabMap
  order : List TabID
  system : Buffer
  theme : ThemeName

/-- `removeTabID`: the first occurrence. -/
def removeTabID : List TabID → TabID → List TabID
  | [], _ => []
  | current :: rest, id => if current = id then rest else current :: removeTabID rest id

theorem removeTabID_eq_erase (order : List TabID) (id : TabID) :
    removeTabID order id = order.erase id := by
  induction order with
  | nil => rfl
  | cons current rest ih =>
    by_cases h : current = id
    · simp [removeTabID, h]
    · simp [removeTabID, h, ih]

/-- `sessionprefs.Prefs`; the active tab is a matter of the session, not of the user. -/
structure Prefs where
  fullCommandOutput : Bool
  activeTab : TabID
  deriving DecidableEq

/-- `activeTabFromContext`: the preferences after the call and the active tab. `firstKey`
is the key that Go's map iteration yields first. -/
def activeTabFromContext (firstKey : Finset TabID → TabID) (ctx : Option Prefs) (st : UserState) :
    Option Prefs × TabID :=
  match ctx with
  | none => (none, [])
  | some prefs =>
    if st.tabs.keys = ∅ then (some { prefs with activeTab := [] }, [])
    else if prefs.activeTab ≠ [] ∧ prefs.activeTab ∈ st.tabs then (ctx, prefs.activeTab)
    else
      let fallback := firstKey st.tabs.keys
      let chosen :=
        match st.order.head? with
        | some first => if first ∈ st.tabs then first else fallback
        | none => fallback
      (some { prefs with activeTab := chosen }, chosen)

namespace UserState

/-- A user without saved tabs. -/
def fresh (cfg : Config) : UserState where
  tabs := ∅
  order := []
  system := Buffer.newWithMaxLines cfg.bufferMaxLines
  theme := cfg.defaultTheme

def addTab (st : UserState) (t : Tab) : UserState :=
  { st with tabs := st.tabs.insert t.id t, order := st.order ++ [t.id] }

def deleteTab (st : UserState) (id : TabID) : UserState :=
  { st with tabs := st.tabs.erase id, order := removeTabID st.order id }

/-- A write through the pointer that the tab map holds for `id`. -/
def putTab (st : UserState) (id : TabID) (t : Tab) : UserState :=
  { st with tabs := st.tabs.insert id t }

/-- The tabs from left to right, as `ListTabs` and `snapshotUser` walk them. -/
def bar (st : UserState) : List Tab := st.order.filterMap (fun id => st.tabs.lookup id)

/-- The registry part: the order lists each key of the tab map once. -/
structure Registered (st : UserState) : Prop where
  nodup : st.order.Nodup
  mem_iff : ∀ id, id ∈ st.order ↔ id ∈ st.tabs

structure Ok (cfg : Config) (st : UserState) : Prop where
  registered : st.Registered
  tab : ∀ id t, st.tabs.lookup id = some t → t.Ok cfg id
  system : st.system.Ok cfg.bufferMaxLines
  theme : st.theme ≠ []

theorem fresh_ok (cfg : Config) : (fresh cfg).Ok cfg where
  registered := ⟨nodup_nil, fun id => by simpa [fresh] using Finmap.notMem_empty⟩
  tab id t h := by simp [fresh] at h
  system := Buffer.newWithMaxLines_ok cfg.bufferMaxLines_pos
  theme := cfg.defaultTheme_ne

variable {st : UserState}

theorem Registered.addTab (h : st.Registered) {t : Tab} (hnew : t.id ∉ st.order) :
    (st.addTab t).Registered := by
  constructor
  · simp only [UserState.addTab, nodup_append, nodup_singleton, true_and]
    refine ⟨h.nodup, ?_⟩
    intro a ha b hb hab
    rw [mem_singleton] at hb
    exact hnew (hb ▸ hab ▸ ha)
  · intro id
    simp only [UserState.addTab, mem_append, mem_singleton, Finmap.mem_insert, h.mem_iff]
    exact or_comm

theorem Registered.deleteTab (h : st.Registered) (id : TabID) : (st.deleteTab id).Registered := by
  simp only [UserState.deleteTab, removeTabID_eq_erase]
  constructor
  · exact h.nodup.erase id
  · intro id'
    rw [h.nodup.mem_erase_iff, Finmap.mem_erase, h.mem_iff]

theorem mem_putTab {id : TabID} {t t' : Tab} (hid : st.tabs.lookup id = some t) (id' : TabID) :
    id' ∈ (st.putTab id t').tabs ↔ id' ∈ st.tabs := by
  simp only [putTab, Finmap.mem_insert, or_iff_right_iff_imp]
  rintro rfl
  exact Finmap.mem_of_lookup_eq_some hid

theorem Registered.putTab (h : st.Registered) {id : TabID} {t t' : Tab}
    (hid : st.tabs.lookup id = some t) : (st.putTab id t').Registered :=
  ⟨h.nodup, fun id' => (h.mem_iff id').trans (mem_putTab hid id').symm⟩

theorem lookup_putTab (st : UserState) (id id' : TabID) (t : Tab) :
    (st.putTab id t).tabs.lookup id' = if id' = id then some t else st.tabs.lookup id' := by
  split_ifs with h
  · subst h
    exact Finmap.lookup_insert _
  · exact Finmap.lookup_insert_of_ne _ h

theorem lookup_addTab (st : UserState) (t : Tab) (id : TabID) :
    (st.addTab t).tabs.lookup id = if id = t.id then some t else st.tabs.lookup id :=
  lookup_putTab st t.id id t

theorem lookup_deleteTab (st : UserState) (id id' : TabID) :
    (st.deleteTab id).tabs.lookup id' = if id' = id then none else st.tabs.lookup id' := by
  split_ifs with h
  · subst h
    exact Finmap.lookup_erase _ _
  · exact Finmap.lookup_erase_ne h

inductive Step (cfg : Config) : UserState → UserState → Prop
  | refl (st : UserState) : Step cfg st st
  | add (st : UserState) (t : Tab) (ht : t.Ok cfg t.id) : Step cfg st (st.addTab t)
  | delete (st : UserState) (id : TabID) : Step cfg st (st.deleteTab id)
  | tab (st : UserState) (id : TabID) (t t' : Tab) (hid : st.tabs.lookup id = some t)
      (h : Tab.Step t t') : Step cfg st (st.putTab id t')
  | system (st : UserState) (ls : List GoString) :
      Step cfg st { st with system := st.system.append ls }
  | systemStore (st : UserState) (max : Int) (h0 : 0 ≤ max)
      (h1 : max ≤ st.system.lines.length) :
      Step cfg st { st with system := { st.system with scrollOffset := max } }
  | theme (st : UserState) (theme : ThemeName) (h : theme ≠ []) :
      Step cfg st { st with theme := theme }

/-- The id that a step adds to the order, if any. -/
def Adds (st st' : UserState) (id : TabID) : Prop := st'.order = st.order ++ [id]

variable {cfg : Config}

/-- What new tabs have and the steps of a tab keep, every tab has. -/
theorem Step.forall_tab {st' : UserState} (h : Step cfg st st') {P : TabID → Tab → Prop}
    (hnew : ∀ t, t.Ok cfg t.id → P t.id t) (hstep : ∀ id t t', Tab.Step t t' → P id t → P id t')
    (hst : ∀ id t, st.tabs.lookup id = some t → P id t) :
    ∀ id t, st'.tabs.lookup id = some t → P id t := by
  intro id s hl
  cases h with
  | refl | system | systemStore | theme => exact hst id s hl
  | add t ht =>
    rw [lookup_addTab] at hl
    split_ifs at hl with hid
    · obtain rfl : t = s := Option.some.inj hl
      exact hid ▸ hnew t ht
    · exact hst id s hl
  | delete id' =>
    rw [lookup_deleteTab] at hl
    split_ifs at hl
    exact hst id s hl
  | tab id' t t' hid ht =>
    rw [lookup_putTab] at hl
    split_ifs at hl with he
    · obtain rfl : t' = s := Option.some.inj hl
      exact he ▸ hstep id' t t' ht (hst id' t hid)
    · exact hst id s hl

theorem Step.ids {st' : UserState} (h : Step cfg st st')
    (hst : ∀ id t, st.tabs.lookup id = some t → t.id = id) :
    ∀ id t, st'.tabs.lookup id = some t → t.id = id :=
  h.forall_tab (fun _ _ => rfl) (fun _ _ _ ht hid => ht.id_eq.trans hid) hst

theorem Step.ok {st' : UserState} (h : Step cfg st st') (hst : st.Ok cfg)
    (hnew : ∀ id, Adds st st' id → id ∉ st.order) : st'.Ok cfg := by
  have htab := h.forall_tab (fun _ ht => ht) (fun _ _ _ ht hok => ht.ok hok) hst.tab
  cases h with
  | refl => exact hst
  | add t ht => exact ⟨hst.registered.addTab (hnew t.id rfl), htab, hst.system, hst.theme⟩
  | delete id => exact ⟨hst.registered.deleteTab id, htab, hst.system, hst.theme⟩
  | tab id t t' hid ht => exact ⟨hst.registered.putTab hid, htab, hst.system, hst.theme⟩
  | system ls =>
    exact ⟨⟨hst.registered.nodup, hst.registered.mem_iff⟩, hst.tab,
      Buffer.append_ok hst.system ls, hst.theme⟩
  | systemStore max h0 h1 =>
    exact ⟨⟨hst.registered.nodup, hst.registered.mem_iff⟩, hst.tab,
      hst.system.setOffset h0 h1, hst.theme⟩
  | theme theme h =>
    exact ⟨⟨hst.registered.nodup, hst.registered.mem_iff⟩, hst.tab, hst.system, h⟩

theorem Step.theme_ne {st' : UserState} (h : Step cfg st st') (hst : st.theme ≠ []) :
    st'.theme ≠ [] := by
  cases h with
  | theme theme h => exact h
  | _ => exact hst

end UserState

end Centaurx
