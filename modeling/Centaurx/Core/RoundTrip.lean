import Centaurx.Persist

namespace Centaurx
open Go List

def TabSnapshot.strings (s : TabSnapshot) : List GoString :=
  [s.id, s.name, s.repo, s.model, s.modelReasoningEffort, s.sessionID] ++ s.buffer.lines ++
    s.history

def UserSnapshot.strings (s : UserSnapshot) : List GoString :=
  s.order ++ s.tabs.flatMap TabSnapshot.strings ++ s.system.lines ++ [s.theme]

variable {f : GoString → GoString}

theorem map_eq_self {l : List GoString} (h : ∀ s ∈ l, f s = s) : l.map f = l := by
  simpa using map_congr_left (g := id) h

theorem TabSnapshot.mapStrings_eq_self {s : TabSnapshot} (h : ∀ x ∈ s.strings, f x = x) :
    s.mapStrings f = s := by
  simp only [strings, mem_append, mem_cons, not_mem_nil, or_false] at h
  have hl : s.buffer.lines.map f = s.buffer.lines :=
    map_eq_self (fun x hx => h x (.inl (.inr hx)))
  have hh : s.history.map f = s.history := map_eq_self (fun x hx => h x (.inr hx))
  simp only [mapStrings, PersistedBuffer.mapStrings, hl, hh, h s.id (by simp), h s.name (by simp),
    h s.repo (by simp), h s.model (by simp), h s.modelReasoningEffort (by simp),
    h s.sessionID (by simp)]

theorem UserSnapshot.mapStrings_eq_self {s : UserSnapshot} (h : ∀ x ∈ s.strings, f x = x) :
    s.mapStrings f = s := by
  simp only [strings, mem_append, mem_flatMap, mem_singleton] at h
  have ho : s.order.map f = s.order :=
    map_eq_self (fun x hx => h x (.inl (.inl (.inl hx))))
  have hl : s.system.lines.map f = s.system.lines :=
    map_eq_self (fun x hx => h x (.inl (.inr hx)))
  have ht : s.tabs.map (TabSnapshot.mapStrings f) = s.tabs := by
    refine (map_congr_left (g := id) fun t ht => ?_).trans (map_id _)
    exact TabSnapshot.mapStrings_eq_self (fun x hx => h x (.inl (.inl (.inr ⟨t, ht, hx⟩))))
  simp only [mapStrings, PersistedBuffer.mapStrings, ho, hl, ht, h s.theme (by simp)]

/-- A codec that keeps the snapshot itself, which is what `encoding/json` amounts to on
strings of valid UTF-8. -/
def Json.plain : Json UserSnapshot where
  str := id
  str_valid _ _ := rfl
  marshal := id
  unmarshal := some
  unmarshal_marshal _ := congrArg some (UserSnapshot.mapStrings_eq_self (fun _ _ => rfl)).symm

/-- Every string of the state is valid UTF-8. -/
def UserState.ValidStrings (st : UserState) : Prop :=
  ∀ s ∈ (snapshotUser st).strings, validUTF8 s = true

instance (st : UserState) : Decidable st.ValidStrings :=
  inferInstanceAs (Decidable (∀ s ∈ (snapshotUser st).strings, validUTF8 s = true))

section Bar

variable {cfg : Config} {st : UserState}

theorem UserState.bar_map (hst : st.Ok cfg) : st.bar.map Tab.id = st.order := by
  have hb : st.bar.map Tab.id = st.order.filterMap some := by
    rw [UserState.bar, map_filterMap]
    apply filterMap_congr
    intro id hid
    obtain ⟨t, ht⟩ := Finmap.mem_iff.mp ((hst.registered.mem_iff id).mp hid)
    rw [ht, Option.map_some, (hst.tab id t ht).id_eq]
  rw [hb, filterMap_some]

theorem snapshotUser_ids (hst : st.Ok cfg) :
    (snapshotUser st).tabs.map TabSnapshot.id = st.order := by
  rw [← UserState.bar_map hst]
  simp only [snapshotUser, map_map]
  rfl

theorem UserState.mem_bar (hst : st.Ok cfg) {id : TabID} {t : Tab}
    (ht : st.tabs.lookup id = some t) : t ∈ st.bar := by
  rw [UserState.bar, mem_filterMap]
  exact ⟨id, (hst.registered.mem_iff id).mpr (Finmap.mem_of_lookup_eq_some ht), ht⟩

/-- The ids in a decoded snapshot are the saved ones: the encoder keeps valid strings. -/
theorem mapStrings_ids {Text : Type} (json : Json Text) (hst : st.Ok cfg)
    (hv : ∀ id ∈ st.order, validUTF8 id = true) :
    ((snapshotUser st).mapStrings json.str).order = st.order ∧
      ((snapshotUser st).mapStrings json.str).tabs.map TabSnapshot.id = st.order := by
  have ho : st.order.map json.str = st.order :=
    map_eq_self (fun id hid => json.str_valid id (hv id hid))
  refine ⟨ho, ?_⟩
  calc ((snapshotUser st).mapStrings json.str).tabs.map TabSnapshot.id
      = ((snapshotUser st).tabs.map TabSnapshot.id).map json.str := by
        simp only [UserSnapshot.mapStrings, map_map]
        rfl
    _ = st.order := by rw [snapshotUser_ids hst, ho]

/-- Whatever the other strings are, a saved state comes back well formed and with its order. -/
theorem loadUserState_saved {Text : Type} (json : Json Text) (hst : st.Ok cfg)
    (hv : ∀ id ∈ st.order, validUTF8 id = true) :
    (loadUserState cfg (.loaded ((snapshotUser st).mapStrings json.str))).Ok cfg ∧
      (loadUserState cfg (.loaded ((snapshotUser st).mapStrings json.str))).order = st.order := by
  obtain ⟨ho, ht⟩ := mapStrings_ids json hst hv
  have hreg : ((snapshotUser st).mapStrings json.str).Registered := by
    constructor
    · rw [ho]
      exact hst.registered.nodup
    · intro id
      rw [ho, ht]
  have h := loadUserState_loaded cfg hreg
  rwa [ho] at h

theorem Tab.restore_exportTab {id : TabID} {t : Tab} (ht : t.Ok cfg id) :
    Tab.restore cfg t.exportTab = t.restarted := by
  simp only [Tab.restore, Tab.exportTab, Tab.restarted, ht.effort, Bool.false_eq_true, if_false,
    Buffer.newFromPersisted_exportBuffer ht.buffer,
    HistoryBuffer.newFromPersisted_entries ht.history]

theorem loadUserState_snapshotUser (hst : st.Ok cfg) :
    (loadUserState cfg (.loaded (snapshotUser st))).order = st.order ∧
      (loadUserState cfg (.loaded (snapshotUser st))).system = st.system ∧
      (loadUserState cfg (.loaded (snapshotUser st))).theme = st.theme ∧
      ∀ id, (loadUserState cfg (.loaded (snapshotUser st))).tabs.lookup id =
        (st.tabs.lookup id).map Tab.restarted := by
  have hids := snapshotUser_ids hst
  have hreg : (snapshotUser st).Registered :=
    ⟨hst.registered.nodup, fun id => by rw [hids]; rfl⟩
  refine ⟨(loadUserState_loaded cfg hreg).2, ?_, ?_, ?_⟩
  · exact Buffer.newFromPersisted_exportBuffer hst.system
  · simp only [loadUserState, snapshotUser, hst.theme, if_false]
  · intro id
    cases hl : st.tabs.lookup id with
    | none =>
      have hnot : id ∉ restoreTabs cfg (snapshotUser st).tabs := by
        rw [mem_restoreTabs, hids, hst.registered.mem_iff]
        exact Finmap.lookup_eq_none.mp hl
      simpa [loadUserState] using Finmap.lookup_eq_none.mpr hnot
    | some t =>
      have hn : ((snapshotUser st).tabs.map TabSnapshot.id).Nodup := hids ▸ hst.registered.nodup
      have hmem : t.exportTab ∈ (snapshotUser st).tabs :=
        mem_map_of_mem (UserState.mem_bar hst hl)
      have hlook := lookup_restoreTabs_of_mem cfg hn hmem
      rw [Tab.restore_exportTab (hst.tab id t hl)] at hlook
      have hid : t.exportTab.id = id := (hst.tab id t hl).id_eq
      rwa [hid] at hlook

end Bar

theorem Json.load_marshal {Text : Type} (json : Json Text) (s : UserSnapshot) :
    json.load (some (json.marshal s)) true = .loaded (s.mapStrings json.str) := by
  simp only [Json.load, json.unmarshal_marshal, if_true]

theorem Json.load_marshal_of_valid {Text : Type} (json : Json Text) {st : UserState}
    (hv : st.ValidStrings) :
    json.load (some (json.marshal (snapshotUser st))) true = .loaded (snapshotUser st) := by
  rw [json.load_marshal,
    UserSnapshot.mapStrings_eq_self (fun x hx => json.str_valid x (hv x hx))]

end Centaurx
