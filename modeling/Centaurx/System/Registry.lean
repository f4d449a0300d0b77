import Centaurx.System.Invariant

namespace Centaurx.World
open Go Runs List Function

variable {Text : Type} {n : ℕ} (env : Env Text)

/-- `CreateTab` appends one id, `CloseTab` takes one out where it stands, or fails, and nothing
else touches the order. -/
def OrderChange (st st' : UserState) : Op → Prop
  | .createTab rand _ _ => st'.order = st.order ++ [newID rand]
  | .closeTab id =>
    (id ∈ st.tabs ∧ ∃ l₁ l₂, st.order = l₁ ++ id :: l₂ ∧ st'.order = l₁ ++ l₂) ∨
      (id ∉ st.tabs ∧ st'.order = st.order)
  | _ => st'.order = st.order

/-- A call that enters works on the state in memory or, when there is none, on the loaded one,
and a file that is read gives back the order that was saved in it. -/
structure Entered (w w' : World Text n) (u : UserID) (op : Op) (readOK : Bool) (st : UserState) :
    Prop where
  change : ∃ st', w'.users u = some st' ∧ OrderChange st st' op
  source : w.users u = some st ∨
    (w.users u = none ∧
      ∀ snapshot, env.json.load (w.disk u) readOK = .loaded snapshot → st.order = snapshot.order)
  others : ∀ v, v ≠ u → w'.users v = w.users v

def OrderStep (w : World Text n) (l : Label n) (w' : World Text n) : Prop :=
  match l with
  | .connect _ => w'.users = w.users
  | .enter i _ u op readOK =>
    match w.found env u op readOK with
    | none => w' = w
    | some st => if w.admits env i u op then Entered env w w' u op readOK st else w' = w
  | .advance _ _ => ∀ u, (w'.users u).map UserState.order = (w.users u).map UserState.order
  | .restart => w'.disk = w.disk ∧ ∀ u, w'.users u = none

variable {env}

theorem serve_orderChange {st : UserState} (hst : st.Registered) (ctx : Option Prefs) (op : Op) :
    OrderChange st (serve env ctx st op).state op := by
  have ho := serve_order env ctx st op
  cases op with
  | closeTab id =>
    by_cases hid : id ∈ st.tabs
    · refine .inl ⟨hid, ?_⟩
      obtain ⟨l₁, l₂, -, heq, herase⟩ := exists_erase_eq ((hst.mem_iff id).mpr hid)
      refine ⟨l₁, l₂, heq, ?_⟩
      rw [ho]
      simp only [hid, if_true]
      exact herase
    · refine .inr ⟨hid, ?_⟩
      rw [ho]
      simp only [hid, if_false]
  | _ => exact ho

theorem perform_order (w : World Text n) (u : UserID) (ok : Bool) (a : Act Text) (v : UserID) :
    ((w.perform env u ok a).1.users v).map UserState.order =
      (w.users v).map UserState.order := by
  cases a with
  | store ref max =>
    simp only [perform, storeOffset]
    by_cases hv : v = u
    · subst hv
      rw [update_self, Option.map_map]
      congr 1
      funext st
      exact UserState.storeOffset_order st ref max
    · rw [update_of_ne hv]
  | save text =>
    simp only [perform]
    split_ifs <;> rfl
  | _ => rfl

theorem Good.source {w : World Text n} (h : w.Good env) {u : UserID} {op : Op} {readOK : Bool}
    {st : UserState} (hf : w.found env u op readOK = some st) :
    w.users u = some st ∨ (w.users u = none ∧
      ∀ snapshot, env.json.load (w.disk u) readOK = .loaded snapshot →
        st.order = snapshot.order) := by
  cases hu : w.users u with
  | some st₀ =>
    rw [found_of_memory hu (h.users u st₀ hu).ok.theme] at hf
    exact .inl hf
  | none =>
    refine .inr ⟨rfl, ?_⟩
    intro snapshot hload
    rw [found_of_none hu hf, hload]
    cases readOK with
    | false => simp [Json.load] at hload
    | true =>
      cases hd : w.disk u with
      | none => simp [Json.load, hd] at hload
      | some text =>
        -- The file was saved from a registered state, so no id is dropped from its order.
        obtain ⟨st₁, hst₁, rfl⟩ := h.disk u text hd
        have hv := fun id hid => h.drawn id (hst₁.known id hid)
        rw [hd, env.json.load_marshal] at hload
        obtain rfl := LoadResult.loaded.inj hload
        rw [(loadUserState_saved env.json hst₁.ok hv).2, (mapStrings_ids env.json hst₁.ok hv).1]

theorem Good.orderStep {w : World Text n} (h : w.Good env) (l : Label n) :
    OrderStep env w l (w.step env l) := by
  cases l with
  | connect session => rfl
  | enter i session u op readOK =>
    simp only [OrderStep, World.step]
    split
    · next hf => simp only [World.enter, hf, ite_self]
    · next st hf =>
      split_ifs
      · refine ⟨?_, h.source hf, ?_⟩
        · refine ⟨(serve env (w.sessions session) st op).state, ?_, ?_⟩
          · simp only [World.enter, hf, update_self]
          · exact serve_orderChange (h.found hf).ok.registered _ op
        · intro v hv
          simp only [World.enter, hf, update_of_ne hv]
      · rfl
  | advance i ok =>
    intro u
    simp only [World.step, World.advance]
    split
    · rfl
    · exact perform_order w _ ok _ u
  | restart => exact ⟨rfl, fun _ => rfl⟩

/-- In every run that draws no id twice, the order of each user lists the keys of the tab map,
each once, and every step changes the orders as described. -/
theorem tab_registry (env : Env Text) (ls : List (Label n))
    (hfresh : Meets (step env) DrawsFresh (birth : World Text n) ls) :
    (∀ u st, (exec (step env) (birth : World Text n) ls).users u = some st →
      st.order.Nodup ∧ ∀ id, id ∈ st.order ↔ id ∈ st.tabs) ∧
    Along (step env) (OrderStep env) (birth : World Text n) ls := by
  constructor
  · intro u st hu
    have hreg := ((good_of_run env hfresh).users u st hu).ok.registered
    exact ⟨hreg.nodup, hreg.mem_iff⟩
  · exact hfresh.along (fun _ _ h hl => h.step hl) (fun _ l h _ => h.orderStep l) (birth_good env)

/-- Two tabs of one user, a restart, and the closing of the first tab. -/
def tabsRun (i : Fin n) : List (Label n) :=
  [.enter i 0 (lit "alice") (.createTab (some (randBytes 1)) (lit "repo") []) true,
    .advance i true, .advance i true, .advance i true,
    .enter i 0 (lit "alice") (.createTab (some (randBytes 2)) (lit "repo") []) true,
    .advance i true, .advance i true, .advance i true, .restart,
    .enter i 0 (lit "alice") (.closeTab (lit "0000000000000001")) true]

theorem tab_registry_tabsRun :
    Meets (step (Env.stock Json.plain)) DrawsFresh birth (tabsRun (0 : Fin 1)) ∧
      ∃ st, (exec (step (Env.stock Json.plain)) birth (tabsRun (0 : Fin 1))).users
          (lit "alice") = some st ∧
        st.order = [lit "0000000000000002"] ∧ st.order.Nodup := by
  have hfresh : Meets (step (Env.stock Json.plain)) DrawsFresh birth (tabsRun (0 : Fin 1)) := by
    decide
  refine ⟨hfresh, _, rfl, by decide, ?_⟩
  exact ((tab_registry (Env.stock Json.plain) _ hfresh).1 (lit "alice") _ rfl).1

/-- Saving the state of a user and loading it again, from any state of such a run. -/
theorem restart_round_trip (env : Env Text) (ls : List (Label n))
    (hfresh : Meets (step env) DrawsFresh (birth : World Text n) ls) {u : UserID} {st : UserState}
    (hu : (exec (step env) (birth : World Text n) ls).users u = some st) (hv : st.ValidStrings) :
    let file := env.json.marshal (snapshotUser st)
    let st' := loadUserState env.cfg (env.json.load (some file) true)
    st'.order = st.order ∧ st'.system = st.system ∧ st'.theme = st.theme ∧
      ∀ id, st'.tabs.lookup id = (st.tabs.lookup id).map Tab.restarted := by
  intro file st'
  have hst := (good_of_run env hfresh).users u st hu
  have hload : st' = loadUserState env.cfg (.loaded (snapshotUser st)) :=
    congrArg (loadUserState env.cfg) (env.json.load_marshal_of_valid hv)
  rw [hload]
  exact loadUserState_snapshotUser hst.ok

/-- The tab that is left gets lines, an entry of the history and a scroll offset. -/
def filledRun : List (Label 4) :=
  tabsRun 0 ++
    [.enter 1 0 (lit "alice") (.appendOutput (lit "0000000000000002") [lit "a", lit "b"]) true,
      .enter 2 0 (lit "alice") (.appendHistory (lit "0000000000000002") (lit "ls")) true,
      .enter 3 0 (lit "alice") (.scrollBuffer (lit "0000000000000002") 1 1) true]

theorem restart_round_trip_filledRun :
    ∃ st t, (exec (step (Env.stock Json.plain)) birth filledRun).users (lit "alice") = some st ∧
      st.tabs.lookup (lit "0000000000000002") = some t ∧ t.buffer.lines = [lit "a", lit "b"] ∧
      t.buffer.scrollOffset = 1 ∧ t.history.entries = [lit "ls"] ∧ st.ValidStrings ∧
      (loadUserState stockConfig (Json.plain.load (some (snapshotUser st)) true)).tabs.lookup
        (lit "0000000000000002") = some t.restarted := by
  refine ⟨_, _, rfl, rfl, by decide, by decide, by decide, by decide, ?_⟩
  have h := restart_round_trip (u := lit "alice") (Env.stock Json.plain) filledRun
    (by decide) rfl (by decide)
  exact h.2.2.2 _

end Centaurx.World
