import Centaurx.RunnerContainer.Invariant
import Centaurx.RunnerContainer.Requests

namespace Centaurx.RunnerContainer
open Go Function Runs List Provider StartStage

/-- The tab for which a call is about to ask the table. -/
def Call.asks : Call → Option (TabKey × TabID)
  | .waiting key tab _ | .lookup key tab => some (key, tab)
  | .idle | .naming .. | .starting .. | .closing .. | .stopping .. | .returned _ | .panicked => none

/-- Every entry of the table has a tab, and all its tabs are open. -/
structure Tracked (isOpen : UserID → TabID → Prop) (s : Provider) : Prop where
  entries : ∀ key e, s.table key = some e → key.tab = [] ∧ (s.entries e).tabs ≠ ∅ ∧
    ∀ tab ∈ (s.entries e).tabs, isOpen key.user tab ∧ blank tab = false
  calls : ∀ i key tab, (s.calls i).asks = some (key, tab) →
    isOpen key.user tab ∧ blank tab = false

/-- How many steps a start takes at most until it returns. -/
def StartStage.left : StartStage → ℕ
  | .prepare => 6
  | .ensure => 5
  | .connect _ => 4
  | .stopFailed .. => 3
  | .removeFailed .. => 2
  | .finish _ => 1

/-- How many steps a call of `RunnerFor` takes at most until it returns, if it need not wait. -/
def Call.left : Call → ℕ
  | .waiting .. => 7
  | .starting _ stage => stage.left
  | .lookup .. => 2
  | .naming .. => 1
  | .idle | .closing .. | .stopping .. | .returned _ | .panicked => 0

/-- No entry is added and none gets another tab, and no call begins to ask. -/
structure Recedes (s s' : Provider) : Prop where
  table : ∀ key e, s'.table key = some e →
    s.table key = some e ∧ (s'.entries e).tabs = (s.entries e).tabs
  calls : ∀ i, (s'.calls i).asks = none ∨ (s'.calls i).asks = (s.calls i).asks

/-- Besides, no call has more steps ahead. -/
structure Settles (s s' : Provider) : Prop extends Recedes s s' where
  left : ∀ i, (s'.calls i).left ≤ (s.calls i).left

section Settle
variable {s s' : Provider}

theorem put_self (s : Provider) (i : ℕ) (call : Call) : (s.put i call).calls i = call :=
  update_self ..

theorem put_of_ne (s : Provider) {i j : ℕ} (hj : j ≠ i) (call : Call) :
    (s.put i call).calls j = s.calls j :=
  update_of_ne hj ..

theorem asks_of_left {call : Call} (h : call.left = 0) : call.asks = none := by
  cases call with
  | waiting | lookup => simp [Call.left] at h
  | _ => rfl

theorem stopAll_left (reason : StopReason) (items : List ℕ) :
    (stopAll reason items).left = 0 := by
  cases items <;> rfl

theorem Settles.refl (s : Provider) : Settles s s :=
  ⟨⟨fun _ _ h => ⟨h, rfl⟩, fun _ => .inr rfl⟩, fun _ => le_rfl⟩

theorem Settles.put (h : Settles s s') (i : ℕ) {call : Call}
    (hcall : call.asks = none ∨ call.asks = (s.calls i).asks)
    (hleft : call.left ≤ (s.calls i).left) : Settles s (s'.put i call) := by
  refine ⟨⟨h.table, fun j => ?_⟩, fun j => ?_⟩
  · by_cases hj : j = i
    · subst hj
      rwa [put_self]
    · rw [put_of_ne _ hj]
      exact h.calls j
  · by_cases hj : j = i
    · subst hj
      rwa [put_self]
    · rw [put_of_ne _ hj]
      exact h.left j

theorem Settles.putEnd (h : Settles s s') (i : ℕ) {call : Call} (hleft : call.left = 0) :
    Settles s (s'.put i call) :=
  h.put i (.inl (asks_of_left hleft)) (hleft ▸ Nat.zero_le _)

theorem Settles.putStart (h : Settles s s') {i e : ℕ} {stage stage' : StartStage}
    (hcall : s.calls i = .starting e stage) (hleft : stage'.left ≤ stage.left) :
    Settles s (s'.put i (.starting e stage')) := by
  refine h.put i (.inl rfl) ?_
  rw [hcall]
  exact hleft

theorem Settles.modify (h : Settles s s') (e : ℕ) {f : Entry → Entry}
    (hf : ∀ x, (f x).tabs = x.tabs) : Settles s (s'.modify e f) := by
  refine ⟨⟨fun key e' he' => ?_, h.calls⟩, h.left⟩
  obtain ⟨htable, htabs⟩ := h.table key e' he'
  refine ⟨htable, ?_⟩
  by_cases he : e' = e
  · subst he
    simp [Provider.modify, hf, htabs]
  · simp [Provider.modify, update_of_ne he, htabs]

theorem Settles.untable (h : Settles s s') (keys : List TabKey) : Settles s (s'.untable keys) := by
  refine ⟨⟨fun key e he => ?_, h.calls⟩, h.left⟩
  simp only [Provider.untable] at he
  split_ifs at he
  exact h.table key e he

theorem Settles.setState (h : Settles s s') (c : ℕ) (state : ContainerState) :
    Settles s (s'.setState c state) := ⟨⟨h.table, h.calls⟩, h.left⟩

theorem Settles.setDir (h : Settles s s') (key : TabKey) (owner : Option ℕ) :
    Settles s (s'.setDir key owner) := ⟨⟨h.table, h.calls⟩, h.left⟩

theorem Settles.setRuns (h : Settles s s') (runs : List Run) :
    Settles s { s' with runs := runs } := ⟨⟨h.table, h.calls⟩, h.left⟩

theorem Settles.count (h : Settles s s') (key : TabKey) (f : ℕ → ℕ) :
    Settles s (s'.count key f) := by
  rw [Provider.count]
  split
  · exact h
  · exact h.modify _ fun _ => rfl

theorem Settles.take (h : Settles s s') (i : ℕ) (reason : StopReason) (items : List ℕ) :
    Settles s (s'.take i reason items) :=
  (h.untable _).putEnd i (stopAll_left reason items)

theorem start_settles (cfg : Config) {i e : ℕ} (answer : Option GoString) {stage : StartStage}
    (hcall : s.calls i = .starting e stage) : Settles s (s.start cfg i e answer stage) := by
  have h := Settles.refl s
  cases stage with
  | prepare =>
    cases answer with
    | some err => exact h.putStart hcall (by simp [left])
    | none => exact (h.setDir _ _).putStart hcall (by simp [left])
  | ensure =>
    cases answer with
    | some err => exact h.putStart hcall (by simp [left])
    | none =>
      have hensured : ∀ name, Settles s (s.ensureRunning cfg name) :=
        fun _ => ⟨⟨h.table, h.calls⟩, h.left⟩
      exact (hensured _).putStart hcall (by simp [left])
  | connect c =>
    cases answer <;> exact h.putStart hcall (by simp [left])
  | stopFailed c _ | removeFailed c _ =>
    exact (h.setState c _).putStart hcall (by simp [left])
  | finish result =>
    cases result <;>
    · refine (h.modify e ?_).putEnd i ?_
      · exact fun _ => rfl
      · rfl

theorem stopRunner_settles (i : ℕ) (reason : StopReason) (e : ℕ) (rest : List ℕ)
    (stage : StopStage) : Settles s (s.stopRunner i reason e rest stage) := by
  have h := Settles.refl s
  cases stage with
  | cancel =>
    refine (h.modify e ?_).putEnd i ?_
    · exact fun _ => rfl
    · rfl
  | stop | remove =>
    simp only [stopRunner]
    split
    · exact h.putEnd i rfl
    · exact (h.setState _ _).putEnd i rfl
  | removeDir => exact (h.setDir _ _).putEnd i (stopAll_left reason rest)

/-- A call that goes on asks for no other tab, and only a lookup adds the tab that it asks for. -/
theorem advance_settles (cfg : Config) (i : ℕ) (answer : Option GoString) :
    Settles s (s.advance cfg i answer) ∨
      ∃ key tab e, (s.calls i).asks = some (key, tab) ∧ s.table key = some e ∧
        s.advance cfg i answer = (s.modify e fun x => trackTab cfg tab
          { x with lastUsed := some s.now }).put i (.naming e ⟨(s.entries e).client, key⟩) := by
  have h := Settles.refl s
  unfold advance
  cases hcall : s.calls i with
  | idle | returned | panicked => exact .inl h
  | waiting key tab e =>
    dsimp only
    split_ifs
    · exact .inl h
    · refine .inl (h.put i (.inr ?_) ?_)
      · rw [hcall]
        rfl
      · rw [hcall]
        exact show 2 ≤ 7 by decide
  | lookup key tab =>
    dsimp only [Provider.lookup]
    split
    · exact .inl (h.putEnd i rfl)
    · next e htable =>
      split
      · exact .inl ((h.untable [key]).putEnd i rfl)
      · exact .inr ⟨key, tab, e, rfl, htable, rfl⟩
  | naming e runner =>
    dsimp only
    split_ifs <;> exact .inl (h.putEnd i rfl)
  | starting e stage => exact .inl (start_settles cfg answer hcall)
  | closing key e =>
    dsimp only [closeEntry]
    cases s.table key with
    | none => exact .inl (h.putEnd i rfl)
    | some e => exact .inl (h.take i .keepaliveMissed [e])
  | stopping reason stage e rest => exact .inl (stopRunner_settles i reason e rest stage)

theorem background_settles (cfg : Config) {l : Label} (hl : l.background = true)
    (hadvance : ∀ i answer, l ≠ .advance i answer) : Settles s (s.step cfg l) := by
  have h := Settles.refl s
  cases l with
  | runnerFor | closeTab => cases hl
  | advance i answer => exact absurd rfl (hadvance i answer)
  | closeAll rank | collectIdle rank => exact h.take _ _ _
  | cancel i err =>
    simp only [Provider.step, cancel]
    split
    · exact h.putEnd i rfl
    all_goals exact h
  | ping e ok =>
    simp only [Provider.step, ping]
    split
    · exact h
    · split_ifs
      · exact h
      · refine (h.modify e ?_).putEnd _ ?_
        · exact fun _ => rfl
        · rfl
      · exact h.modify e fun _ => rfl
      · refine (h.modify e ?_).putEnd _ ?_
        · exact fun _ => rfl
        · rfl
      · exact h.modify e fun _ => rfl
  | exit e =>
    simp only [Provider.step, exit]
    split
    · exact h
    · split_ifs
      · exact h.modify e fun _ => rfl
      · exact h
  | startRun i =>
    simp only [Provider.step, startRun]
    split
    · split
      · exact h.count _ _
      · exact (h.count _ _).setRuns _
    all_goals exact h
  | finishRun k =>
    simp only [Provider.step, finishRun]
    split
    · exact h
    · split_ifs
      · exact h
      · exact (h.count _ _).setRuns _
  | autoRemove c =>
    simp only [Provider.step, autoRemove]
    split_ifs
    · exact h.setState c _
    · exact h
  | tick d => exact ⟨⟨h.table, h.calls⟩, h.left⟩

theorem Tracked.recede {isOpen : UserID → TabID → Prop} (h : Tracked isOpen s)
    (hs : Recedes s s') : Tracked isOpen s' := by
  refine ⟨fun key e he => ?_, fun i key tab hask => ?_⟩
  · obtain ⟨htable, htabs⟩ := hs.table key e he
    rw [htabs]
    exact h.entries key e htable
  · rcases hs.calls i with hnone | hsame
    · rw [hnone] at hask
      cases hask
    · exact h.calls i key tab (hsame ▸ hask)

theorem Tracked.mono {isOpen isOpen' : UserID → TabID → Prop} (h : Tracked isOpen s)
    (himp : ∀ u tab, isOpen u tab → isOpen' u tab) : Tracked isOpen' s := by
  refine ⟨fun key e he => ?_, fun i key tab hask => ?_⟩
  · obtain ⟨hkey, hne, htabs⟩ := h.entries key e he
    exact ⟨hkey, hne, fun tab ht => ⟨himp _ _ (htabs tab ht).1, (htabs tab ht).2⟩⟩
  · exact ⟨himp _ _ (h.calls i key tab hask).1, (h.calls i key tab hask).2⟩

end Settle

section Track
variable {cfg : Config} {isOpen : UserID → TabID → Prop} {s : Provider}

theorem Tracked.calls_put (h : Tracked isOpen s) {s' : Provider} (hs' : s'.calls = s.calls)
    (i : ℕ) {call : Call} (hcall : ∀ key t, call.asks = some (key, t) →
      isOpen key.user t ∧ blank t = false) (j : ℕ) (key : TabKey) (t : TabID)
    (hask : ((s'.put i call).calls j).asks = some (key, t)) :
    isOpen key.user t ∧ blank t = false := by
  by_cases hj : j = i
  · rw [hj, put_self] at hask
    exact hcall key t hask
  · rw [put_of_ne _ hj, hs'] at hask
    exact h.calls j key t hask

theorem Tracked.track (hscope : cfg.scope = .user) (h : Tracked isOpen s) (hwf : s.core.Wf)
    {key : TabKey} {tab : TabID} {e : ℕ} (htable : s.table key = some e)
    (htab : isOpen key.user tab ∧ blank tab = false) (i now : ℕ) (runner : TrackedRunner) :
    Tracked isOpen ((s.modify e fun x => trackTab cfg tab
      { x with lastUsed := some now }).put i (.naming e runner)) := by
  refine ⟨fun key' e' he' => ?_, h.calls_put rfl i fun _ _ hask => by cases hask⟩
  obtain ⟨hkey, hne, htabs⟩ := h.entries key' e' he'
  by_cases he : e' = e
  · -- an entry is in the table under one key only
    subst he
    have hsame : key' = key := ((hwf.table key' e' he').1.symm.trans (hwf.table key e' htable).1)
    subst hsame
    simp only [put, Provider.modify, update_self, trackTab, hscope]
    refine ⟨hkey, Finset.insert_ne_empty _ _, fun t ht => ?_⟩
    rcases Finset.mem_insert.mp ht with rfl | ht
    · exact htab
    · exact htabs t ht
  · simp only [put, Provider.modify, update_of_ne he]
    exact ⟨hkey, hne, htabs⟩

theorem Tracked.runnerFor (hscope : cfg.scope = .user) (h : Tracked isOpen s) (hwf : s.core.Wf)
    {user : UserID} {tab : TabID} (htab : isOpen user tab) :
    Tracked isOpen (s.runnerFor cfg user tab) := by
  have hput : ∀ {call : Call}, (∀ key t, call.asks = some (key, t) →
      isOpen key.user t ∧ blank t = false) → Tracked isOpen (s.put s.begun call) :=
    fun hcall => ⟨h.entries, h.calls_put rfl _ hcall⟩
  unfold Provider.runnerFor
  split_ifs with huser hblank
  · exact hput fun _ _ hask => by cases hask
  · exact hput fun _ _ hask => by cases hask
  · have hkey : keyFor cfg user tab = ⟨user, []⟩ := by simp [keyFor, hscope]
    have hnew : isOpen user tab ∧ blank tab = false := ⟨htab, by simpa using hblank⟩
    simp only [hkey]
    split
    · next e htable =>
      refine hput fun key t hask => ?_
      have hasked : (key, t) = ((⟨user, []⟩ : TabKey), tab) := by
        split_ifs at hask <;> exact (Option.some.inj hask).symm
      obtain ⟨rfl, rfl⟩ := Prod.mk.inj hasked
      exact hnew
    · next hnone =>
      refine ⟨fun key e he => ?_, h.calls_put rfl _ fun _ _ hask => by cases hask⟩
      simp only [newEntry, put, update_apply] at he ⊢
      split_ifs at he with hk
      · obtain rfl := Option.some.inj he
        rw [if_pos rfl, hk]
        simp only [trackTab, hscope]
        refine ⟨trivial, Finset.insert_ne_empty _ _, fun t ht => ?_⟩
        rcases Finset.mem_insert.mp ht with rfl | ht
        · exact hnew
        · cases ht
      · have hlt : e < s.made := (hwf.table key e he).2
        rw [if_neg (Nat.ne_of_lt hlt)]
        exact h.entries key e he

theorem Tracked.step (hscope : cfg.scope = .user) (h : Tracked isOpen s) (hwf : s.core.Wf)
    {l : Label} (hl : ∀ user tab, l ≠ .closeTab user tab)
    (hrunner : ∀ user tab, l = .runnerFor user tab → isOpen user tab) :
    Tracked isOpen (s.step cfg l) := by
  cases l with
  | closeTab user tab => exact absurd rfl (hl user tab)
  | runnerFor user tab => exact h.runnerFor hscope hwf (hrunner user tab rfl)
  | advance i answer =>
    simp only [Provider.step]
    rcases advance_settles cfg i answer with hs | ⟨key, tab, e, hask, htable, hs⟩
    · exact h.recede hs.toRecedes
    · rw [hs]
      exact h.track hscope hwf htable (h.calls i key tab hask) i s.now _
  | _ => exact h.recede (background_settles cfg rfl fun _ _ heq => by cases heq).toRecedes

/-- No call of `RunnerFor` is in progress. -/
def Calm (s : Provider) : Prop := ∀ i, (s.calls i).left = 0

theorem Calm.put (h : Calm s) {s' : Provider} (hs' : s'.calls = s.calls) (i : ℕ) {call : Call}
    (hcall : call.left = 0) : Calm (s'.put i call) := by
  intro j
  by_cases hj : j = i
  · rw [hj, put_self, hcall]
  · rw [put_of_ne _ hj, hs']
    exact h j

theorem Calm.asks (h : Calm s) (i : ℕ) : (s.calls i).asks = none := asks_of_left (h i)

theorem Calm.closeTab (h : Calm s) (cfg : Config) (user : UserID) (tab : TabID) :
    Calm (s.closeTab cfg user tab) := by
  unfold Provider.closeTab
  split_ifs
  · exact h.put rfl _ rfl
  · exact h.put rfl _ rfl
  · split
    · exact h.put rfl _ rfl
    · split
      · exact h.put rfl _ (stopAll_left _ _)
      · dsimp only
        split_ifs
        · exact h.put rfl _ (stopAll_left _ _)
        · exact h.put rfl _ rfl

/-- What is left of the entries when a tab is closed. -/
theorem closeTab_entry (hscope : cfg.scope = .user) (hwf : s.core.Wf)
    (hkeys : ∀ key e, s.table key = some e → key.tab = []) {user : UserID} {tab : TabID}
    (huser : blank user = false) {key : TabKey} {e : ℕ}
    (he : (s.closeTab cfg user tab).table key = some e) :
    s.table key = some e ∧
      (((s.closeTab cfg user tab).entries e).tabs = (s.entries e).tabs ∧
          (key.user = user → blank tab = true) ∨
        ((s.closeTab cfg user tab).entries e).tabs = (s.entries e).tabs.erase tab ∧
          (s.entries e).tabs.erase tab ≠ ∅) := by
  unfold Provider.closeTab at he ⊢
  rw [if_neg (by simp [huser])] at he ⊢
  split_ifs at he ⊢ with hblank
  · exact ⟨he, .inl ⟨rfl, fun _ => hblank⟩⟩
  · have hkeyFor : keyFor cfg user tab = ⟨user, []⟩ := by simp [keyFor, hscope]
    have husers : s.table key = some e → key.user = user → key = ⟨user, []⟩ := by
      rintro hold rfl
      rw [← hkeys key e hold]
    simp only [hkeyFor, hscope] at he ⊢
    cases htable : s.table ⟨user, []⟩ with
    | none =>
      simp only [htable] at he ⊢
      refine ⟨he, .inl ⟨rfl, fun hu => ?_⟩⟩
      rw [husers he hu] at he
      cases htable.symm.trans he
    | some e₀ =>
      have hkey₀ : (s.entries e₀).key = ⟨user, []⟩ := (hwf.table _ e₀ htable).1
      have hold : s.table key = some e := by
        simp only [htable] at he
        split_ifs at he
        · simp only [Provider.take, Provider.untable, put] at he
          split_ifs at he
          exact he
        · exact he
      simp only [htable] at he ⊢
      by_cases hk : key = ⟨user, []⟩
      · subst hk
        obtain rfl : e₀ = e := Option.some.inj (htable.symm.trans hold)
        split_ifs at he ⊢ with hempty
        · -- the last tab of the entry: it is taken out of the table to be stopped
          simp [Provider.take, Provider.untable, put, Provider.modify, hkey₀] at he
        · simp only [Provider.modify, update_self] at hempty
          exact ⟨hold, .inr ⟨by simp [returned, put, Provider.modify], hempty⟩⟩
      · -- an entry is in the table under one key only
        have hne : e ≠ e₀ := by
          rintro rfl
          exact hk ((hwf.table key e hold).1.symm.trans hkey₀)
        refine ⟨hold, .inl ⟨?_, fun hu => absurd (husers hold hu) hk⟩⟩
        split_ifs <;> simp [Provider.take, Provider.untable, returned, put,
          Provider.modify, update_of_ne hne]

/-- A tab that the provider closes is in no entry any more. -/
theorem Tracked.closeTab (hscope : cfg.scope = .user) (h : Tracked isOpen s) (hwf : s.core.Wf)
    (hcalm : Calm s) {user : UserID} {tab : TabID} (huser : blank user = false) :
    Tracked (fun u t => isOpen u t ∧ ¬(u = user ∧ t = tab)) (s.closeTab cfg user tab) := by
  refine ⟨fun key e he => ?_, fun i key t hask => ?_⟩
  · obtain ⟨hold, hcase⟩ :=
      closeTab_entry hscope hwf (fun key e he => (h.entries key e he).1) huser he
    obtain ⟨hkey, hsome, htabs⟩ := h.entries key e hold
    rcases hcase with ⟨hsame, hblank⟩ | ⟨herase, hne⟩
    · rw [hsame]
      refine ⟨hkey, hsome, fun t ht => ⟨⟨(htabs t ht).1, fun hc => ?_⟩, (htabs t ht).2⟩⟩
      have htab := (htabs t ht).2
      rw [hc.2, hblank hc.1] at htab
      cases htab
    · rw [herase]
      refine ⟨hkey, hne, fun t ht => ?_⟩
      obtain ⟨hother, ht⟩ := Finset.mem_erase.mp ht
      exact ⟨⟨(htabs t ht).1, fun hc => hother hc.2⟩, (htabs t ht).2⟩
  · rw [(hcalm.closeTab cfg user tab).asks i] at hask
    cases hask

end Track

/-- An entry that is starting is started by a call. -/
def Core.Tended (c : Core) : Prop :=
  ∀ e < c.made, c.starting e = true → ∃ i, (c.calls i).starts = some e

theorem Core.Tended.put {c : Core} (h : c.Tended) {i : ℕ} {q : Call}
    (hq : q.starts = (c.calls i).starts) : (c.put i q).Tended := by
  intro e he hstart
  obtain ⟨j, hj⟩ := h e he hstart
  refine ⟨j, ?_⟩
  rw [Core.put_calls]
  split_ifs with hji
  · rw [hq, ← hji, hj]
  · exact hj

theorem Core.Tended.finish {c c' : Core} (h : c.Tended) {i e : ℕ} {q : Call}
    (hcall : (c.calls i).starts = some e) (hmade : c'.made = c.made)
    (hstarting : c'.starting = update c.starting e false) (hcalls : c'.calls = c.calls) :
    (c'.put i q).Tended := by
  intro e' he' hstart
  have hne : e' ≠ e := by
    rintro rfl
    simp [Core.put, hstarting] at hstart
  have hold : c.starting e' = true := by
    simpa [Core.put, hstarting, update_of_ne hne] using hstart
  obtain ⟨j, hj⟩ := h e' (hmade ▸ he') hold
  refine ⟨j, ?_⟩
  rw [Core.put_calls, hcalls]
  split_ifs with hji
  · rw [hji, hcall] at hj
    exact absurd (Option.some.inj hj).symm hne
  · exact hj

theorem Move.tended {cfg : Config} {s : Provider} {l : Label} {c : Core}
    (hmove : Move cfg s l c) (hwf : s.core.Wf) (h : s.core.Tended) : c.Tended := by
  cases hmove with
  | stay | reap => exact h
  | startRun | finishRun =>
    simp only [Core.count]
    split <;> exact h
  | talk htalk => exact h.put htalk.starts
  | found hcall | unprepared hcall => exact h.put (by rw [hcall]; rfl)
  | drop hcall htable herr =>
    exact Core.Tended.put (c := s.core.untable _) h (by
      rw [show (s.core.untable _).calls _ = _ from hcall]; rfl)
  | new htable =>
    intro e he hstart
    by_cases hnew : e = s.core.made
    · exact ⟨s.core.begun, by rw [Core.put_calls, if_pos rfl, hnew]; rfl⟩
    · have hold : s.core.starting e = true := by
        simpa [Core.newEntry, Core.put, update_of_ne hnew] using hstart
      obtain ⟨j, hj⟩ := h e (by
        have : e < s.core.made + 1 := he
        omega) hold
      refine ⟨j, ?_⟩
      rw [Core.put_calls, if_neg]
      · exact hj
      · rintro rfl
        rw [hwf.idle _ (Nat.le_refl _)] at hj
        cases hj
  | prepare hcall => exact Core.Tended.put (c := s.core.setDir _ _) h (by
      rw [show (s.core.setDir _ _).calls _ = _ from hcall]; rfl)
  | ensure hcall hx => exact Core.Tended.put (c := s.core.setState _ _) h (by
      rw [show (s.core.setState _ _).calls _ = _ from hcall]; rfl)
  | halt hhalt hstate =>
    exact Core.Tended.put (c := s.core.setState _ _) h hhalt.starts
  | started hcall | failed hcall => exact h.finish (by rw [hcall]; rfl) rfl rfl rfl
  | take hcall htable hidle =>
    refine Core.Tended.put (c := s.core.untable _) h ?_
    rw [Core.stopAll_starts]
    rcases hcall with hcall | ⟨key, e, hcall⟩ <;>
      rw [show (s.core.untable _).calls _ = _ from hcall] <;> rfl
  | undir hcall =>
    refine Core.Tended.put (c := s.core.setDir _ _) h ?_
    rw [Core.stopAll_starts, show (s.core.setDir _ _).calls _ = _ from hcall]
    rfl

section Left
variable {cfg : Config} {s : Provider}

theorem start_left (i e : ℕ) (answer : Option GoString) (stage : StartStage) :
    ((s.start cfg i e answer stage).calls i).left ≤ stage.left - 1 := by
  cases stage with
  | prepare | ensure | connect => cases answer <;> simp [start, put_self, Call.left,
      left]
  | stopFailed | removeFailed => simp [start, put_self, Call.left, left]
  | finish result =>
    cases result <;> simp [start, returned, put_self, Call.left]

theorem advance_left (cfg : Config) (i : ℕ) (answer : Option GoString) (h : (s.calls i).left < 7) :
    ((s.advance cfg i answer).calls i).left ≤ (s.calls i).left - 1 := by
  unfold advance
  cases hcall : s.calls i with
  | idle | returned | panicked => simp [hcall, Call.left]
  | waiting => simp [hcall, Call.left] at h
  | lookup key tab =>
    simp only [Provider.lookup]
    split
    · simp [returned, put_self, Call.left]
    · split <;> simp [returned, put_self, Call.left]
  | naming e runner =>
    dsimp only
    split_ifs <;> simp [returned, put_self, Call.left]
  | starting e stage => exact start_left i e answer stage
  | closing key e =>
    simp only [closeEntry]
    split
    · simp [returned, put_self, Call.left]
    · simp only [Provider.take, put_self, stopAll_left, Nat.zero_le]
  | stopping reason stage e rest =>
    cases stage with
    | stop | remove =>
      simp only [stopRunner]
      split <;> simp [put_self, Call.left]
    | cancel => simp [stopRunner, put_self, Call.left]
    | removeDir => simp only [stopRunner, put_self, stopAll_left, Nat.zero_le]

theorem advance_left_of_ne (cfg : Config) (s : Provider) {i : ℕ} (answer : Option GoString) {j : ℕ}
    (hj : j ≠ i) :
    ((s.advance cfg i answer).calls j).left ≤ (s.calls j).left := by
  rcases advance_settles cfg i answer with hs | ⟨key, tab, e, -, -, hs⟩
  · exact hs.left j
  · rw [hs, put_of_ne _ hj]
    rfl

theorem Calm.settle (h : Calm s) {s' : Provider} (hs' : Settles s s') : Calm s' :=
  fun i => Nat.le_zero.mp (h i ▸ hs'.left i)

theorem Calm.step (h : Calm s) {l : Label} (hl : l.background = true) : Calm (s.step cfg l) := by
  cases l with
  | runnerFor | closeTab => cases hl
  | advance i answer =>
    rcases advance_settles cfg i answer with hs | ⟨key, tab, e, hask, -⟩
    · exact h.settle hs
    · rw [h.asks i] at hask
      cases hask
  | _ => exact h.settle (background_settles cfg rfl fun _ _ heq => by cases heq)

theorem Calm.starts (h : Calm s) (i : ℕ) : (s.calls i).starts = none := by
  have hi := h i
  cases hcall : s.calls i with
  | starting e stage => cases stage <;> simp [hcall, Call.left, left] at hi
  | _ => rfl

theorem Calm.background (h : Calm s) {ls : List Label} (hls : ∀ l ∈ ls, l.background = true) :
    Calm (exec (Provider.step cfg) s ls) :=
  exec_invariant_of_mem (fun _ _ hs hl => hs.step hl) h hls

theorem advance_background {i : ℕ} {answers : List (Option GoString)} :
    ∀ l ∈ answers.map (Label.advance i), l.background = true := by
  intro l hl
  obtain ⟨answer, -, rfl⟩ := mem_map.mp hl
  rfl

/-- A call that need not wait has returned after enough steps; the other calls stay. -/
theorem advances_left (i : ℕ) (answers : List (Option GoString))
    (hleft : (s.calls i).left ≤ answers.length) (hlen : answers.length < 7)
    (hothers : ∀ j, j ≠ i → (s.calls j).left = 0) :
    Calm (exec (Provider.step cfg) s (answers.map (.advance i))) := by
  -- Every step takes one off what the call has left.
  induction answers generalizing s with
  | nil =>
    intro j
    by_cases hj : j = i
    · rw [hj]
      exact Nat.le_zero.mp hleft
    · exact hothers j hj
  | cons answer answers ih =>
    have hlt : (s.calls i).left < 7 := Nat.lt_of_le_of_lt hleft hlen
    refine ih ?_ (Nat.lt_of_succ_lt hlen) fun j hj => ?_
    · have hnext := advance_left cfg i answer hlt
      rw [length_cons] at hleft
      simp only [Provider.step]
      omega
    · have hnext := advance_left_of_ne cfg s answer hj
      rw [hothers j hj] at hnext
      exact Nat.le_zero.mp hnext

/-- Between calls: nobody starts an entry or asks the table. -/
structure Rests (s : Provider) : Prop where
  wf : s.core.Wf
  tended : s.core.Tended
  calm : Calm s

theorem Rests.ready (h : Rests s) {key : TabKey} {e : ℕ} (htable : s.table key = some e) :
    (s.entries e).starting = false := by
  cases hstart : (s.entries e).starting with
  | false => rfl
  | true =>
    obtain ⟨i, hi⟩ := h.tended e (h.wf.table _ e htable).2 hstart
    rw [show (s.core.calls i).starts = none from h.calm.starts i] at hi
    cases hi

theorem runnerFor_left (cfg : Config) (h : Rests s) (user : UserID) (tab : TabID) :
    ((s.runnerFor cfg user tab).calls s.begun).left ≤ 6 ∧
      ∀ j, j ≠ s.begun → ((s.runnerFor cfg user tab).calls j).left = 0 := by
  have hput : ∀ {s' : Provider} {call : Call}, s'.calls = s.calls → call.left ≤ 6 →
      ((s'.put s.begun call).calls s.begun).left ≤ 6 ∧
        ∀ j, j ≠ s.begun → ((s'.put s.begun call).calls j).left = 0 := by
    intro s' call hs' hcall
    refine ⟨by rwa [put_self], fun j hj => ?_⟩
    rw [put_of_ne _ hj, hs']
    exact h.calm j
  unfold Provider.runnerFor
  split_ifs
  · exact hput rfl (Nat.zero_le _)
  · exact hput rfl (Nat.zero_le _)
  · dsimp only
    split
    · next e htable =>
      simp only [h.ready htable, Bool.false_eq_true, if_false]
      exact hput rfl (show 2 ≤ 6 by decide)
    · exact hput rfl (show 6 ≤ 6 by decide)

theorem labels_advance (i : ℕ) (answers : ℕ → Option GoString) :
    ((range 6).map fun k => Label.advance i (answers k)) =
      ((range 6).map answers).map (.advance i) := by
  rw [map_map]
  rfl

theorem Rests.exec (h : Rests s) {ls : List Label} (hcalm : Calm (exec (Provider.step cfg) s ls)) :
    Rests (exec (Provider.step cfg) s ls) := by
  have hsteps : (Runs.exec (Provider.step cfg) s ls).core.Wf ∧
      (Runs.exec (Provider.step cfg) s ls).core.Tended :=
    exec_invariant (I := fun s : Provider => s.core.Wf ∧ s.core.Tended) (fun s l hs =>
      ⟨wf_step hs.1 l, (step_move hs.1 l).tended hs.1 hs.2⟩) ⟨h.wf, h.tended⟩ ls
  exact ⟨hsteps.1, hsteps.2, hcalm⟩

theorem Rests.runnerFor (cfg : Config) (h : Rests s) (user : UserID) (tab : TabID)
    (answers : ℕ → Option GoString) : Rests (runnerFor cfg s user tab answers).1 := by
  obtain ⟨hleft, hothers⟩ := runnerFor_left cfg h user tab
  refine h.exec ?_
  rw [labels_advance]
  refine advances_left (s := s.runnerFor cfg user tab) _ _ ?_ (by simp) hothers
  rw [length_map, length_range]
  exact hleft

theorem Rests.closeRunner (cfg : Config) (h : Rests s) (user : UserID) (tab : TabID) :
    Rests (closeRunner cfg s user tab) := by
  refine h.exec ?_
  rw [← map_replicate]
  exact (h.calm.closeTab cfg user tab).background advance_background

end Left

end Centaurx.RunnerContainer
