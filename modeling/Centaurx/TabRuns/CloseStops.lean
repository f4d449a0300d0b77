import Centaurx.TabRuns.Machine

namespace Centaurx
open Go Runs List Function

/-- The process that a call has started and not yet made known to the tab. -/
def Phase.holds : Phase → Option Proc
  | .started run => some (.run run.handle run.cancel)
  | .shellStarted c => some (.command c.handle c.cancel)
  | _ => none

/-- The step starts a process. -/
def RunLabel.starts {n : ℕ} : RunLabel n → Bool
  | .start _ => true
  | .startCommand _ => true
  | _ => false

def RunLabel.closes {n : ℕ} : RunLabel n → Bool
  | .close _ => true
  | _ => false

def RunLabel.publishes {n : ℕ} : RunLabel n → Bool
  | .publish _ => true
  | _ => false

namespace TabRuns

variable {n : ℕ}

/-- What a `CloseTab` now would hand over. -/
def stopNow (s : TabRuns n) : Stop := ⟨s.tab.run, s.tab.runCancel, s.tab.commands⟩

/-- Processes are started only while the tab is open; the tab is not closed between a start and
its publish or register section; and no publish section replaces a run that has not finished. -/
structure ClosesCleanly (s : TabRuns n) (l : RunLabel n) : Prop where
  start : l.starts = true → s.isOpen = true
  close : l.closes = true → ∀ i, (s.calls i).holds = none
  publish : l.publishes = true → ∀ p ∈ s.live, s.tab.run ≠ some p.handle

instance (s : TabRuns n) (l : RunLabel n) : Decidable (s.ClosesCleanly l) :=
  decidable_of_iff ((l.starts = true → s.isOpen = true) ∧
      (l.closes = true → ∀ i, (s.calls i).holds = none) ∧
      (l.publishes = true → ∀ p ∈ s.live, s.tab.run ≠ some p.handle))
    ⟨fun h => ⟨h.1, h.2.1, h.2.2⟩, fun h => ⟨h.start, h.close, h.publish⟩⟩

/-- Every live process is known: to the open tab or to the call that started it; and after the
close, to `stopTabHandles` or to the call that closed the tab. -/
structure Tracked (s : TabRuns n) : Prop where
  opened : s.isOpen = true → ∀ p ∈ s.live,
    s.stopNow.covers p = true ∨ ∃ i, (s.calls i).holds = some p
  released : s.isOpen = false → ∀ i, (s.calls i).holds = none
  closed : s.isOpen = false → ∀ p ∈ s.live, ∃ stop, stop.covers p = true ∧
    (stop ∈ s.closes ∨ ∃ i, s.calls i = .closing stop)

theorem init_tracked (t : Tab) : (init t : TabRuns n).Tracked where
  opened _ p hp := by simp [init] at hp
  released h := by simp [init] at h
  closed h := by simp [init] at h

section Step

variable {threads : RunHandle → SessionID} {s s' : TabRuns n}

/-- What a step may change without touching the invariant. -/
theorem Tracked.frame (h : s.Tracked) (hopen : s'.isOpen = s.isOpen)
    (hcloses : s'.closes = s.closes) (hlive : ∀ p ∈ s'.live, p ∈ s.live)
    (hstop : s.isOpen = true → ∀ p ∈ s'.live, s.stopNow.covers p = true →
      s'.stopNow.covers p = true)
    (hcalls : ∀ i, (s'.calls i).holds = (s.calls i).holds ∧
      ∀ stop, s.calls i = .closing stop → s'.calls i = .closing stop) : s'.Tracked := by
  refine ⟨?_, ?_, ?_⟩
  · intro ho p hp
    rw [hopen] at ho
    rcases h.opened ho p (hlive p hp) with hcov | ⟨i, hi⟩
    · exact .inl (hstop ho p hp hcov)
    · exact .inr ⟨i, (hcalls i).1.trans hi⟩
  · intro ho i
    rw [hopen] at ho
    exact (hcalls i).1.trans (h.released ho i)
  · intro ho p hp
    rw [hopen] at ho
    obtain ⟨stop, hcov, hin⟩ := h.closed ho p (hlive p hp)
    refine ⟨stop, hcov, ?_⟩
    rw [hcloses]
    exact hin.imp_right (fun ⟨i, hi⟩ => ⟨i, (hcalls i).2 stop hi⟩)

variable {i : Fin n}

theorem calls_setCall {q : Phase} (hheld : (s.calls i).holds = none)
    (hclosing : ∀ stop, s.calls i ≠ .closing stop) (hq : q.holds = none) (j : Fin n) :
    ((s.setCall i q).calls j).holds = (s.calls j).holds ∧
      ∀ stop, s.calls j = .closing stop → (s.setCall i q).calls j = .closing stop := by
  rcases s.setCall_cases i q j with ⟨rfl, heq⟩ | ⟨-, heq⟩
  · rw [heq]
    exact ⟨hq.trans hheld.symm, fun stop hs => absurd hs (hclosing stop)⟩
  · rw [heq]
    exact ⟨rfl, fun _ hs => hs⟩

theorem Tracked.setCall (h : s.Tracked) {q : Phase} (hheld : (s.calls i).holds = none)
    (hclosing : ∀ stop, s.calls i ≠ .closing stop) (hq : q.holds = none) :
    (s.setCall i q).Tracked :=
  h.frame rfl rfl (fun _ hl => hl) (fun _ _ _ hc => hc) (calls_setCall hheld hclosing hq)

theorem holds_update {calls : Fin n → Phase} {j : Fin n} {p : Proc} (hj : (calls j).holds = some p)
    (hne : (calls i).holds ≠ some p) (q : Phase) :
    (update calls i q j).holds = some p := by
  have hji : j ≠ i := by
    rintro rfl
    exact hne hj
  rwa [update_of_ne hji]

theorem Tracked.start (h : s.Tracked) (hopen : s.isOpen = true) {q : Phase} {p : Proc}
    (hi : (s.calls i).holds = none) (hq : q.holds = some p) (next : ℕ) :
    ({ s.setCall i q with next := next, live := s.live ++ [p] } : TabRuns n).Tracked := by
  refine ⟨?_, ?_, ?_⟩
  · intro _ p' hp'
    rcases mem_append.mp hp' with hp' | hp'
    · refine (h.opened hopen p' hp').imp_right (fun ⟨j, hj⟩ => ⟨j, ?_⟩)
      exact holds_update hj (by rw [hi]; simp) q
    · refine .inr ⟨i, ?_⟩
      rw [mem_singleton.mp hp']
      simpa [TabRuns.setCall] using hq
  · intro ho
    simp [TabRuns.setCall, hopen] at ho
  · intro ho
    simp [TabRuns.setCall, hopen] at ho

/-- A call has something to make known only while the tab is open. -/
theorem Tracked.isOpen_of_holds (h : s.Tracked) {p : Proc} (hi : (s.calls i).holds = some p) :
    s.isOpen = true := by
  by_contra hc
  have hnone := h.released (by simpa using hc) i
  rw [hi] at hnone
  simp at hnone

theorem Tracked.publish (h : s.Tracked) (hover : ∀ p ∈ s.live, s.tab.run ≠ some p.handle)
    {run : Run} (hi : s.calls i = .started run) : ({ s.setCall i .idle with
      tab := s.tab.publish run.handle run.cancel
      runs := s.runs ++ [run] } : TabRuns n).Tracked := by
  have hholds : (s.calls i).holds = some (.run run.handle run.cancel) := by rw [hi]; rfl
  have hopen := h.isOpen_of_holds hholds
  refine ⟨?_, ?_, ?_⟩
  · intro _ p hp
    rcases h.opened hopen p hp with hcov | ⟨j, hj⟩
    · left
      cases p with
      | run handle cancel =>
        -- The run that the tab knew so far has finished.
        exact absurd ((Stop.covers_run ..).mp hcov).1 (hover _ hp)
      | command handle cancel => exact hcov
    · by_cases hji : j = i
      · subst hji
        left
        obtain rfl : _ = p := Option.some.inj (hholds.symm.trans hj)
        simp [stopNow, Tab.publish]
      · right
        refine ⟨j, ?_⟩
        simp only [TabRuns.setCall, update_of_ne hji]
        exact hj
  · intro ho
    simp [TabRuns.setCall, hopen] at ho
  · intro ho
    simp [TabRuns.setCall, hopen] at ho

theorem Tracked.register (h : s.Tracked) {c : CommandRun} (hi : s.calls i = .shellStarted c) :
    ({ (s.lookup (fun t => t.registerCommand c.handle c.cancel)).setCall i .idle with
      streams := s.streams ++ [c.handle] } : TabRuns n).Tracked := by
  have hholds : (s.calls i).holds = some (.command c.handle c.cancel) := by rw [hi]; rfl
  have hopen := h.isOpen_of_holds hholds
  refine ⟨?_, ?_, ?_⟩
  · intro _ p hp
    have hp' : p ∈ s.live := by simpa [TabRuns.setCall, lookup, hopen] using hp
    rcases h.opened hopen p hp' with hcov | ⟨j, hj⟩
    · left
      cases p with
      | run handle cancel =>
        simpa [stopNow, TabRuns.setCall, lookup, hopen, Tab.registerCommand] using hcov
      | command handle cancel =>
        have hmem : ⟨handle, cancel⟩ ∈ s.tab.commands := (Stop.covers_command ..).mp hcov
        simp [stopNow, TabRuns.setCall, lookup, hopen, Tab.registerCommand, hmem]
    · by_cases hji : j = i
      · subst hji
        left
        obtain rfl : _ = p := Option.some.inj (hholds.symm.trans hj)
        simp [stopNow, TabRuns.setCall, lookup, hopen, Tab.registerCommand]
      · right
        refine ⟨j, ?_⟩
        simpa [TabRuns.setCall, lookup, hopen, update_of_ne hji] using hj
  · intro ho
    simp [TabRuns.setCall, lookup, hopen] at ho
  · intro ho
    simp [TabRuns.setCall, lookup, hopen] at ho

theorem Tracked.finish (h : s.Tracked) {f : Tab → Tab} {handle : ℕ}
    (hf : ∀ p ∈ s.live, p.handle ≠ handle → s.stopNow.covers p = true →
      Stop.covers ⟨(f s.tab).run, (f s.tab).runCancel, (f s.tab).commands⟩ p = true)
    (runs : List Run) (streams : List CommandHandle) :
    Tracked { (s.lookup f).finish handle with runs := runs, streams := streams } := by
  refine h.frame (lookup_isOpen ..) ?_ ?_ ?_ ?_
  · simp only [TabRuns.finish, lookup]
    split_ifs <;> rfl
  · intro p hp
    simp only [TabRuns.finish, lookup_live, mem_filter] at hp
    exact hp.1
  · intro hopen p hp hcov
    simp only [TabRuns.finish, lookup_live, mem_filter, decide_eq_true_eq] at hp
    simp only [stopNow, TabRuns.finish, lookup, hopen, if_true]
    exact hf p hp.1 hp.2 hcov
  · intro i
    simp only [TabRuns.finish, lookup_calls]
    exact ⟨trivial, fun _ hs => hs⟩

/-- The completed run is not the one that the tab holds for another process. -/
theorem covers_complete {t : Tab} {handle : RunHandle} {p : Proc} (hp : p.handle ≠ handle)
    (hcov : Stop.covers ⟨t.run, t.runCancel, t.commands⟩ p = true) :
    Stop.covers ⟨(t.complete handle).run, (t.complete handle).runCancel,
      (t.complete handle).commands⟩ p = true := by
  cases p with
  | run h' c' =>
    have hrun := (Stop.covers_run ..).mp hcov
    have hne : t.run ≠ some handle := by
      intro heq
      exact hp (Option.some.inj (hrun.1.symm.trans heq))
    simpa [Tab.complete, hne] using hcov
  | command h' c' =>
    have hmem : ⟨h', c'⟩ ∈ t.commands := (Stop.covers_command ..).mp hcov
    simp only [Stop.covers_command, Tab.complete]
    split_ifs <;> exact hmem

theorem covers_unregisterCommand {t : Tab} {handle : CommandHandle} {p : Proc}
    (hp : p.handle ≠ handle) (hcov : Stop.covers ⟨t.run, t.runCancel, t.commands⟩ p = true) :
    Stop.covers ⟨t.run, t.runCancel, (t.unregisterCommand handle).commands⟩ p = true := by
  cases p with
  | run h' c' => exact hcov
  | command h' c' =>
    have hmem : ⟨h', c'⟩ ∈ t.commands := (Stop.covers_command ..).mp hcov
    simp only [Stop.covers_command, Tab.unregisterCommand, mem_filter, decide_eq_true_eq]
    exact ⟨hmem, hp⟩

theorem Tracked.close (h : s.Tracked) (hopen : s.isOpen = true)
    (hnone : ∀ j, (s.calls j).holds = none) :
    ({ s.setCall i (.closing s.stopNow) with isOpen := false } : TabRuns n).Tracked := by
  refine ⟨fun ho => by simp at ho, ?_, ?_⟩
  · intro _ j
    rcases s.setCall_cases i (.closing s.stopNow) j with ⟨-, heq⟩ | ⟨-, heq⟩
    · exact congrArg Phase.holds heq
    · exact (congrArg Phase.holds heq).trans (hnone j)
  · intro _ p hp
    rcases h.opened hopen p hp with hcov | ⟨j, hj⟩
    · -- The section takes along what the tab knows, which is every live process.
      exact ⟨s.stopNow, hcov, .inr ⟨i, update_self ..⟩⟩
    · rw [hnone j] at hj
      simp at hj

/-- The call that closed the tab returns, and hands its stop over unless that is empty. -/
theorem Tracked.handOver (h : s.Tracked) {stop : Stop} (hi : s.calls i = .closing stop)
    {closes : List Stop} (hsub : s.closes ⊆ closes)
    (hin : stop.handle ≠ none ∨ stop.commands ≠ [] → stop ∈ closes) :
    ({ s.setCall i .idle with closes := closes } : TabRuns n).Tracked := by
  have hcalls : ∀ j, ((s.setCall i .idle).calls j).holds = (s.calls j).holds := by
    intro j
    rcases s.setCall_cases i .idle j with ⟨rfl, heq⟩ | ⟨-, heq⟩
    · rw [heq, hi]
      rfl
    · rw [heq]
  refine ⟨?_, ?_, ?_⟩
  · intro ho p hp
    exact (h.opened ho p hp).imp_right (fun ⟨j, hj⟩ => ⟨j, (hcalls j).trans hj⟩)
  · exact fun ho j => (hcalls j).trans (h.released ho j)
  · intro ho p hp
    obtain ⟨stop', hcov, hknown⟩ := h.closed ho p hp
    refine ⟨stop', hcov, ?_⟩
    rcases hknown with hknown | ⟨j, hj⟩
    · exact .inl (hsub hknown)
    · rcases s.setCall_cases i .idle j with ⟨rfl, -⟩ | ⟨-, heq⟩
      · obtain rfl : stop' = stop := Phase.closing.inj (hj.symm.trans hi)
        exact .inl (hin (Stop.ne_of_covers hcov))
      · exact .inr ⟨j, heq.trans hj⟩

theorem Goes.holds {p q : Phase} (h : s.Goes p q) :
    p.holds = none ∧ (∀ stop, p ≠ .closing stop) ∧ q.holds = none := by
  cases h <;> exact ⟨rfl, nofun, rfl⟩

theorem Tracked.step (h : s.Tracked) {l : RunLabel n} (hl : s.ClosesCleanly l) :
    (s.step threads l).Tracked := by
  have hcalls : ∀ i, (s.calls i).holds = (s.calls i).holds ∧
      ∀ stop, s.calls i = .closing stop → s.calls i = .closing stop :=
    fun _ => ⟨rfl, fun _ hs => hs⟩
  have hmove := s.step_move threads l
  generalize s.step threads l = s' at hmove ⊢
  cases hmove with
  | stay => exact h
  | go hgo => exact h.setCall hgo.holds.1 hgo.holds.2.1 hgo.holds.2.2
  | check hi | stop hi => exact h.setCall (by rw [hi]; rfl) (by simp [hi]) rfl
  | start hi | startCommand hi => exact h.start (hl.start rfl) (by rw [hi]; rfl) rfl _
  | publish hi => exact h.publish (hl.publish rfl) hi
  | report _ _ hnone =>
    rw [Tab.setSessionID, if_pos hnone]
    exact h.frame rfl rfl (fun _ hp => hp) (fun _ _ _ hcov => hcov) hcalls
  | complete => exact h.finish (fun p _ hp hcov => covers_complete hp hcov) _ _
  | exit =>
    exact h.frame rfl rfl (fun _ hp => (mem_filter.mp hp).1) (fun _ _ _ hcov => hcov) hcalls
  | register hi => exact h.register hi
  | unregister => exact h.finish (fun p _ hp hcov => covers_unregisterCommand hp hcov) _ _
  | stopHandles hi =>
    exact h.frame rfl rfl (fun _ hp => hp) (fun _ _ _ hcov => hcov)
      (calls_setCall (by rw [hi]; rfl) (by simp [hi]) rfl)
  | close hi ho => exact h.close ho (hl.close rfl)
  | closeHandles hi hsub hin => exact h.handOver hi hsub hin
  | renew => exact h.frame rfl rfl (fun _ hp => hp) (fun _ _ _ hcov => hcov) hcalls

end Step

/-- In every run that meets the condition: once the tab is closed and all calls have returned,
every process started for the tab that has not finished was handed to `stopTabHandles`, with
its cancel function. -/
theorem close_stops_work (threads : RunHandle → SessionID) (t : Tab) (ls : List (RunLabel n))
    (hclean : Meets (step threads) ClosesCleanly (init t) ls) :
    let s := exec (step threads) (init t) ls
    s.isOpen = false → s.Quiet → ∀ p ∈ s.live, ∃ stop ∈ s.closes, stop.covers p = true := by
  intro s hclosed hquiet p hp
  have h : s.Tracked := hclean.invariant (fun _ _ h hl => h.step hl) (init_tracked t)
  obtain ⟨stop, hcov, hin⟩ := h.closed hclosed p hp
  rcases hin with hin | ⟨i, hi⟩
  · exact ⟨stop, hin, hcov⟩
  · rw [hquiet i] at hi
    simp at hi

/-- A prompt and a command, and the close of the tab after both are known to it. -/
def closeAfterStart (i j k : Fin n) : List (RunLabel n) :=
  [.check i, .read i, .start i, .publish i, .find j, .startCommand j, .register j, .close k,
    .closeHandles k]

theorem close_stops_work_closeAfterStart :
    let s := exec (step fun _ => lit "thread")
      (init (Tab.new stockConfig (lit "0000000000000001") (lit "repo") []))
        (closeAfterStart (0 : Fin 3) 1 2)
    s.isOpen = false ∧ s.Quiet ∧ s.live = [.run 0 0, .command 1 1] ∧
      ∀ p ∈ s.live, ∃ stop ∈ s.closes, stop.covers p = true := by
  intro s
  refine ⟨by decide, by decide, by decide, ?_⟩
  exact close_stops_work (fun _ => lit "thread") _ _ (by decide) (by decide)
    (by decide)

/-- A prompt, and the close of the tab between the start of the run and its publish section. -/
def closeDuringStart (i j : Fin n) : List (RunLabel n) :=
  [.check i, .read i, .start i, .close j, .closeHandles j, .publish i]

theorem run_survives_close :
    let s := exec (step fun _ => lit "thread")
      (init (Tab.new stockConfig (lit "0000000000000001") (lit "repo") []))
        (closeDuringStart (0 : Fin 2) 1)
    s.isOpen = false ∧ s.Quiet ∧ s.live = [.run 0 0] ∧ s.closes = [] := by
  decide

end TabRuns

end Centaurx
