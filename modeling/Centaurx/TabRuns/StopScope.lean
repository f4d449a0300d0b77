import Centaurx.TabRuns.CloseStops
import Centaurx.TabRuns.StopSequence

namespace Centaurx
open Go Runs List Function

/-- The arguments of the stop sequence. -/
def Stop.args (stop : Stop) : StopArgs where
  handle := stop.handle
  runCancel := stop.cancel
  commands := stop.commands.map fun c => ⟨some c.handle, some c.cancel⟩

/-- What a critical section of `StopSession` found. -/
structure Capture where
  stop : Stop
  /-- The number of runs that had been accepted. -/
  accepted : ℕ
  deriving DecidableEq

/-- A captured run had been accepted before. -/
structure Capture.Before (accepted : List Run) (c : Capture) : Prop where
  length_le : c.accepted ≤ accepted.length
  run : ∀ h, c.stop.handle = some h → ∃ run ∈ accepted.take c.accepted, run.handle = h

theorem Capture.Before.append {accepted : List Run} {c : Capture} (h : Capture.Before accepted c)
    (more : List Run) : Capture.Before (accepted ++ more) c := by
  refine ⟨?_, fun m hm => ?_⟩
  · rw [length_append]
    exact Nat.le_add_right_of_le h.length_le
  · rw [take_append_of_le_length h.length_le]
    exact h.run m hm

/-- The runs of a tab with what the statements about stops have to remember. -/
structure StopLog (n : ℕ) where
  runs : TabRuns n
  /-- The runs that publish sections have accepted. -/
  accepted : List Run
  captured : Fin n → Capture
  /-- The stop sequences that were started, each with what its call had captured. -/
  issued : List (Capture × Stop)

namespace StopLog

variable {n : ℕ} (threads : RunHandle → SessionID)

def init (t : Tab) : StopLog n where
  runs := .init t
  accepted := []
  captured _ := ⟨⟨none, none, []⟩, 0⟩
  issued := []

def step (s : StopLog n) (l : RunLabel n) : StopLog n :=
  let s' := { s with runs := s.runs.step threads l }
  match l with
  | .publish i =>
    match s.runs.calls i with
    | .started run => { s' with accepted := s.accepted ++ [run] }
    | _ => s'
  | .stop i =>
    if s.runs.calls i = .idle then
      { s' with captured := update s.captured i ⟨s.runs.stopNow, s.accepted.length⟩ }
    else s'
  | .stopHandles i =>
    match s.runs.calls i with
    | .stopping handle commands =>
      { s' with issued := s.issued ++
          [(s.captured i, ⟨handle, s.runs.tab.runCancel, commands⟩)] }
    | _ => s'
  | _ => s'

/-- When `StopSession` reads the cancel function, the tab has no run or still the one whose
handle was captured. -/
def readsOwnCancel (s : StopLog n) : RunLabel n → Bool
  | .stopHandles i =>
    match s.runs.calls i with
    | .stopping handle _ => s.runs.tab.run = none || s.runs.tab.run = handle
    | _ => true
  | _ => true

/-- The sequence reaches nothing but what was captured, and no run that was accepted later. -/
structure Confined (env : StopEnv) (accepted : List Run) (captured : Capture) (stop : Stop) :
    Prop where
  signals : ∀ h sig, .signal h sig ∈ stopTabHandlesAsync env stop.args →
    h ∈ captured.stop.args.handles
  cancels : ∀ c, .cancel c ∈ stopTabHandlesAsync env stop.args → c ∈ captured.stop.args.cancels
  later_signals : ∀ run ∈ accepted.drop captured.accepted, ∀ sig,
    .signal (.run run.handle) sig ∉ stopTabHandlesAsync env stop.args
  later_cancels : ∀ run ∈ accepted.drop captured.accepted,
    .cancel (.run run.cancel) ∉ stopTabHandlesAsync env stop.args

/-- A run's handle and its cancel function have the same number, and no two runs share one. -/
structure Numbered (s : StopLog n) : Prop where
  cancel_eq : s.runs.tab.runCancel = s.runs.tab.run
  run : ∀ h, s.runs.tab.run = some h → ∃ run ∈ s.accepted, run.handle = h
  started : ∀ i run, s.runs.calls i = .started run → run.cancel = run.handle ∧
    run.handle < s.runs.next ∧ ∀ run' ∈ s.accepted, run'.handle ≠ run.handle
  started_inj : ∀ i j run run', s.runs.calls i = .started run → s.runs.calls j = .started run' →
    run.handle = run'.handle → i = j
  accepted : ∀ run ∈ s.accepted, run.cancel = run.handle ∧ run.handle < s.runs.next
  nodup : (s.accepted.map Run.handle).Nodup
  captured : ∀ i handle commands, s.runs.calls i = .stopping handle commands →
    (s.captured i).stop = ⟨handle, handle, commands⟩ ∧ Capture.Before s.accepted (s.captured i)
  issued : ∀ x ∈ s.issued, x.2.handle = x.1.stop.handle ∧ x.2.commands = x.1.stop.commands ∧
    x.1.stop.cancel = x.1.stop.handle ∧ Capture.Before s.accepted x.1

theorem init_numbered (t : Tab) : (init t : StopLog n).Numbered where
  cancel_eq := rfl
  run h hrun := by cases hrun
  started i run hi := by cases hi
  started_inj i j run run' hi := by cases hi
  accepted run hrun := by simp [init] at hrun
  nodup := nodup_nil
  captured i handle commands hi := by cases hi
  issued x hx := by simp [init] at hx

/-- A call in this phase has neither a run to publish nor a stop to issue. -/
def plain : Phase → Bool
  | .started _ => false
  | .stopping _ _ => false
  | _ => true

section Step
variable {threads : RunHandle → SessionID} {s : StopLog n}

theorem Numbered.frame (h : s.Numbered) {r : TabRuns n}
    (htab : (r.tab.run = s.runs.tab.run ∧ r.tab.runCancel = s.runs.tab.runCancel) ∨
      (r.tab.run = none ∧ r.tab.runCancel = none)) (hnext : s.runs.next ≤ r.next)
    (hcalls : ∀ i, r.calls i = s.runs.calls i ∨ plain (r.calls i) = true) :
    Numbered { s with runs := r } := by
  have hstarted : ∀ i run, r.calls i = .started run → s.runs.calls i = .started run := by
    intro i run hi
    rcases hcalls i with hsame | hplain
    · exact hsame ▸ hi
    · simp [hi, plain] at hplain
  have hstopping : ∀ i handle commands, r.calls i = .stopping handle commands →
      s.runs.calls i = .stopping handle commands := by
    intro i handle commands hi
    rcases hcalls i with hsame | hplain
    · exact hsame ▸ hi
    · simp [hi, plain] at hplain
  refine ⟨?_, ?_, ?_, ?_, ?_, h.nodup, ?_, h.issued⟩
  · rcases htab with ⟨hrun, hcancel⟩ | ⟨hrun, hcancel⟩
    · rw [hcancel, hrun, h.cancel_eq]
    · rw [hcancel, hrun]
  · intro m hm
    rcases htab with ⟨hrun, -⟩ | ⟨hrun, -⟩
    · exact h.run m (hrun ▸ hm)
    · rw [hrun] at hm
      cases hm
  · intro i run hi
    obtain ⟨h1, h2, h3⟩ := h.started i run (hstarted i run hi)
    exact ⟨h1, h2.trans_le hnext, h3⟩
  · exact fun i j run run' hi hj => h.started_inj i j run run' (hstarted i run hi)
      (hstarted j run' hj)
  · exact fun run hrun => ⟨(h.accepted run hrun).1, (h.accepted run hrun).2.trans_le hnext⟩
  · exact fun i handle commands hi => h.captured i handle commands (hstopping i handle commands hi)

theorem Numbered.setCall (h : s.Numbered) (i : Fin n) {p : Phase} (hp : plain p = true) :
    Numbered { s with runs := s.runs.setCall i p } := by
  refine h.frame (.inl ⟨rfl, rfl⟩) le_rfl fun j => ?_
  rcases s.runs.setCall_cases i p j with ⟨rfl, hj⟩ | ⟨-, hj⟩
  · exact .inr (hj.symm ▸ hp)
  · exact .inl hj

theorem Numbered.lookup (h : s.Numbered) {f : Tab → Tab}
    (hf : ∀ t, ((f t).run = t.run ∧ (f t).runCancel = t.runCancel) ∨
      ((f t).run = none ∧ (f t).runCancel = none)) :
    Numbered { s with runs := s.runs.lookup f } := by
  refine h.frame ?_ ?_ fun i => .inl (by rw [TabRuns.lookup_calls])
  · rw [TabRuns.lookup]
    split_ifs
    · exact hf _
    · exact .inl ⟨rfl, rfl⟩
  · rw [TabRuns.lookup]
    split_ifs <;> exact le_rfl

theorem Numbered.start (h : s.Numbered) {i : Fin n} {resume : SessionID} (live : List Proc) :
    Numbered { s with runs := { s.runs.setCall i (.started ⟨s.runs.next, s.runs.next, resume⟩) with
      next := s.runs.next + 1
      live := live } } := by
  -- the new number is above all the others
  have hcases := s.runs.setCall_cases i (.started ⟨s.runs.next, s.runs.next, resume⟩)
  refine ⟨h.cancel_eq, h.run, ?_, ?_, ?_, h.nodup, ?_, h.issued⟩
  · intro j run hj
    rcases hcases j with ⟨rfl, heq⟩ | ⟨-, heq⟩
    · obtain rfl := Phase.started.inj (heq.symm.trans hj)
      exact ⟨rfl, Nat.lt_succ_self _, fun run' hrun' => (h.accepted run' hrun').2.ne⟩
    · obtain ⟨h1, h2, h3⟩ := h.started j run (heq.symm.trans hj)
      exact ⟨h1, Nat.lt_succ_of_lt h2, h3⟩
  · intro j k run run' hj hk heq
    rcases hcases j with ⟨rfl, hj'⟩ | ⟨-, hj'⟩ <;> rcases hcases k with ⟨rfl, hk'⟩ | ⟨-, hk'⟩
    · rfl
    · obtain rfl := Phase.started.inj (hj'.symm.trans hj)
      exact absurd heq.symm (h.started k run' (hk'.symm.trans hk)).2.1.ne
    · obtain rfl := Phase.started.inj (hk'.symm.trans hk)
      exact absurd heq (h.started j run (hj'.symm.trans hj)).2.1.ne
    · exact h.started_inj j k run run' (hj'.symm.trans hj) (hk'.symm.trans hk) heq
  · exact fun run hrun =>
      ⟨(h.accepted run hrun).1, Nat.lt_succ_of_lt (h.accepted run hrun).2⟩
  · intro j handle commands hj
    rcases hcases j with ⟨rfl, heq⟩ | ⟨-, heq⟩
    · cases heq.symm.trans hj
    · exact h.captured j handle commands (heq.symm.trans hj)

theorem Numbered.publish (h : s.Numbered) (i : Fin n) :
    (s.step threads (.publish i)).Numbered := by
  simp only [step, TabRuns.step, TabRuns.publish]
  cases hi : s.runs.calls i with
  | started run =>
    have hcases := s.runs.setCall_cases i .idle
    obtain ⟨hcancel, hlt, hnew⟩ := h.started i run hi
    -- another call that has started a run is not the one that publishes
    have hother : ∀ j run', (s.runs.setCall i .idle).calls j = .started run' →
        j ≠ i ∧ s.runs.calls j = .started run' := by
      intro j run' hj
      rcases hcases j with ⟨rfl, heq⟩ | ⟨hne, heq⟩
      · cases heq.symm.trans hj
      · exact ⟨hne, heq.symm.trans hj⟩
    refine ⟨congrArg some hcancel, ?_, ?_, ?_, ?_, ?_, ?_, ?_⟩
    · intro m hm
      exact ⟨run, by simp, Option.some.inj hm⟩
    · intro j run' hj
      obtain ⟨hne, hj⟩ := hother j run' hj
      obtain ⟨h1, h2, h3⟩ := h.started j run' hj
      refine ⟨h1, h2, ?_⟩
      simp only [forall_mem_append, forall_mem_singleton]
      exact ⟨h3, fun heq => hne (h.started_inj j i run' run hj hi heq.symm)⟩
    · exact fun j k run' run'' hj hk => h.started_inj j k run' run'' (hother j run' hj).2
        (hother k run'' hk).2
    · simp only [forall_mem_append, forall_mem_singleton]
      exact ⟨h.accepted, hcancel, hlt⟩
    · rw [map_append, map_singleton, nodup_append]
      refine ⟨h.nodup, nodup_singleton _, fun a ha b hb => ?_⟩
      obtain ⟨run', hrun', rfl⟩ := mem_map.mp ha
      rw [mem_singleton.mp hb]
      exact hnew run' hrun'
    · intro j handle commands hj
      rcases hcases j with ⟨rfl, heq⟩ | ⟨-, heq⟩
      · cases heq.symm.trans hj
      · obtain ⟨h1, h2⟩ := h.captured j handle commands (heq.symm.trans hj)
        exact ⟨h1, h2.append [run]⟩
    · intro x hx
      obtain ⟨h1, h2, h3, h4⟩ := h.issued x hx
      exact ⟨h1, h2, h3, h4.append [run]⟩
  | _ => exact h

theorem complete_run (t : Tab) (handle : RunHandle) :
    ((t.complete handle).run = t.run ∧ (t.complete handle).runCancel = t.runCancel) ∨
      ((t.complete handle).run = none ∧ (t.complete handle).runCancel = none) := by
  rw [Tab.complete]
  split_ifs
  · exact .inr ⟨rfl, rfl⟩
  · exact .inl ⟨rfl, rfl⟩

theorem Numbered.stop (h : s.Numbered) (i : Fin n) : (s.step threads (.stop i)).Numbered := by
  simp only [step, TabRuns.step, TabRuns.stop]
  by_cases hi : s.runs.calls i = .idle
  · rw [if_pos hi]
    have hbefore : Capture.Before s.accepted ⟨s.runs.stopNow, s.accepted.length⟩ :=
      ⟨le_rfl, fun m hm => by simpa using h.run m hm⟩
    have hupdate := update_apply s.captured i ⟨s.runs.stopNow, s.accepted.length⟩
    split_ifs
    · have hcases := s.runs.setCall_cases i (.stopping s.runs.tab.run s.runs.tab.commands)
      refine ⟨h.cancel_eq, h.run, ?_, ?_, h.accepted, h.nodup, ?_, h.issued⟩
      · intro j run hj
        rcases hcases j with ⟨rfl, heq⟩ | ⟨-, heq⟩
        · cases heq.symm.trans hj
        · exact h.started j run (heq.symm.trans hj)
      · intro j k run run' hj hk
        rcases hcases j with ⟨rfl, heq⟩ | ⟨-, heq⟩
        · cases heq.symm.trans hj
        · rcases hcases k with ⟨rfl, heq'⟩ | ⟨-, heq'⟩
          · cases heq'.symm.trans hk
          · exact h.started_inj j k run run' (heq.symm.trans hj) (heq'.symm.trans hk)
      · intro j handle commands hj
        rcases hcases j with ⟨rfl, heq⟩ | ⟨hne, heq⟩
        · obtain ⟨rfl, rfl⟩ := Phase.stopping.inj (heq.symm.trans hj)
          dsimp only
          rw [hupdate, if_pos rfl]
          refine ⟨?_, hbefore⟩
          rw [TabRuns.stopNow, h.cancel_eq]
        · dsimp only
          rw [hupdate, if_neg hne]
          exact h.captured j handle commands (heq.symm.trans hj)
    · refine ⟨h.cancel_eq, h.run, h.started, h.started_inj, h.accepted, h.nodup, ?_, h.issued⟩
      intro j handle commands hj
      have hne : j ≠ i := by
        rintro rfl
        cases hi.symm.trans hj
      dsimp only
      rw [hupdate, if_neg hne]
      exact h.captured j handle commands hj
  · rw [if_neg hi, if_neg fun hall => hi hall.1]
    exact h

theorem Numbered.stopHandles (h : s.Numbered) (i : Fin n) :
    (s.step threads (.stopHandles i)).Numbered := by
  simp only [step, TabRuns.step, TabRuns.stopHandles]
  cases hi : s.runs.calls i with
  | stopping handle commands =>
    have hidle := h.setCall i (p := .idle) rfl
    obtain ⟨hstop, hbefore⟩ := h.captured i handle commands hi
    refine ⟨hidle.cancel_eq, hidle.run, hidle.started, hidle.started_inj, hidle.accepted,
      hidle.nodup, hidle.captured, ?_⟩
    simp only [forall_mem_append, forall_mem_singleton]
    refine ⟨h.issued, ?_⟩
    rw [hstop]
    exact ⟨rfl, rfl, rfl, hbefore⟩
  | _ => exact h

theorem plain_of_goes {p q : Phase} (h : s.runs.Goes p q) : plain q = true := by
  cases h <;> rfl

theorem Numbered.move (h : s.Numbered) {l : RunLabel n} {r : TabRuns n}
    (hmove : s.runs.Move threads l r) (hpublish : ∀ i, l ≠ .publish i) (hstop : ∀ i, l ≠ .stop i) :
    Numbered { s with runs := r } := by
  cases hmove with
  | stay => exact h
  | publish => exact absurd rfl (hpublish _)
  | stop => exact absurd rfl (hstop _)
  | go hgo => exact h.setCall _ (plain_of_goes hgo)
  | check => exact h.setCall _ rfl
  | start => exact h.start _
  | report _ _ hnone =>
    rw [Tab.setSessionID, if_pos hnone]
    exact h.frame (.inl ⟨rfl, rfl⟩) le_rfl fun i => .inl rfl
  | @complete run hrun =>
    exact (h.lookup (complete_run · run.handle)).frame (.inl ⟨rfl, rfl⟩) le_rfl fun i => .inl rfl
  | exit | renew => exact h.frame (.inl ⟨rfl, rfl⟩) le_rfl fun i => .inl rfl
  | @startCommand i hi =>
    exact (h.setCall i (p := .shellStarted ⟨s.runs.next, s.runs.next⟩) rfl).frame
      (.inl ⟨rfl, rfl⟩) (Nat.le_succ _) fun j => .inl rfl
  | @register i c hi =>
    have hlookup := h.lookup (f := fun t => t.registerCommand c.handle c.cancel)
      fun t => .inl ⟨rfl, rfl⟩
    exact (hlookup.setCall i (p := .idle) rfl).frame (.inl ⟨rfl, rfl⟩) le_rfl fun j => .inl rfl
  | @unregister handle =>
    have hlookup := h.lookup (f := fun t => t.unregisterCommand handle) fun t => .inl ⟨rfl, rfl⟩
    exact hlookup.frame (.inl ⟨rfl, rfl⟩) le_rfl fun j => .inl rfl
  | @close i hi ho =>
    exact (h.setCall i (p := .closing ⟨s.runs.tab.run, s.runs.tab.runCancel,
      s.runs.tab.commands⟩) rfl).frame (.inl ⟨rfl, rfl⟩) le_rfl fun j => .inl rfl
  | @stopHandles i | @closeHandles i =>
    exact (h.setCall i (p := .idle) rfl).frame (.inl ⟨rfl, rfl⟩) le_rfl fun j => .inl rfl

theorem Numbered.step (h : s.Numbered) (l : RunLabel n) : (s.step threads l).Numbered := by
  cases l with
  | publish i => exact h.publish i
  | stop i => exact h.stop i
  | stopHandles i => exact h.stopHandles i
  | _ => exact h.move (s.runs.step_move threads _) nofun nofun

end Step

theorem mem_handles_of_signal {lines : StopLines} {env : StopEnv} {a : StopArgs} {h : Handle}
    {sig : StopSignal} (hmem : .signal h sig ∈ stopSequence lines env a) : h ∈ a.handles := by
  rcases mem_stopSequence hmem with ⟨h', hh', sig', heq⟩ | ⟨c, -, heq⟩ | heq | ⟨k, h', heq⟩ |
    ⟨line, heq⟩
  · obtain ⟨rfl, -⟩ := StopEvent.signal.inj heq
    exact hh'
  all_goals cases heq

theorem cancel_mem_iff {lines : StopLines} {env : StopEnv} {a : StopArgs} {c : Cancel} :
    .cancel c ∈ stopSequence lines env a ↔ c ∈ a.cancels := by
  constructor
  · intro hmem
    rcases mem_stopSequence hmem with ⟨h', -, sig', heq⟩ | ⟨c', hc', heq⟩ | heq | ⟨k, h', heq⟩ |
      ⟨line, heq⟩
    · cases heq
    · exact StopEvent.cancel.inj heq ▸ hc'
    all_goals cases heq
  · intro hc
    exact mem_append_right _ (mem_cons_of_mem _ (mem_append_right _
      (mem_map_of_mem hc)))

section Confinement
variable {threads : RunHandle → SessionID} {s : StopLog n} {env : StopEnv}

/-- The cancel function of the sequence is that of the captured run, or there is none any more. -/
def Own (x : Capture × Stop) : Prop := x.2.cancel = none ∨ x.2.cancel = x.1.stop.handle

theorem run_mem_cancels_iff {stop : Stop} {c : CancelFunc} :
    .run c ∈ stop.args.cancels ↔ stop.cancel = some c := by
  simp [StopArgs.cancels, Stop.args]

theorem run_mem_handles_iff {stop : Stop} {h : RunHandle} :
    .run h ∈ stop.args.handles ↔ stop.handle = some h := by
  simp [StopArgs.handles, Stop.args]

/-- A run that was accepted after the capture is not the captured one. -/
theorem Numbered.later_ne (h : s.Numbered) {c : Capture} (hc : Capture.Before s.accepted c)
    {run : Run} (hrun : run ∈ s.accepted.drop c.accepted) : c.stop.handle ≠ some run.handle := by
  intro heq
  obtain ⟨run', hrun', hsame⟩ := hc.run _ heq
  have hnodup := h.nodup
  rw [← take_append_drop c.accepted s.accepted, map_append, nodup_append] at hnodup
  exact hnodup.2.2 _ (mem_map_of_mem hrun') _ (mem_map_of_mem hrun) hsame

theorem Numbered.confined_iff (h : s.Numbered) {x : Capture × Stop} (hx : x ∈ s.issued) :
    Confined env s.accepted x.1 x.2 ↔ Own x := by
  obtain ⟨hhandle, hcommands, hcancel, hbefore⟩ := h.issued x hx
  constructor
  · intro hconf
    cases hc : x.2.cancel with
    | none => exact .inl hc
    | some c =>
      have hmem := hconf.cancels (.run c) (cancel_mem_iff.mpr (run_mem_cancels_iff.mpr hc))
      rw [run_mem_cancels_iff, hcancel] at hmem
      exact .inr (hc.trans hmem.symm)
  · intro hown
    have hhandles : x.2.args.handles = x.1.stop.args.handles := by
      simp only [StopArgs.handles, Stop.args, hhandle, hcommands]
    refine ⟨fun m sig hmem => hhandles ▸ mem_handles_of_signal hmem, fun c hmem => ?_,
      fun run hrun sig hmem => ?_, fun run hrun hmem => ?_⟩
    · have hc := cancel_mem_iff.mp hmem
      simp only [StopArgs.cancels, Stop.args, hcommands] at hc ⊢
      rcases hown with hnone | hsome
      · rw [hnone] at hc
        exact mem_append_right _ (by simpa using hc)
      · rwa [hsome, ← hcancel] at hc
    · have hmem := run_mem_handles_iff.mp (mem_handles_of_signal hmem)
      exact h.later_ne hbefore hrun (hhandle ▸ hmem)
    · have hmem := run_mem_cancels_iff.mp (cancel_mem_iff.mp hmem)
      rw [(h.accepted run (mem_of_mem_drop hrun)).1] at hmem
      rcases hown with hnone | hsome
      · rw [hnone] at hmem
        cases hmem
      · exact h.later_ne hbefore hrun (hsome.symm.trans hmem)

/-- A sequence is started with its own cancel function exactly when the step meets the
condition. -/
theorem Numbered.own_step_iff (h : s.Numbered) (l : RunLabel n) :
    (∀ x ∈ (s.step threads l).issued, Own x) ↔
      (∀ x ∈ s.issued, Own x) ∧ s.readsOwnCancel l = true := by
  have hquiet : (s.step threads l).issued = s.issued → s.readsOwnCancel l = true →
      ((∀ x ∈ (s.step threads l).issued, Own x) ↔
        (∀ x ∈ s.issued, Own x) ∧ s.readsOwnCancel l = true) :=
    fun hissued hreads => by rw [hissued, hreads, and_iff_left rfl]
  cases l with
  | stopHandles i =>
    cases hi : s.runs.calls i with
    | stopping handle commands =>
      have hstep : (s.step threads (.stopHandles i)).issued =
          s.issued ++ [(s.captured i, ⟨handle, s.runs.tab.runCancel, commands⟩)] := by
        simp only [StopLog.step, hi]
      have hreads : s.readsOwnCancel (.stopHandles i) = true ↔
          s.runs.tab.run = none ∨ s.runs.tab.run = handle := by
        simp only [readsOwnCancel, hi, Bool.or_eq_true, decide_eq_true_eq]
      rw [hstep, hreads, forall_mem_append, forall_mem_singleton, Own,
        (h.captured i handle commands hi).1, h.cancel_eq]
    | _ => exact hquiet (by simp only [StopLog.step, hi]) (by simp only [readsOwnCancel, hi])
  | publish i =>
    refine hquiet ?_ rfl
    simp only [StopLog.step]
    split <;> rfl
  | stop i =>
    refine hquiet ?_ rfl
    simp only [StopLog.step]
    split_ifs <;> rfl
  | _ => exact hquiet rfl rfl

theorem Numbered.own_exec_iff (threads : RunHandle → SessionID) (h : s.Numbered)
    (run : List (RunLabel n)) :
    (∀ x ∈ (exec (StopLog.step threads) s run).issued, Own x) ↔ (∀ x ∈ s.issued, Own x) ∧
      Meets (StopLog.step threads) (fun s l => s.readsOwnCancel l = true) s run := by
  induction run generalizing s with
  | nil => exact (and_iff_left trivial).symm
  | cons l run ih =>
    rw [meets_cons, ← and_assoc, ← h.own_step_iff l]
    exact ih (h.step l)

end Confinement

/-- **What a stop reaches.** The sequences that `StopSession` starts are confined to what was on the
tab in its critical section if and only if the tab never has another run when the cancel function
is read. -/
theorem stops_confined_iff (threads : RunHandle → SessionID) (env : StopEnv) (t : Tab)
    (run : List (RunLabel n)) :
    let s := exec (step threads) (init t) run
    (∀ x ∈ s.issued, Confined env s.accepted x.1 x.2) ↔
      Meets (step threads) (fun s l => s.readsOwnCancel l = true) (init t) run := by
  intro s
  have hnumbered : s.Numbered :=
    exec_invariant (fun _ l h => h.step l) (init_numbered t) run
  have hinit : ∀ x ∈ (init t : StopLog n).issued, Own x := fun x hx => by simp [init] at hx
  have hown := (init_numbered t).own_exec_iff threads run
  rw [and_iff_right hinit] at hown
  rw [← hown]
  exact forall₂_congr fun x hx => hnumbered.confined_iff hx

/-- A prompt is stopped while it runs, and completes before its cancel function is read. -/
def stopRunning (i j : Fin n) : List (RunLabel n) :=
  [.check i, .read i, .start i, .publish i, .stop j, .complete 0, .stopHandles j]

/-- Its sequence signals the run and calls no cancel function. -/
theorem stops_confined_stopRunning :
    let env : StopEnv := ⟨fun _ => true, fun _ _ => true, fun _ _ => none⟩
    let s := exec (step fun _ => lit "thread")
      (init (Tab.new stockConfig (lit "0000000000000001") (lit "repo") []))
        (stopRunning (0 : Fin 2) 1)
    s.issued.map Prod.snd = [⟨some 0, none, []⟩] ∧
      ∀ x ∈ s.issued, Confined env s.accepted x.1 x.2 := by
  intro env s
  refine ⟨by decide, ?_⟩
  exact (stops_confined_iff (fun _ => lit "thread") env _ _).mpr (by decide)

/-- The prompt completes after the critical section of `StopSession`, and the next one is accepted
before the cancel function is read. -/
def stopBetweenPrompts (i j : Fin n) : List (RunLabel n) :=
  [.check i, .read i, .start i, .publish i, .stop j, .complete 0,
    .check i, .read i, .start i, .publish i, .stopHandles j]

/-- The sequence cancels the new run. -/
theorem stop_cancels_next_run :
    let env : StopEnv := ⟨fun _ => true, fun _ _ => true, fun _ _ => none⟩
    let s := exec (step fun _ => lit "thread")
      (init (Tab.new stockConfig (lit "0000000000000001") (lit "repo") []))
        (stopBetweenPrompts (0 : Fin 2) 1)
    s.accepted.map Run.cancel = [0, 1] ∧
      s.issued = [(⟨⟨some 0, some 0, []⟩, 1⟩, ⟨some 0, some 1, []⟩)] ∧
      ∀ x ∈ s.issued, .cancel (.run 1) ∈ stopTabHandlesAsync env x.2.args := by
  decide

end StopLog

end Centaurx
