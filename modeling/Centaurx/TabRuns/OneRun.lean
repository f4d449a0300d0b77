import Centaurx.TabRuns.Machine

namespace Centaurx
open Go Runs List

/-- The call is a `SendPrompt` between its busy check and its publish section. -/
def Phase.sends : Phase → Bool
  | .checked => true
  | .prepared _ => true
  | .started _ => true
  | _ => false

def RunLabel.checks {n : ℕ} : RunLabel n → Bool
  | .check _ => true
  | _ => false

namespace TabRuns

variable {n : ℕ}

/-- At most one run is unfinished, an open tab with an unfinished run holds exactly that run, and
an open tab without one is idle. -/
structure OneRun (s : TabRuns n) : Prop where
  single : s.runs.length ≤ 1
  busy : s.isOpen = true → ∀ r ∈ s.runs,
    s.tab.status = .running ∧ s.tab.run = some r.handle ∧ s.tab.runCancel = some r.cancel
  idle : s.isOpen = true → s.runs = [] → s.tab.status = .idle

/-- A busy check passes only when no other `SendPrompt` is between its check and its publish
section. -/
def ChecksAlone (s : TabRuns n) (l : RunLabel n) : Prop :=
  l.checks = true → s.isOpen = true → s.tab.status ≠ .running → ∀ j, (s.calls j).sends = false

instance (s : TabRuns n) (l : RunLabel n) : Decidable (s.ChecksAlone l) :=
  inferInstanceAs (Decidable (_ → _))

/-- The invariant: a `SendPrompt` in that window is alone in it, and no run is unfinished. -/
structure SendsAlone (s : TabRuns n) : Prop where
  sending : ∀ i j, (s.calls i).sends = true → (s.calls j).sends = true → i = j
  waiting : ∀ i, (s.calls i).sends = true → s.runs = []
  one : s.OneRun

theorem init_sendsAlone (t : Tab) : (init t : TabRuns n).SendsAlone where
  sending i j h := by simp [init, Phase.sends] at h
  waiting i h := by simp [init, Phase.sends] at h
  one := ⟨by simp [init], fun _ r hr => by simp [init] at hr, fun _ _ => rfl⟩

section Step

variable {threads : RunHandle → SessionID} {s s' : TabRuns n}

theorem SendsAlone.frame (h : s.SendsAlone) (hruns : s'.runs = s.runs)
    (hopen : s'.isOpen = true → s.isOpen = true)
    (htab : s'.tab.status = s.tab.status ∧ s'.tab.run = s.tab.run ∧
      s'.tab.runCancel = s.tab.runCancel)
    (hcalls : ∀ i, (s'.calls i).sends = true → (s.calls i).sends = true) : s'.SendsAlone := by
  obtain ⟨hstatus, hrun, hcancel⟩ := htab
  refine ⟨?_, ?_, ?_, ?_, ?_⟩
  · exact fun i j hi hj => h.sending i j (hcalls i hi) (hcalls j hj)
  · exact fun i hi => hruns.trans (h.waiting i (hcalls i hi))
  · rw [hruns]
    exact h.one.single
  · rw [hruns, hstatus, hrun, hcancel]
    exact fun ho => h.one.busy (hopen ho)
  · rw [hruns, hstatus]
    exact fun ho => h.one.idle (hopen ho)

theorem sends_setCall {i : Fin n} {p : Phase}
    (hp : p.sends = true → (s.calls i).sends = true) (j : Fin n)
    (hj : ((s.setCall i p).calls j).sends = true) : (s.calls j).sends = true := by
  rcases s.setCall_cases i p j with ⟨rfl, heq⟩ | ⟨-, heq⟩
  · rw [heq] at hj
    exact hp hj
  · rwa [heq] at hj

theorem sends_outside {i : Fin n} {p : Phase} (hp : p.sends = false) (j : Fin n)
    (hj : ((s.setCall i p).calls j).sends = true) : (s.calls j).sends = true := by
  refine sends_setCall (fun hsends => ?_) j hj
  rw [hp] at hsends
  cases hsends

theorem lookup_keeps {f : Tab → Tab}
    (hf : ∀ t, (f t).status = t.status ∧ (f t).run = t.run ∧ (f t).runCancel = t.runCancel) :
    (s.lookup f).tab.status = s.tab.status ∧ (s.lookup f).tab.run = s.tab.run ∧
      (s.lookup f).tab.runCancel = s.tab.runCancel := by
  simp only [lookup]
  split_ifs
  · exact hf s.tab
  · exact ⟨rfl, rfl, rfl⟩

theorem Goes.sends {p q : Phase} (h : s.Goes p q) (hq : q.sends = true) : p.sends = true := by
  cases h with
  | read => rfl
  | _ => cases hq

theorem SendsAlone.check (h : s.SendsAlone) {i : Fin n} (hopen : s.isOpen = true)
    (hstatus : s.tab.status ≠ .running) (halone : ∀ j, (s.calls j).sends = false) :
    (s.setCall i .checked).SendsAlone := by
  -- The tab is not running, so it has no unfinished run.
  have hruns : s.runs = [] := by
    rw [eq_nil_iff_forall_not_mem]
    intro r hr
    exact hstatus (h.one.busy hopen r hr).1
  have honly : ∀ j, ((s.setCall i .checked).calls j).sends = true → j = i := by
    intro j hj
    rcases s.setCall_cases i .checked j with ⟨hji, -⟩ | ⟨-, heq⟩
    · exact hji
    · simp [heq, halone j] at hj
  exact ⟨fun j k hj hk => (honly j hj).trans (honly k hk).symm, fun _ _ => hruns,
    ⟨h.one.single, h.one.busy, h.one.idle⟩⟩

theorem SendsAlone.publish (h : s.SendsAlone) {i : Fin n} {run : Run}
    (hi : s.calls i = .started run) : ({ s.setCall i .idle with
      tab := s.tab.publish run.handle run.cancel
      runs := s.runs ++ [run] } : TabRuns n).SendsAlone := by
  have hsends : (s.calls i).sends = true := by rw [hi]; rfl
  have hruns : s.runs = [] := h.waiting i hsends
  -- The published call was the only one in the window.
  have hnone : ∀ j, ((s.setCall i .idle).calls j).sends = true → False := by
    intro j hj
    rcases s.setCall_cases i .idle j with ⟨-, heq⟩ | ⟨hji, heq⟩
    · simp [heq, Phase.sends] at hj
    · rw [heq] at hj
      exact hji (h.sending j i hj hsends)
  refine ⟨fun j _ hj _ => (hnone j hj).elim, fun j hj => (hnone j hj).elim, ?_, ?_, ?_⟩
  · simp [hruns]
  · intro _ r hr
    obtain rfl : r = run := by simpa [hruns] using hr
    exact ⟨rfl, rfl, rfl⟩
  · simp

theorem SendsAlone.complete (h : s.SendsAlone) {run : Run} (hrun : run ∈ s.runs) :
    ({ (s.lookup (fun t => t.complete run.handle)).finish run.handle with
      runs := s.runs.filter (fun r => r.handle ≠ run.handle) } : TabRuns n).SendsAlone := by
  -- The completed run is the only one, so the tab holds its handle and becomes idle.
  have hruns : s.runs = [run] := by
    obtain ⟨x, hx⟩ := length_eq_one_iff.mp
      (le_antisymm h.one.single (length_pos_of_mem hrun))
    rw [hx] at hrun ⊢
    rw [mem_singleton.mp hrun]
  have hnil : s.runs.filter (fun r => r.handle ≠ run.handle) = [] := by
    simp [hruns]
  have hnone : ∀ j, (s.calls j).sends = true → False := by
    intro j hj
    have := h.waiting j hj
    simp [hruns] at this
  refine ⟨?_, ?_, ?_, ?_, ?_⟩
  · intro j _ hj
    simp only [finish, lookup_calls] at hj
    exact (hnone j hj).elim
  · exact fun _ _ => hnil
  · simp only [hnil]
    exact Nat.zero_le _
  · intro _ r' hr'
    rw [hnil] at hr'
    simp at hr'
  · intro hopen _
    simp only [finish, lookup_isOpen] at hopen
    simp only [finish, lookup_tab hopen, Tab.complete, (h.one.busy hopen run hrun).2.1, if_true]

theorem SendsAlone.step (h : s.SendsAlone) {l : RunLabel n} (hl : s.ChecksAlone l) :
    (s.step threads l).SendsAlone := by
  have hsame : ∀ i, (s.calls i).sends = true → (s.calls i).sends = true := fun _ hi => hi
  have hmove := s.step_move threads l
  generalize s.step threads l = s' at hmove ⊢
  cases hmove with
  | stay => exact h
  | go hgo => exact h.frame rfl id ⟨rfl, rfl, rfl⟩ (sends_setCall hgo.sends)
  | check hi ho hstatus => exact h.check ho hstatus (hl rfl ho hstatus)
  | start hi => exact h.frame rfl id ⟨rfl, rfl, rfl⟩ (sends_setCall fun _ => by rw [hi]; rfl)
  | publish hi => exact h.publish hi
  | report _ _ hnone =>
    rw [Tab.setSessionID, if_pos hnone]
    exact h.frame rfl id ⟨rfl, rfl, rfl⟩ hsame
  | complete hrun => exact h.complete hrun
  | exit | renew => exact h.frame rfl id ⟨rfl, rfl, rfl⟩ hsame
  | @register i c hi =>
    refine h.frame (lookup_runs ..) (by simp [setCall])
      (lookup_keeps (fun t => ⟨rfl, rfl, rfl⟩)) ?_
    intro j hj
    refine sends_outside (p := .idle) (i := i) rfl j ?_
    simpa [setCall] using hj
  | unregister =>
    refine h.frame (lookup_runs ..) (by simp [finish])
      (lookup_keeps (fun t => ⟨rfl, rfl, rfl⟩)) ?_
    simp [finish]
  | startCommand | stop | stopHandles | closeHandles =>
    exact h.frame rfl id ⟨rfl, rfl, rfl⟩ (sends_outside rfl)
  | close => exact h.frame rfl (fun hopen => by simp at hopen) ⟨rfl, rfl, rfl⟩ (sends_outside rfl)

end Step

/-- In every run in which no busy check passes between the check and the publish section of
another `SendPrompt`, at every moment the tab has at most one unfinished run and knows it. -/
theorem one_run_per_tab (threads : RunHandle → SessionID) (t : Tab) (ls : List (RunLabel n))
    (halone : Meets (step threads) ChecksAlone (init t) ls) :
    (exec (step threads) (init t) ls).OneRun :=
  (halone.invariant (fun _ _ h hl => h.step hl) (init_sendsAlone t)).one

/-- A prompt that is sent and completed, and a second one after it. -/
def promptsInTurn (i j : Fin n) : List (RunLabel n) :=
  [.check i, .read i, .start i, .publish i, .complete 0, .check j, .read j, .start j, .publish j]

theorem one_run_per_tab_promptsInTurn :
    let s := exec (step fun _ => lit "thread")
      (init (Tab.new stockConfig (lit "0000000000000001") (lit "repo") []))
        (promptsInTurn (0 : Fin 2) 1)
    Meets (step fun _ => lit "thread") ChecksAlone
        (init (Tab.new stockConfig (lit "0000000000000001") (lit "repo") []))
        (promptsInTurn (0 : Fin 2) 1) ∧
      s.runs = [⟨1, 1, []⟩] ∧ s.OneRun := by
  intro s
  have halone : Meets (step fun _ => lit "thread") ChecksAlone
      (init (Tab.new stockConfig (lit "0000000000000001") (lit "repo") []))
        (promptsInTurn (0 : Fin 2) 1) := by
    decide
  exact ⟨halone, by decide, one_run_per_tab _ _ _ halone⟩

/-- Two prompts that both pass the busy check before either is published. -/
def promptsAtOnce (i j : Fin n) : List (RunLabel n) :=
  [.check i, .check j, .read i, .start i, .publish i, .read j, .start j, .publish j]

/-- Both prompts run at once; and when the second one completes, the tab is idle although the
first one is unfinished. -/
theorem two_runs_on_one_tab :
    let s := exec (step fun _ => lit "thread")
      (init (Tab.new stockConfig (lit "0000000000000001") (lit "repo") []))
        (promptsAtOnce (0 : Fin 2) 1)
    s.runs = [⟨0, 0, []⟩, ⟨1, 1, []⟩] ∧ (s.complete 1).isOpen = true ∧
      (s.complete 1).runs = [⟨0, 0, []⟩] ∧ (s.complete 1).tab.status = .idle := by
  decide

end TabRuns

end Centaurx
