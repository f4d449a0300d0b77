import Centaurx.TabRuns.Machine

namespace Centaurx
open Go Runs List

/-- The session id that a `SendPrompt` has read and not yet published. -/
def Phase.resume : Phase → SessionID
  | .prepared resume => resume
  | .started run => run.resume
  | _ => []

def RunLabel.renews {n : ℕ} : RunLabel n → Bool
  | .renew => true
  | _ => false

namespace TabRuns

variable {n : ℕ} (threads : RunHandle → SessionID)

/-- No prompt that is accepted in the step resumes an id that the tab held before its last
renewal, and the tab does not hold such an id. -/
structure NoStale (s s' : TabRuns n) : Prop where
  accepted : ∀ run ∈ s'.runs, run ∉ s.runs → run.resume ∉ s.old
  stored : s'.tab.sessionID ∉ s'.old

/-- A renewal succeeds only when no `SendPrompt` carries a session id to its publish section and
no unfinished run belongs to a session that the tab has held. -/
def RenewsClean (s : TabRuns n) (l : RunLabel n) : Prop :=
  l.renews = true → s.isOpen = true → s.tab.status ≠ .running →
    (∀ i, (s.calls i).resume = []) ∧ ∀ r ∈ s.runs, r.resume = [] ∧ threads r.handle ∉ s.held

instance (s : TabRuns n) (l : RunLabel n) : Decidable (s.RenewsClean threads l) :=
  inferInstanceAs (Decidable (_ → _))

/-- No id, or one that the tab has held since its last renewal. -/
def Current (s : TabRuns n) (sid : SessionID) : Prop := sid = [] ∨ (sid ∈ s.held ∧ sid ∉ s.old)

structure Renewed (s : TabRuns n) : Prop where
  old_held : ∀ sid ∈ s.old, sid ∈ s.held
  nil_held : [] ∉ s.held
  session : s.Current s.tab.sessionID
  calls : ∀ i, s.Current (s.calls i).resume
  runs : ∀ r ∈ s.runs, s.Current r.resume ∧ r.handle < s.next ∧ threads r.handle ∉ s.old
  started : ∀ i run, s.calls i = .started run → run.handle < s.next ∧
    threads run.handle ∉ s.held ∧ ∀ r ∈ s.runs, r.handle ≠ run.handle
  apart : ∀ i j run run', s.calls i = .started run → s.calls j = .started run' →
    run.handle = run'.handle → i = j
  fresh : ∀ h, s.next ≤ h → threads h ∉ s.held

variable {threads} {s s' : TabRuns n}

theorem Current.not_old {sid : SessionID} (h : s.Current sid) (hs : s.Renewed threads) :
    sid ∉ s.old := by
  rcases h with rfl | ⟨-, hold⟩
  · exact fun hin => hs.nil_held (hs.old_held _ hin)
  · exact hold

theorem init_renewed {t : Tab} (hnew : ∀ h, threads h ≠ t.sessionID) :
    (init t : TabRuns n).Renewed threads := by
  refine ⟨?_, ?_, ?_, fun i => .inl rfl, ?_, ?_, ?_, ?_⟩
  · simp [init]
  · by_cases hs : t.sessionID = []
    · simp [init, hs]
    · simp [init, hs, Ne.symm hs]
  · by_cases hs : t.sessionID = []
    · exact .inl hs
    · exact .inr ⟨by simp [init, hs, Tab.restarted], by simp [init]⟩
  · simp [init]
  · intro i run hi
    simp [init] at hi
  · intro i j run run' hi
    simp [init] at hi
  · intro h _
    by_cases hs : t.sessionID = []
    · simp [init, hs]
    · simp [init, hs, hnew h]

theorem Renewed.frame (h : s.Renewed threads) (hheld : s'.held = s.held) (hold : s'.old = s.old)
    (hnext : s.next ≤ s'.next) (hsession : s'.tab.sessionID = s.tab.sessionID)
    (hruns : ∀ r ∈ s'.runs, r ∈ s.runs)
    (hcalls : ∀ i, s'.calls i = s.calls i ∨ s.Current (s'.calls i).resume ∧
      ∀ run, s'.calls i ≠ .started run) : s'.Renewed threads := by
  have hcur : ∀ sid, s.Current sid → s'.Current sid := by
    intro sid hs
    rwa [Current, hheld, hold]
  have hstarted : ∀ i run, s'.calls i = .started run → s.calls i = .started run := by
    intro i run hi
    rcases hcalls i with heq | ⟨-, hne⟩
    · exact heq ▸ hi
    · exact absurd hi (hne run)
  refine ⟨?_, ?_, ?_, ?_, ?_, ?_, ?_, ?_⟩
  · rw [hheld, hold]
    exact h.old_held
  · rw [hheld]
    exact h.nil_held
  · rw [hsession]
    exact hcur _ h.session
  · intro i
    rcases hcalls i with heq | ⟨hc, -⟩
    · rw [heq]
      exact hcur _ (h.calls i)
    · exact hcur _ hc
  · intro r hr
    obtain ⟨hc, hlt, ho⟩ := h.runs r (hruns r hr)
    rw [hold]
    exact ⟨hcur _ hc, hlt.trans_le hnext, ho⟩
  · intro i run hi
    obtain ⟨hlt, hnot, hne⟩ := h.started i run (hstarted i run hi)
    rw [hheld]
    exact ⟨hlt.trans_le hnext, hnot, fun r hr => hne r (hruns r hr)⟩
  · exact fun i j run run' hi hj => h.apart i j run run' (hstarted i run hi) (hstarted j run' hj)
  · rw [hheld]
    exact fun k hk => h.fresh k (hnext.trans hk)

theorem calls_update {i : Fin n} {q : Phase} (hq : s.Current q.resume)
    (hne : ∀ run, q ≠ .started run) (j : Fin n) :
    (s.setCall i q).calls j = s.calls j ∨ s.Current ((s.setCall i q).calls j).resume ∧
      ∀ run, (s.setCall i q).calls j ≠ .started run := by
  rcases s.setCall_cases i q j with ⟨-, heq⟩ | ⟨-, heq⟩
  · rw [heq]
    exact .inr ⟨hq, hne⟩
  · exact .inl heq

theorem Renewed.setCall (h : s.Renewed threads) {i : Fin n} {q : Phase} (hq : s.Current q.resume)
    (hne : ∀ run, q ≠ .started run) : (s.setCall i q).Renewed threads :=
  h.frame rfl rfl le_rfl rfl (fun _ hr => hr) (calls_update hq hne)

theorem Renewed.start (h : s.Renewed threads) {i : Fin n} {resume : SessionID}
    (hi : s.calls i = .prepared resume) :
    ({ s.setCall i (.started ⟨s.next, s.next, resume⟩) with
      next := s.next + 1
      live := s.live ++ [.run s.next s.next] } : TabRuns n).Renewed threads := by
  have hother : ∀ j run, (s.setCall i (.started ⟨s.next, s.next, resume⟩)).calls j =
      .started run → (j = i ∧ run = ⟨s.next, s.next, resume⟩) ∨
        (j ≠ i ∧ s.calls j = .started run) := by
    intro j run hj
    rcases s.setCall_cases i (.started ⟨s.next, s.next, resume⟩) j with ⟨hji, heq⟩ | ⟨hji, heq⟩
    · exact .inl ⟨hji, (Phase.started.inj (heq.symm.trans hj)).symm⟩
    · exact .inr ⟨hji, heq.symm.trans hj⟩
  refine ⟨h.old_held, h.nil_held, h.session, ?_, ?_, ?_, ?_, ?_⟩
  · intro j
    have hi' := h.calls i
    rw [hi] at hi'
    rcases s.setCall_cases i (.started ⟨s.next, s.next, resume⟩) j with ⟨-, heq⟩ | ⟨-, heq⟩
    · rw [heq]
      exact hi'
    · rw [heq]
      exact h.calls j
  · intro r hr
    obtain ⟨hc, hlt, ho⟩ := h.runs r hr
    exact ⟨hc, Nat.lt_succ_of_lt hlt, ho⟩
  · intro j run hj
    rcases hother j run hj with ⟨rfl, rfl⟩ | ⟨-, hj⟩
    · -- The new run gets the next handle, which no run has and no held id belongs to.
      exact ⟨Nat.lt_succ_self _, h.fresh _ le_rfl, fun r hr => (h.runs r hr).2.1.ne⟩
    · obtain ⟨hlt, hnot, hne⟩ := h.started j run hj
      exact ⟨Nat.lt_succ_of_lt hlt, hnot, hne⟩
  · intro j k run run' hj hk heq
    rcases hother j run hj with ⟨rfl, rfl⟩ | ⟨-, hj₀⟩
    · rcases hother k run' hk with ⟨rfl, -⟩ | ⟨-, hk₀⟩
      · rfl
      · exact absurd heq.symm (h.started k run' hk₀).1.ne
    · rcases hother k run' hk with ⟨rfl, rfl⟩ | ⟨-, hk₀⟩
      · exact absurd heq (h.started j run hj₀).1.ne
      · exact h.apart j k run run' hj₀ hk₀ heq
  · exact fun k hk => h.fresh k (Nat.le_of_succ_le hk)

theorem Renewed.publish (h : s.Renewed threads) {i : Fin n} {run : Run}
    (hi : s.calls i = .started run) : ({ s.setCall i .idle with
      tab := s.tab.publish run.handle run.cancel
      runs := s.runs ++ [run] } : TabRuns n).Renewed threads := by
  obtain ⟨hlt, hnot, -⟩ := h.started i run hi
  have hother : ∀ j run', (s.setCall i .idle).calls j = .started run' →
      j ≠ i ∧ s.calls j = .started run' := by
    intro j run' hj
    rcases s.setCall_cases i .idle j with ⟨-, heq⟩ | ⟨hji, heq⟩
    · simp [heq] at hj
    · exact ⟨hji, heq.symm.trans hj⟩
  refine ⟨h.old_held, h.nil_held, h.session, ?_, ?_, ?_, ?_, h.fresh⟩
  · intro j
    rcases calls_update (s := s) (i := i) (q := .idle) (.inl rfl) (by simp) j with heq | hc
    · rw [heq]
      exact h.calls j
    · exact hc.1
  · intro r hr
    rcases mem_append.mp hr with hr | hr
    · exact h.runs r hr
    · obtain rfl : r = run := mem_singleton.mp hr
      have hc := h.calls i
      rw [hi] at hc
      -- Its new thread is not held, so it is not one of the old ids either.
      exact ⟨hc, hlt, fun ho => hnot (h.old_held _ ho)⟩
  · intro j run' hj
    obtain ⟨hji, hj₀⟩ := hother j run' hj
    obtain ⟨hlt', hnot', hne'⟩ := h.started j run' hj₀
    refine ⟨hlt', hnot', ?_⟩
    intro r hr
    rcases mem_append.mp hr with hr | hr
    · exact hne' r hr
    · obtain rfl : r = run := mem_singleton.mp hr
      exact fun heq => hji (h.apart j i run' r hj₀ hi heq.symm)
  · intro j k run' run'' hj hk
    exact h.apart j k run' run'' (hother j run' hj).2 (hother k run'' hk).2

/-- The id of an event is new, or the id that the run resumes. -/
theorem Renewed.reported (h : s.Renewed threads) {run : Run} (hrun : run ∈ s.runs) {b : Bool}
    (hne : reported threads run b ≠ []) :
    reported threads run b ∉ s.old ∧
      (reported threads run b = threads run.handle ∨ reported threads run b ∈ s.held) := by
  obtain ⟨hc, -, hold⟩ := h.runs run hrun
  cases b with
  | true => exact ⟨hold, .inl rfl⟩
  | false =>
    have hin : run.resume ∈ s.held ∧ run.resume ∉ s.old := hc.resolve_left hne
    exact ⟨hin.2, .inr hin.1⟩

theorem Renewed.report (hinj : Function.Injective threads) (h : s.Renewed threads) {run : Run}
    (hrun : run ∈ s.runs) {b : Bool} (hne : TabRuns.reported threads run b ≠ [])
    (hnone : s.tab.sessionID = []) : ({ s with
      tab := s.tab.setSessionID (TabRuns.reported threads run b)
      held := s.held ++ [TabRuns.reported threads run b] } : TabRuns n).Renewed threads := by
  obtain ⟨hold, hsid⟩ := h.reported hrun hne
  generalize TabRuns.reported threads run b = sid at hne hold hsid ⊢
  -- Neither a run that is not yet published nor a later one has the stored id as its new one.
  have hapart : ∀ k, k ≠ run.handle → threads k ∉ s.held → threads k ∉ s.held ++ [sid] := by
    intro k hk hnot hin
    rcases mem_append.mp hin with hin | hin
    · exact hnot hin
    · rcases hsid with hsid | hsid
      · exact hk (hinj ((mem_singleton.mp hin).trans hsid))
      · exact hnot (mem_singleton.mp hin ▸ hsid)
  have hcur : ∀ sid', s.Current sid' → sid' = [] ∨ (sid' ∈ s.held ++ [sid] ∧ sid' ∉ s.old) :=
    fun sid' hc => hc.imp_right (fun hin => ⟨mem_append_left _ hin.1, hin.2⟩)
  refine ⟨?_, ?_, ?_, ?_, ?_, ?_, h.apart, ?_⟩
  · exact fun sid' hs => mem_append_left _ (h.old_held sid' hs)
  · simpa [hne.symm] using h.nil_held
  · simp only [Current, Tab.setSessionID, hnone, if_true]
    exact .inr ⟨mem_append_right _ (mem_singleton_self _), hold⟩
  · exact fun i => hcur _ (h.calls i)
  · intro r hr
    obtain ⟨hc, hlt, ho⟩ := h.runs r hr
    exact ⟨hcur _ hc, hlt, ho⟩
  · intro i run' hi
    obtain ⟨hlt, hnot, hruns⟩ := h.started i run' hi
    exact ⟨hlt, hapart _ (hruns run hrun).symm hnot, hruns⟩
  · exact fun k hk => hapart k ((h.runs run hrun).2.1.trans_le hk).ne' (h.fresh k hk)

theorem Renewed.renew (h : s.Renewed threads) (hcalls : ∀ i, (s.calls i).resume = [])
    (hruns : ∀ r ∈ s.runs, r.resume = [] ∧ threads r.handle ∉ s.held) :
    ({ s with tab := s.tab.renew, old := s.held } : TabRuns n).Renewed threads := by
  refine ⟨fun _ hs => hs, h.nil_held, .inl rfl, fun i => .inl (hcalls i), ?_, h.started, h.apart,
    h.fresh⟩
  intro r hr
  exact ⟨.inl (hruns r hr).1, (h.runs r hr).2.1, (hruns r hr).2⟩

theorem Renewed.lookup (h : s.Renewed threads) {f : Tab → Tab}
    (hf : ∀ t, (f t).sessionID = t.sessionID) : (s.lookup f).Renewed threads := by
  simp only [TabRuns.lookup]
  split_ifs
  · exact h.frame rfl rfl le_rfl (hf _) (fun _ hr => hr) (fun _ => .inl rfl)
  · exact h

theorem Renewed.go (h : s.Renewed threads) {i : Fin n} {q : Phase} (hgo : s.Goes (s.calls i) q) :
    (s.setCall i q).Renewed threads := by
  generalize s.calls i = p at hgo
  cases hgo with
  | read => exact h.setCall h.session nofun
  | _ => exact h.setCall (.inl rfl) nofun

theorem complete_sessionID (t : Tab) (handle : RunHandle) :
    (t.complete handle).sessionID = t.sessionID := by
  rw [Tab.complete]
  split_ifs <;> rfl

theorem Renewed.step (hinj : Function.Injective threads) (h : s.Renewed threads) {l : RunLabel n}
    (hl : s.RenewsClean threads l) : (TabRuns.step threads s l).Renewed threads := by
  have hmove := s.step_move threads l
  generalize TabRuns.step threads s l = s' at hmove ⊢
  cases hmove with
  | stay => exact h
  | go hgo => exact h.go hgo
  | check | stop => exact h.setCall (.inl rfl) nofun
  | start hi => exact h.start hi
  | publish hi => exact h.publish hi
  | report hrun hne hnone => exact h.report hinj hrun hne hnone
  | @complete run hrun =>
    have hlookup := h.lookup (complete_sessionID · run.handle)
    refine hlookup.frame rfl rfl le_rfl rfl ?_ fun _ => .inl rfl
    intro r hr
    simpa using mem_of_mem_filter hr
  | exit => exact h.frame rfl rfl le_rfl rfl (fun _ hr => hr) fun _ => .inl rfl
  | startCommand =>
    exact h.frame rfl rfl (Nat.le_succ _) rfl (fun _ hr => hr) (calls_update (.inl rfl) nofun)
  | @register i c hi =>
    have hlookup := h.lookup (f := fun t => t.registerCommand c.handle c.cancel) (fun _ => rfl)
    exact hlookup.frame rfl rfl le_rfl rfl (fun _ hr => hr) (calls_update (.inl rfl) nofun)
  | @unregister handle =>
    have hlookup := h.lookup (f := fun t => t.unregisterCommand handle) (fun _ => rfl)
    exact hlookup.frame rfl rfl le_rfl rfl (fun _ hr => hr) (fun _ => .inl rfl)
  | stopHandles | close | closeHandles =>
    exact h.frame rfl rfl le_rfl rfl (fun _ hr => hr) (calls_update (.inl rfl) nofun)
  | renew ho hstatus =>
    obtain ⟨hcalls, hruns⟩ := hl rfl ho hstatus
    exact h.renew hcalls hruns

/-- Only a publish section adds a run, the one that its call has started. -/
theorem mem_runs_step {l : RunLabel n} {run : Run} (hin : run ∈ (TabRuns.step threads s l).runs)
    (hnot : run ∉ s.runs) : ∃ i, s.calls i = .started run := by
  have hmove := s.step_move threads l
  generalize TabRuns.step threads s l = s' at hmove hin
  cases hmove with
  | @publish i run' hi =>
    refine ⟨i, ?_⟩
    rw [hi, mem_singleton.mp ((mem_append.mp hin).resolve_left hnot)]
  | complete => exact absurd (mem_of_mem_filter hin) hnot
  | register | unregister => exact absurd (by simpa [setCall, finish] using hin) hnot
  | _ => exact absurd hin hnot

theorem Renewed.noStale (hinj : Function.Injective threads) (h : s.Renewed threads)
    {l : RunLabel n} (hl : s.RenewsClean threads l) : s.NoStale (TabRuns.step threads s l) where
  accepted run hin hnot := by
    obtain ⟨i, hi⟩ := mem_runs_step hin hnot
    have hc := h.calls i
    rw [hi] at hc
    exact hc.not_old h
  stored := by
    have h' := h.step hinj hl
    exact h'.session.not_old h'

/-- In every run that meets the condition, no prompt that is accepted after a renewal resumes an
id that the tab held before it, and the tab does not hold such an id again. -/
theorem renew_is_final (threads : RunHandle → SessionID) (hinj : Function.Injective threads)
    (t : Tab) (hnew : ∀ h, threads h ≠ t.sessionID) (ls : List (RunLabel n))
    (hclean : Meets (step threads) (RenewsClean threads) (init t) ls) :
    Along (step threads) (fun s _ s' => s.NoStale s') (init t) ls := by
  exact hclean.along (I := Renewed threads) (fun _ _ h hl => h.step hinj hl)
    (fun _ _ h hl => h.noStale hinj hl) (init_renewed hnew)

/-- A codex that numbers its threads. -/
def numbered (handle : RunHandle) : SessionID := lit "thread" ++ replicate handle 49

theorem numbered_injective : Function.Injective numbered := by
  intro a b h
  simpa [numbered] using congrArg length h

theorem numbered_head (handle : RunHandle) : (numbered handle).head? = some 116 := rfl

/-- A tab that was saved with a session. -/
def resumable : Tab :=
  { Tab.new stockConfig (lit "0000000000000001") (lit "repo") [] with sessionID := lit "before" }

/-- A prompt in the saved session, a renewal when its run is over, and a prompt after that. -/
def renewBetween (i : Fin n) : List (RunLabel n) :=
  [.check i, .read i, .start i, .publish i, .report 0 false, .complete 0, .renew,
    .check i, .read i, .start i, .publish i, .report 1 true]

theorem renew_is_final_renewBetween :
    let s := exec (step numbered) (init resumable) (renewBetween (0 : Fin 1))
    s.old = [lit "before"] ∧ s.runs = [⟨1, 1, []⟩] ∧ s.tab.sessionID = lit "thread1" ∧
      Along (step numbered) (fun s _ s' => s.NoStale s') (init resumable)
        (renewBetween (0 : Fin 1)) := by
  refine ⟨by decide, by decide, by decide, ?_⟩
  exact renew_is_final numbered numbered_injective resumable
    (fun h heq => absurd (heq ▸ numbered_head h) (by decide)) _ (by decide)

/-- A renewal between the read of the session id and the start of the run. -/
def renewDuringPrompt (i : Fin n) : List (RunLabel n) :=
  [.check i, .read i, .renew, .start i, .publish i, .report 0 false]

/-- The prompt is accepted after the renewal, resumes the id from before it, and the tab holds
that id again. -/
theorem renewed_session_returns :
    let s := exec (step numbered) (init resumable) (renewDuringPrompt (0 : Fin 1))
    s.old = [lit "before"] ∧ s.runs = [⟨0, 0, lit "before"⟩] ∧
      s.tab.sessionID = lit "before" ∧
      ¬ Along (step numbered) (fun s _ s' => s.NoStale s') (init resumable)
        (renewDuringPrompt (0 : Fin 1)) := by
  refine ⟨by decide, by decide, by decide, ?_⟩
  rintro ⟨-, -, -, -, -, h, -⟩
  exact absurd (by decide) h.stored

end TabRuns

end Centaurx
