import Centaurx.SshServer.SessionFacts

namespace Centaurx.SshServer
open Go Runs List Function

/-- The prompts of the tab that `SendPrompt` has accepted. -/
def accepted (tab : TabID) (trace : List Act) : List Prompt :=
  trace.filterMap fun
    | .sendPrompt tab' prompt .ok => if tab' = tab then some prompt else none
    | _ => none

/-- The prompts that were submitted to the tab. -/
def submittedTo (tab : TabID) (trace : List Act) : List Prompt :=
  trace.filterMap fun
    | .submitted tab' prompt => if tab' = tab then some prompt else none
    | _ => none

theorem accepted_concat (tab : TabID) (trace : List Act) (a : Act) :
    accepted tab (trace ++ [a]) = accepted tab trace ++ accepted tab [a] := filterMap_append

theorem submittedTo_concat (tab : TabID) (trace : List Act) (a : Act) :
    submittedTo tab (trace ++ [a]) = submittedTo tab trace ++ submittedTo tab [a] :=
  filterMap_append

namespace Session

/-- A prompt is not sent past others that wait. -/
def InTurn (t : Session) (input : Input × Answers) : Prop :=
  input.1 = .key .keyEnter → t.exited = false →
    (t.codexauth = false ∧ t.chpasswd = none ∧ t.rotateSSH = false) →
    entry (editorText t.editor).s = .prompt →
    t.queues t.activeTab = [] ∨ t.tabStatus t.activeTab = some .running

instance (t : Session) (input : Input × Answers) : Decidable (t.InTurn input) :=
  inferInstanceAs (Decidable (_ → _ → _ → _ → _))

/-- The prompts that are accepted and then those that wait come in the order in which they were
submitted, and a prompt is the later the larger its number is. -/
structure InOrder (t : Session) : Prop where
  order : ∀ tab, (accepted tab t.trace ++ t.queues tab).Sublist (submittedTo tab t.trace)
  older : ∀ tab, ∀ p ∈ submittedTo tab t.trace, p.id < t.trace.length
  increasing : ∀ tab, (submittedTo tab t.trace).Pairwise fun p q => p.id < q.id

variable {ans : Answers} {t t' : Session}

theorem InOrder.call (h : t.InOrder) {a : Act} (hacc : ∀ tab, accepted tab [a] = [])
    (hsub : ∀ tab, submittedTo tab [a] = []) : (t.call a).InOrder := by
  have hacc' : ∀ tab, accepted tab (t.call a).trace = accepted tab t.trace := fun tab => by
    rw [Session.call, accepted_concat, hacc, append_nil]
  have hsub' : ∀ tab, submittedTo tab (t.call a).trace = submittedTo tab t.trace := fun tab => by
    rw [Session.call, submittedTo_concat, hsub, append_nil]
  refine ⟨fun tab => ?_, fun tab p hp => ?_, fun tab => ?_⟩
  · rw [hacc', hsub']
    exact h.order tab
  · rw [hsub'] at hp
    have := h.older tab p hp
    simp only [Session.call, length_append, length_singleton]
    omega
  · rw [hsub']
    exact h.increasing tab

theorem inOrder_speaks : Speaks (fun _ => True) InOrder where
  plain _ := trivial
  map _ h := h
  same h hs := by
    refine ⟨?_, ?_, ?_⟩
    · rw [hs.trace, hs.queues]
      exact h.order
    · rw [hs.trace]
      exact h.older
    · rw [hs.trace]
      exact h.increasing
  call {_ a} ha h := by
    refine h.call (fun tab => ?_) fun tab => ?_
    · cases a with
      | sendPrompt | submitted => exact ha.elim
      | _ => rfl
    · cases a with
      | sendPrompt | submitted => exact ha.elim
      | _ => rfl

variable {tab : TabID} {p : Prompt}

theorem InOrder.refused (h : t.InOrder) {answer : SendAnswer} (hanswer : answer ≠ .ok) :
    (t.call (.sendPrompt tab p answer)).InOrder := by
  refine h.call (fun tab' => ?_) fun tab' => rfl
  cases answer with
  | ok => exact absurd rfl hanswer
  | busy | error => rfl

theorem InOrder.accept (h : t.InOrder) {queue : List Prompt} (hqueue : t.queues tab = p :: queue) :
    InOrder { t.call (.sendPrompt tab p .ok) with
      queues := update t.queues tab queue } := by
  have hsub : ∀ tab', submittedTo tab' (t.call (.sendPrompt tab p .ok)).trace =
      submittedTo tab' t.trace := fun tab' => by
    rw [Session.call, submittedTo_concat]
    exact append_nil _
  refine ⟨fun tab' => ?_, fun tab' q hq => ?_, fun tab' => ?_⟩
  · have hold := h.order tab'
    by_cases htab : tab' = tab
    · subst htab
      rw [hqueue] at hold
      rw [hsub]
      simpa [Session.call, accepted_concat, accepted] using hold
    · rw [hsub]
      simpa [Session.call, accepted_concat, accepted, htab, Ne.symm htab] using hold
  · rw [hsub] at hq
    have := h.older tab' q hq
    simp only [Session.call, length_append, length_singleton]
    omega
  · rw [hsub]
    exact h.increasing tab'

theorem InOrder.drain (h : t.InOrder) (tab : TabID × TabStatus) : (t.drain ans tab).InOrder := by
  rw [Session.drain]
  split
  · exact h
  · split
    · exact h
    · rename_i prompt queue hqueue
      split
      · rename_i hanswer
        rw [sendPrompt, hanswer]
        exact h.refused (by simp)
      · rename_i err hanswer
        rw [sendPrompt, hanswer]
        exact inOrder_speaks.appendError (h.refused (by simp))
      · rename_i hanswer
        simp only [sendPrompt, hanswer]
        exact h.accept hqueue

/-- The prompt was submitted after all others, and is not sent or queued yet. -/
structure Awaiting (t : Session) (tab : TabID) (p : Prompt) : Prop extends t.InOrder where
  last : (accepted tab t.trace ++ t.queues tab ++ [p]).Sublist (submittedTo tab t.trace)

theorem InOrder.submit (h : t.InOrder) (tab : TabID) (raw : Text) :
    (t.call (.submitted tab ⟨t.trace.length, raw⟩)).Awaiting tab ⟨t.trace.length, raw⟩ := by
  have hacc : ∀ tab', accepted tab' (t.call (.submitted tab ⟨t.trace.length, raw⟩)).trace =
      accepted tab' t.trace := fun tab' => by
    rw [Session.call, accepted_concat]
    exact append_nil _
  have hsub : ∀ tab', submittedTo tab' (t.call (.submitted tab ⟨t.trace.length, raw⟩)).trace =
      submittedTo tab' t.trace ++
        if tab = tab' then [⟨t.trace.length, raw⟩] else [] := fun tab' => by
    rw [Session.call, submittedTo_concat]
    congr 1
    by_cases htab : tab = tab' <;> simp [submittedTo, htab]
  refine ⟨⟨fun tab' => ?_, fun tab' q hq => ?_, fun tab' => ?_⟩, ?_⟩
  · rw [hacc, hsub]
    exact (h.order tab').trans (sublist_append_left _ _)
  · have hlen : (t.call (.submitted tab ⟨t.trace.length, raw⟩)).trace.length =
        t.trace.length + 1 := by simp [Session.call]
    rw [hsub] at hq
    rw [hlen]
    rcases mem_append.mp hq with hq | hq
    · have := h.older tab' q hq
      omega
    · split at hq
      · rw [mem_singleton.mp hq]
        exact Nat.lt_succ_self _
      · simp at hq
  · rw [hsub, pairwise_append]
    refine ⟨h.increasing tab', ?_, fun q hq r hr => ?_⟩
    · split <;> simp
    · split at hr
      · rw [mem_singleton.mp hr]
        exact h.older tab' q hq
      · simp at hr
  · rw [hacc, hsub, if_pos rfl]
    exact (h.order tab).append (List.Sublist.refl _)

theorem Awaiting.queue (h : t.Awaiting tab p) : (t.queuePrompt tab p).InOrder := by
  have hpush : InOrder { t with queues := update t.queues tab (t.queues tab ++ [p]) } := by
    refine ⟨fun tab' => ?_, h.older, h.increasing⟩
    by_cases htab : tab' = tab
    · subst htab
      simpa using h.last
    · simpa [htab] using h.order tab'
  exact hpush.call (fun _ => rfl) fun _ => rfl

theorem Awaiting.refused (h : t.Awaiting tab p) {answer : SendAnswer} (hanswer : answer ≠ .ok) :
    (t.call (.sendPrompt tab p answer)).Awaiting tab p := by
  refine ⟨h.toInOrder.refused hanswer, ?_⟩
  have hacc : accepted tab [.sendPrompt tab p answer] = [] := by
    cases answer with
    | ok => exact absurd rfl hanswer
    | busy | error => rfl
  have hsub : submittedTo tab [.sendPrompt tab p answer] = [] := rfl
  rw [Session.call, accepted_concat, submittedTo_concat, hacc, hsub, append_nil,
    append_nil]
  exact h.last

/-- Nothing waits, so the prompt may be accepted at once. -/
theorem Awaiting.accept (h : t.Awaiting tab p) (hqueue : t.queues tab = []) :
    (t.call (.sendPrompt tab p .ok)).InOrder := by
  have hpush : InOrder { t with queues := update t.queues tab [p] } := by
    refine ⟨fun tab' => ?_, h.older, h.increasing⟩
    by_cases htab : tab' = tab
    · subst htab
      simpa [hqueue] using h.last
    · simpa [htab] using h.order tab'
  have htab : update t.queues tab [p] tab = [p] := update_self ..
  have haccept := hpush.accept htab
  refine inOrder_speaks.same haccept ⟨?_, rfl, rfl, rfl⟩
  funext tab'
  by_cases htab : tab' = tab
  · subst htab
    simp [Session.call, hqueue]
  · simp [Session.call, htab]

theorem InOrder.submitPrompt (h : t.InOrder)
    (hturn : t.queues t.activeTab = [] ∨ t.tabStatus t.activeTab = some .running) (raw : Text) :
    (t.submitPrompt ans raw).InOrder := by
  rw [Session.submitPrompt]
  split
  · exact inOrder_speaks.same h ⟨rfl, rfl, rfl, rfl⟩
  · have hsub := h.submit t.activeTab raw
    simp only
    split
    · exact hsub.queue
    · rename_i hrun
      have hempty : t.queues t.activeTab = [] := hturn.resolve_right hrun
      split
      · rename_i hanswer
        rw [sendPrompt, hanswer]
        exact hsub.accept hempty
      · rename_i hanswer
        rw [sendPrompt, hanswer]
        exact (hsub.refused (by simp)).queue
      · rename_i err hanswer
        rw [sendPrompt, hanswer]
        exact inOrder_speaks.appendError (hsub.refused (by simp)).toInOrder

theorem inOrder_closed : Closed (fun _ => True) InOrder where
  toSpeaks := inOrder_speaks
  dialog _ h := ⟨h.order, h.older, h.increasing⟩
  field _ _ h := inOrder_speaks.field (fun _ h => ⟨h.order, h.older, h.increasing⟩)
    (fun _ _ h => h.call (fun _ => rfl) fun _ => rfl)
    (fun _ _ _ h => h.call (fun _ => rfl) fun _ => rfl) h
  spawn _ h := ⟨h.order, h.older, h.increasing⟩
  erase _ h := ⟨h.order, h.older, h.increasing⟩
  pending _ _ _ := trivial
  drain _ _ tab h := h.drain tab

theorem takeInput_tabs : (t.takeInput ans).activeTab = t.activeTab ∧
    (t.takeInput ans).queues = t.queues ∧ (t.takeInput ans).tabStatus = t.tabStatus := by
  simp only [takeInput, saveHistoryEntry]
  split_ifs
  · exact ⟨rfl, rfl, rfl⟩
  · exact ⟨rfl, rfl, rfl⟩
  · split <;> exact ⟨rfl, rfl, rfl⟩

theorem InOrder.step (h : t.InOrder) {input : Input × Answers} (hturn : t.InTurn input) :
    (t.step input).InOrder := by
  refine inOrder_closed.step h (fun _ _ => trivial) (fun _ _ _ _ _ => trivial) ?_
  intro ans hinput hexited hplain hentry htake
  obtain ⟨htab, hqueues, hstatus⟩ := @takeInput_tabs ans t
  refine htake.submitPrompt ?_ _
  rw [htab, hqueues, hstatus]
  exact hturn hinput hexited hplain hentry

end Session

open Centaurx.SshServer.Session

/-- **First in, first out.** In a run in which no prompt is sent past others that wait, the
prompts of a tab are accepted in the order in which they were submitted, each at most once. -/
theorem prompts_in_order (hasHandler hasAuthStore : Bool) (inputs : List (Input × Answers))
    (h : Meets Session.step InTurn (newTerminalSession hasHandler hasAuthStore) inputs)
    (tab : TabID) :
    (accepted tab
      (exec Session.step (newTerminalSession hasHandler hasAuthStore) inputs).trace).Sublist
        (submittedTo tab
          (exec Session.step (newTerminalSession hasHandler hasAuthStore) inputs).trace) ∧
      (submittedTo tab
        (exec Session.step (newTerminalSession hasHandler hasAuthStore) inputs).trace).Pairwise
          fun p q => p.id < q.id := by
  have hnew : (newTerminalSession hasHandler hasAuthStore).InOrder :=
    ⟨fun tab => List.Sublist.refl [], fun _ _ hp => by simp [newTerminalSession, submittedTo] at hp,
      fun _ => List.Pairwise.nil⟩
  have hinv := h.invariant (I := InOrder) (fun _ _ h hturn => h.step hturn) hnew
  exact ⟨(sublist_append_left _ _).trans (hinv.order tab), hinv.increasing tab⟩

/-- A refresh that finds the tab `t` in the given state. -/
def refreshed (status : TabStatus) : Input × Answers :=
  (.refresh, { listTabs := some ⟨[(lit "t", status)], lit "t"⟩ })

/-- The user enters a prompt. -/
def enters (text : GoString) : List (Input × Answers) := types text ++ [(.key .keyEnter, noAnswers)]

/-- Two prompts are queued while the tab runs and sent when it is idle. -/
def queuedRun : List (Input × Answers) :=
  refreshed .running :: enters (lit "a") ++ enters (lit "b") ++ [refreshed .idle, refreshed .idle]

theorem prompts_in_order_queuedRun :
    Meets Session.step InTurn (newTerminalSession true true) queuedRun ∧
      (accepted (lit "t") (exec Session.step (newTerminalSession true true) queuedRun).trace).map
        (·.text.s) = [lit "a", lit "b"] ∧
      (accepted (lit "t")
        (exec Session.step (newTerminalSession true true) queuedRun).trace).Sublist
        (submittedTo (lit "t")
          (exec Session.step (newTerminalSession true true) queuedRun).trace) :=
  ⟨by decide, by decide, (prompts_in_order true true queuedRun (by decide) (lit "t")).1⟩

/-- While the tab runs, `a` and `b` are queued; the tab gets idle and the refresh sends `a`, which
is done at once. Then comes `c`. -/
def overtakenRun : List (Input × Answers) :=
  refreshed .running :: enters (lit "a") ++ enters (lit "b") ++ refreshed .idle ::
    enters (lit "c") ++ [refreshed .idle]

theorem prompt_overtakes :
    (submittedTo (lit "t")
      (exec Session.step (newTerminalSession true true) overtakenRun).trace).map
        (·.text.s) = [lit "a", lit "b", lit "c"] ∧
      (accepted (lit "t") (exec Session.step (newTerminalSession true true) overtakenRun).trace).map
        (·.text.s) = [lit "a", lit "c", lit "b"] := by
  decide

end Centaurx.SshServer
