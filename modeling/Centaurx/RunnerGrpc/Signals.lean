import Centaurx.Lib.GoString
import Centaurx.Lib.Runs
import Mathlib.Logic.Function.Basic

namespace Centaurx.RunnerGrpc.Signals
open Go Runs List Function

def processSignalHUP : GoString := lit "HUP"
def processSignalTERM : GoString := lit "TERM"
def processSignalKILL : GoString := lit "KILL"

namespace PB

inductive ProcessSignal
  | unspecified | hup | term | kill
  deriving DecidableEq

end PB

open PB (ProcessSignal)

def toPBSignal (sig : GoString) : ProcessSignal :=
  if sig = processSignalHUP then .hup
  else if sig = processSignalTERM then .term
  else if sig = processSignalKILL then .kill
  else .unspecified

def fromPBSignal : ProcessSignal → GoString
  | .hup => processSignalHUP
  | .term => processSignalTERM
  | .kill => processSignalKILL
  | .unspecified => []

theorem fromPBSignal_eq_nil_iff {sig : ProcessSignal} :
    fromPBSignal sig = [] ↔ sig = .unspecified := by
  cases sig <;> decide

/-- `RunCommand`, or one of `Exec` and `ExecResume`. -/
inductive Kind
  | command | exec
  deriving DecidableEq

inductive Proc
  | absent | running | exited
  /-- It could not be started. -/
  | failed
  deriving DecidableEq

/-- Where the handler of the run stands. -/
inductive Handler
  | starting | started | registered | streaming | waiting | returning | gone
  deriving DecidableEq

inductive Reply
  | ok | notRunning | invalidSignal | failed
  deriving DecidableEq

/-- A call of `Signal`. From the decision of the server on, it is kept whether the run had
finished then. -/
inductive Call
  | idle
  | sent (signal : ProcessSignal)
  | found (signal : ProcessSignal)
  | replied (reply : Reply) (finished : Bool)
  | returned (err : Bool) (finished : Bool)
  deriving DecidableEq

structure State where
  handler : Handler := .starting
  proc : Proc := .absent
  registered : Bool := false
  calls : ℕ → Call := fun _ => .idle
  /-- The calls whose signal has reached the process. -/
  delivered : List ℕ := []

open State

inductive Label
  | start (ok : Bool)
  | register
  | sendStarted (ok : Bool)
  /-- The outputs or events have ended, or the stream has failed. -/
  | endStream (ok : Bool)
  | wait
  | unregister
  /-- The process exits. -/
  | exit
  | signal (c : ℕ) (sig : GoString)
  | lookup (c : ℕ)
  /-- `proc.Signal`; `refused` says that the system does not let it through. -/
  | deliver (c : ℕ) (refused : Bool)
  /-- The call returns, with an error if the RPC fails. -/
  | answer (c : ℕ) (fails : Bool)
  deriving DecidableEq

namespace State

/-- The process has ended, or there never was one. -/
def finished (s : State) : Bool := s.proc = .exited || s.proc = .failed

def goto (s : State) (c : ℕ) (call : Call) : State :=
  { s with calls := update s.calls c call }

def deliver (s : State) (c : ℕ) (signal : ProcessSignal) (refused : Bool) : State :=
  if fromPBSignal signal = [] then s.goto c (.replied .invalidSignal s.finished)
  else if refused ∨ s.proc ≠ .running then s.goto c (.replied .failed s.finished)
  else { s with delivered := c :: s.delivered }.goto c (.replied .ok s.finished)

/-- `Signal` of the client: only an error of the RPC is an error. -/
def answer (s : State) (c : ℕ) (fails : Bool) : State :=
  match s.calls c with
  | .idle | .returned _ _ => s
  | .sent _ | .found _ => if fails then s.goto c (.returned true s.finished) else s
  | .replied _ finished => s.goto c (.returned fails finished)

def step (kind : Kind) (s : State) : Label → State
  | .start ok =>
    if s.handler = .starting then
      if ok then { s with handler := .started, proc := .running }
      else { s with handler := .gone, proc := .failed }
    else s
  | .register =>
    if s.handler = .started then { s with handler := .registered, registered := true } else s
  | .sendStarted ok =>
    if s.handler = .registered then { s with handler := if ok then .streaming else .returning }
    else s
  | .endStream ok =>
    if s.handler = .streaming then
      -- A command is waited for also if its stream has failed.
      { s with handler := if ok ∨ kind = .command then .waiting else .returning }
    else s
  | .wait =>
    if s.handler = .waiting ∧ s.proc = .exited then { s with handler := .returning } else s
  | .unregister =>
    if s.handler = .returning then { s with handler := .gone, registered := false } else s
  | .exit => if s.proc = .running then { s with proc := .exited } else s
  | .signal c sig => if s.calls c = .idle then s.goto c (.sent (toPBSignal sig)) else s
  | .lookup c =>
    match s.calls c with
    | .sent signal =>
      -- a run that is not in the table is no error of the RPC
      s.goto c (if s.registered then .found signal else .replied .notRunning s.finished)
    | _ => s
  | .deliver c refused =>
    match s.calls c with
    | .found signal => s.deliver c signal refused
    | _ => s
  | .answer c fails => s.answer c fails

end State

/-- A signal is looked up after the registration. No handler leaves a process that still runs.
The signals are known ones, and the system lets them through to a process that runs. -/
def Orderly (kind : Kind) (s : State) : Label → Prop
  | .sendStarted ok => ok = true ∨ s.proc = .exited
  | .endStream ok => kind = .exec → ok = true ∨ s.proc = .exited
  | .signal _ sig => toPBSignal sig ≠ .unspecified
  | .lookup _ => s.handler ≠ .starting ∧ s.handler ≠ .started
  | .deliver _ refused => refused = true → s.proc = .exited
  | _ => True

instance (kind : Kind) (s : State) : ∀ l, Decidable (Orderly kind s l)
  | .sendStarted _ => inferInstanceAs (Decidable (_ ∨ _))
  | .endStream _ | .deliver .. => inferInstanceAs (Decidable (_ → _))
  | .signal .. => inferInstanceAs (Decidable (_ ≠ _))
  | .lookup _ => inferInstanceAs (Decidable (_ ∧ _))
  | .start _ | .register | .wait | .unregister | .exit | .answer .. => isTrue trivial

/-- What a call in flight or returned says. -/
def Answered (s : State) (c : ℕ) : Call → Prop
  | .idle => True
  | .sent signal => signal ≠ .unspecified
  | .found signal => signal ≠ .unspecified ∧ s.proc ≠ .absent
  | .replied _ finished | .returned false finished => c ∈ s.delivered ∨ finished = true
  | .returned true _ => True

/-- The run is in the table from the registration to the return of the handler, and the handler
returns when the process has ended. -/
structure Kept (s : State) : Prop where
  registered : s.handler ∈ [.registered, .streaming, .waiting] → s.registered = true
  left : s.handler ∈ [.returning, .gone] → s.finished = true
  started : s.handler ≠ .starting ∨ s.registered = true → s.proc ≠ .absent

structure Inv (s : State) : Prop where
  kept : Kept s
  calls : ∀ c, Answered s c (s.calls c)

theorem inv_start : Inv {} :=
  ⟨⟨by simp, by simp, by simp⟩, fun _ => trivial⟩

variable {s : State}

/-- What a call says stays true while a process comes and goes. -/
theorem Answered.mono {s' : State} {c : ℕ} {call : Call} (h : Answered s c call)
    (hproc : s.proc ≠ .absent → s'.proc ≠ .absent) (hdel : s.delivered ⊆ s'.delivered) :
    Answered s' c call := by
  cases call with
  | idle => trivial
  | sent signal => exact h
  | found signal => exact ⟨h.1, hproc h.2⟩
  | replied reply finished => exact h.imp_left fun hmem => hdel hmem
  | returned err finished =>
    cases err with
    | true => trivial
    | false => exact h.imp_left fun hmem => hdel hmem

theorem Inv.serve {s' : State} (h : Inv s) (hkept : Kept s') (hcalls : s'.calls = s.calls)
    (hdel : s'.delivered = s.delivered) (hproc : s.proc ≠ .absent → s'.proc ≠ .absent) :
    Inv s' := by
  refine ⟨hkept, fun c => ?_⟩
  rw [hcalls]
  exact (h.calls c).mono hproc (by rw [hdel]; exact List.Subset.refl _)

theorem Inv.goto (h : Inv s) {c : ℕ} {call : Call} (hcall : Answered s c call) :
    Inv (s.goto c call) := by
  refine ⟨⟨h.kept.registered, h.kept.left, h.kept.started⟩, fun d => ?_⟩
  by_cases hdc : d = c
  · subst hdc
    simp only [State.goto, update_self]
    exact hcall.mono id (List.Subset.refl _)
  · simp only [State.goto, update_of_ne hdc]
    exact (h.calls d).mono id (List.Subset.refl _)

theorem finished_of_ne (h1 : s.proc ≠ .absent) (h2 : s.proc ≠ .running) : s.finished = true := by
  unfold finished
  cases hp : s.proc with
  | absent => exact absurd hp h1
  | running => exact absurd hp h2
  | exited | failed => rfl

theorem inv_deliver (h : Inv s) {c : ℕ} {signal : ProcessSignal} (hc : s.calls c = .found signal)
    {refused : Bool} (hcond : refused = true → s.proc = .exited) :
    Inv (s.deliver c signal refused) := by
  have hfound := h.calls c
  rw [hc] at hfound
  rw [deliver, if_neg (fun hnil => hfound.1 (fromPBSignal_eq_nil_iff.mp hnil))]
  split_ifs with hfail
  · refine h.goto (.inr ?_)
    rcases hfail with hrefused | hproc
    · simp [finished, hcond hrefused]
    · exact finished_of_ne hfound.2 hproc
  · have hmore : Inv { s with delivered := c :: s.delivered } :=
      ⟨⟨h.kept.registered, h.kept.left, h.kept.started⟩, fun d =>
        (h.calls d).mono id (subset_cons_self _ _)⟩
    exact hmore.goto (.inl mem_cons_self)

theorem inv_answer (h : Inv s) (c : ℕ) (fails : Bool) : Inv (s.answer c fails) := by
  have hc := h.calls c
  rw [answer]
  cases hcall : s.calls c with
  | idle | returned err finished => exact h
  | sent signal | found signal =>
    simp only
    split_ifs
    · exact h.goto trivial
    · exact h
  | replied reply finished =>
    -- the flag of the reply is not looked at: what the server has noted has to be enough
    rw [hcall] at hc
    cases fails with
    | true => exact h.goto trivial
    | false => exact h.goto hc

theorem inv_lookup (h : Inv s) {c : ℕ} {signal : ProcessSignal} (hc : s.calls c = .sent signal)
    (hcond : s.handler ≠ .starting ∧ s.handler ≠ .started) :
    Inv (s.goto c (if s.registered then .found signal else .replied .notRunning s.finished)) := by
  have hsent := h.calls c
  rw [hc] at hsent
  split_ifs with hreg
  · exact h.goto ⟨hsent, h.kept.started (.inr hreg)⟩
  · -- The run is not in the table any more: its handler has left.
    refine h.goto (.inr (h.kept.left ?_))
    have hout := mt h.kept.registered hreg
    cases hh : s.handler <;> simp_all

theorem inv_step {kind : Kind} {l : Label} (h : Inv s) (hcond : Orderly kind s l) :
    Inv (s.step kind l) := by
  obtain ⟨hreg, hleft, hstarted⟩ := h.kept
  cases l with
  | start ok =>
    rw [step]
    split_ifs with hh
    · exact h.serve ⟨by simp, by simp, by simp⟩ rfl rfl (by simp)
    · exact h.serve ⟨by simp, by simp [finished], by simp⟩ rfl rfl (by simp)
    · exact h
  | register =>
    rw [step]
    split_ifs with hh
    · exact h.serve ⟨by simp, by simp, fun _ => hstarted (.inl (by simp [hh]))⟩ rfl rfl id
    · exact h
  | sendStarted ok =>
    rw [step]
    split_ifs with hh hok
    · exact h.serve ⟨fun _ => hreg (by simp [hh]), by simp,
        fun _ => hstarted (.inl (by simp [hh]))⟩ rfl rfl id
    · refine h.serve ⟨by simp, fun _ => ?_, fun _ => hstarted (.inl (by simp [hh]))⟩ rfl rfl id
      simp [finished, hcond.resolve_left hok]
    · exact h
  | endStream ok =>
    rw [step]
    split_ifs with hh hok
    · exact h.serve ⟨fun _ => hreg (by simp [hh]), by simp,
        fun _ => hstarted (.inl (by simp [hh]))⟩ rfl rfl id
    · -- only an exec leaves its process here, and the condition says that it has exited
      have hexec : kind = .exec := by
        cases kind with
        | command => exact absurd (.inr rfl) hok
        | exec => rfl
      refine h.serve ⟨by simp, fun _ => ?_, fun _ => hstarted (.inl (by simp [hh]))⟩ rfl rfl id
      simp [finished, (hcond hexec).resolve_left fun hok' => hok (.inl hok')]
    · exact h
  | wait =>
    rw [step]
    split_ifs with hh
    · exact h.serve ⟨by simp, fun _ => by simp [finished, hh.2],
        fun _ => hstarted (.inl (by simp [hh.1]))⟩ rfl rfl id
    · exact h
  | unregister =>
    rw [step]
    split_ifs with hh
    · exact h.serve ⟨by simp, fun _ => hleft (by simp [hh]),
        fun _ => hstarted (.inl (by simp [hh]))⟩ rfl rfl id
    · exact h
  | exit =>
    rw [step]
    split_ifs with hp
    · exact h.serve ⟨hreg, fun _ => by simp [finished], by simp⟩ rfl rfl (by simp)
    · exact h
  | signal c sig =>
    rw [step]
    split_ifs
    · exact h.goto hcond
    · exact h
  | lookup c =>
    rw [step]
    cases hc : s.calls c with
    | sent signal => exact inv_lookup h hc hcond
    | idle | found signal | replied reply finished | returned err finished => exact h
  | deliver c refused =>
    rw [step]
    cases hc : s.calls c with
    | found signal => exact inv_deliver h hc hcond
    | idle | sent signal | replied reply finished | returned err finished => exact h
  | answer c fails => exact inv_answer h c fails

/-- **A signal that has been reported as sent has reached the process**, or the run had finished
when the server decided, if the signal comes after the registration and no handler leaves a
process that runs. -/
theorem signal_nil_delivered (kind : Kind) (run : List Label)
    (hrun : Meets (step kind) (Orderly kind) {} run) {c : ℕ} {finished : Bool}
    (hc : (exec (step kind) {} run).calls c = .returned false finished) :
    c ∈ (exec (step kind) {} run).delivered ∨ finished = true := by
  have hinv := hrun.invariant (fun _ _ => inv_step) inv_start
  have hanswered := hinv.calls c
  rw [hc] at hanswered
  exact hanswered

/-- The run is registered when the signal comes. -/
theorem signal_nil_delivered_running :
    0 ∈ (exec (step .command) {} [.start true, .register, .signal 0 processSignalTERM,
      .lookup 0, .deliver 0 false, .answer 0 false]).delivered ∨ false = true :=
  signal_nil_delivered .command [.start true, .register, .signal 0 processSignalTERM, .lookup 0,
    .deliver 0 false, .answer 0 false] (by decide) (by decide)

/-- The server has started the process and not registered it yet. -/
def earlySignal : List Label :=
  [.start true, .signal 0 processSignalKILL, .lookup 0, .answer 0 false, .register]

/-- The client has gone when the handler sends its first status. -/
def lateSignal : List Label :=
  [.start true, .register, .sendStarted false, .unregister, .signal 0 processSignalKILL,
    .lookup 0, .answer 0 false]

/-- `Signal` returns nil, and the process runs on without the signal. -/
theorem signal_nil_lost :
    (exec (step .command) {} earlySignal).calls 0 = .returned false false ∧
      (exec (step .command) {} earlySignal).delivered = [] ∧
      (exec (step .command) {} earlySignal).proc = .running ∧
    (exec (step .command) {} lateSignal).calls 0 = .returned false false ∧
      (exec (step .command) {} lateSignal).delivered = [] ∧
      (exec (step .command) {} lateSignal).proc = .running := by decide

end Centaurx.RunnerGrpc.Signals
