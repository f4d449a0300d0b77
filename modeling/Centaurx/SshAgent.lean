import Centaurx.Lib.Runs
import Mathlib.Logic.Function.Basic

namespace Centaurx.SshAgent
open Runs List Function

/-- Where a call stands. Listeners are numbers. -/
inductive Phase
  | idle
  | entered
  /-- The phases with the lock: before the probe, before the close of a listener that has not
  answered, and before the handle is deleted. -/
  | locked | closing (listener : ℕ) | deleting
  /-- The start of an agent. -/
  | loading | making | removing | listening
  | chmodding (listener : ℕ) | adding (listener : ℕ) | storing (listener : ℕ)
  /-- The start has failed with a listener. -/
  | dropping (listener : ℕ)
  | returned (ok : Bool)
  deriving DecidableEq

structure State where
  lock : Option ℕ := none
  /-- The listener of the handle in `m.agents`. -/
  handle : Option ℕ := none
  /-- Whose socket is at the path of the user. -/
  bound : Option ℕ
  /-- The listeners that are open, in the order of their starts. -/
  opened : List ℕ := []
  next : ℕ := 1
  calls : ℕ → Phase := fun _ => .idle
  /-- The calls that have begun. -/
  begun : List ℕ := []

open State

/-- The manager at its start. The socket of an earlier process may be left at the path. -/
def State.start (stale : Bool) : State where
  bound := if stale then some 0 else none

inductive Label
  | begin (c : ℕ)
  /-- The call makes its next step; `fails` says that its operation fails. -/
  | advance (c : ℕ) (fails : Bool)
  deriving DecidableEq

namespace State

def goto (s : State) (c : ℕ) (phase : Phase) : State :=
  { s with calls := update s.calls c phase }

/-- A connection to the path is accepted. -/
def Reachable (s : State) : Prop := ∃ l ∈ s.opened, s.bound = some l

instance (s : State) : Decidable s.Reachable :=
  inferInstanceAs (Decidable (∃ l ∈ s.opened, s.bound = some l))

/-- `listener.Close` also removes what is at the path. -/
def close (s : State) (l : ℕ) : State := { s with opened := s.opened.erase l, bound := none }

def advance (s : State) (c : ℕ) (fails : Bool) : State :=
  match s.calls c with
  | .idle | .returned _ => s
  | .entered => if s.lock = none then { s with lock := some c }.goto c .locked else s
  | .locked =>
    match s.handle with
    | none => { s with lock := none }.goto c .loading
    | some l =>
      if s.Reachable ∧ fails = false then { s with lock := none }.goto c (.returned true)
      else s.goto c (.closing l)
  | .closing l => (s.close l).goto c .deleting
  | .deleting => { s with lock := none, handle := none }.goto c .loading
  | .loading => s.goto c (if fails then .returned false else .making)
  | .making => s.goto c (if fails then .returned false else .removing)
  -- an error of the removal is ignored
  | .removing => { s with bound := if fails then s.bound else none }.goto c .listening
  | .listening =>
    -- An address that is in use is an error too.
    if fails ∨ s.bound ≠ none then s.goto c (.returned false)
    else
      { s with bound := some s.next, opened := s.opened ++ [s.next], next := s.next + 1 }.goto c
        (.chmodding s.next)
  | .chmodding l => s.goto c (if fails ∨ s.bound = none then .dropping l else .adding l)
  | .adding l => s.goto c (if fails then .dropping l else .storing l)
  | .storing l =>
    if s.lock = none then { s with handle := some l }.goto c (.returned true) else s
  | .dropping l => (s.close l).goto c (.returned false)

def step (s : State) : Label → State
  | .begin c =>
    if s.calls c = .idle then { s with begun := c :: s.begun }.goto c .entered else s
  | .advance c fails => s.advance c fails

end State

def Phase.holdsLock : Phase → Bool
  | .locked | .closing _ | .deleting => true
  | _ => false

def Phase.starting : Phase → Bool
  | .loading | .making | .removing | .listening => true
  | .chmodding _ | .adding _ | .storing _ | .dropping _ => true
  | _ => false

def Phase.active (p : Phase) : Bool := p.holdsLock || p.starting

def Phase.inFlight (p : Phase) : Bool := p.active || p = .entered

/-- No call looks for the handle while another one starts an agent, and a probe of a socket that
can be reached succeeds. -/
def OneStart (s : State) : Label → Prop
  | .begin _ => True
  | .advance c fails =>
    (s.calls c = .entered → s.lock = none → ∀ d ∈ s.begun, (s.calls d).starting = false) ∧
      (s.calls c = .locked → s.Reachable → fails = false)

instance (s : State) : ∀ l, Decidable (OneStart s l)
  | .begin _ => inferInstanceAs (Decidable True)
  | .advance _ _ => inferInstanceAs (Decidable ((_ → _ → _) ∧ (_ → _ → _)))

/-- One listener is open, it is reached at the path and it is the one of the handle. -/
def OneAgent (s : State) (l : ℕ) : Prop := s.handle = some l ∧ s.opened = [l] ∧ s.bound = some l

/-- The agent when no call is active. -/
def Settled (s : State) : Prop := (s.handle = none ∧ s.opened = []) ∨ ∃ l, OneAgent s l

/-- The agent while a call is active. -/
def Expected (s : State) : Phase → Prop
  | .locked => Settled s
  | .loading | .making | .removing | .listening => s.handle = none ∧ s.opened = []
  | .chmodding l | .adding l | .storing l =>
    s.handle = none ∧ s.opened = [l] ∧ s.bound = some l
  | .dropping l => s.handle = none ∧ s.opened = [l]
  | _ => False

structure Inv (s : State) : Prop where
  agent : ((∀ c, (s.calls c).active = false) ∧ s.lock = none ∧ Settled s) ∨
    ∃ c, (s.calls c).active = true ∧ (∀ d, d ≠ c → (s.calls d).active = false) ∧
      s.lock = (if (s.calls c).holdsLock then some c else none) ∧ Expected s (s.calls c)
  succeeded : ∀ c, s.calls c = .returned true → s.handle ≠ none
  begun : ∀ c, s.calls c ≠ .idle → c ∈ s.begun

theorem inv_start (stale : Bool) : Inv (start stale) :=
  ⟨.inl ⟨fun _ => rfl, rfl, .inl ⟨rfl, rfl⟩⟩, fun _ h => (by cases h), fun _ h => absurd rfl h⟩

section Moves
variable {s s' : State} {c : ℕ} {p q : Phase}

/-- An active call is the only one, and finds the agent as it expects it. -/
theorem Inv.alone (h : Inv s) (hp : s.calls c = p) (hc : p.active = true) :
    (∀ d, d ≠ c → (s.calls d).active = false) ∧
      s.lock = (if p.holdsLock then some c else none) ∧ Expected s p := by
  subst hp
  rcases h.agent with ⟨hnone, -⟩ | ⟨d, hd, hothers, hlock, hexp⟩
  · rw [hnone c] at hc
    cases hc
  · obtain rfl : c = d := by
      by_contra hne
      rw [hothers c hne] at hc
      cases hc
    exact ⟨hothers, hlock, hexp⟩

/-- A call goes on while no other one is active. -/
theorem Inv.goes (h : Inv s) (hc : s.calls c ≠ .idle)
    (hothers : ∀ d, d ≠ c → (s.calls d).active = false) (hbegun : s'.begun = s.begun)
    (hcalls : s'.calls = update s.calls c q)
    (hsucc : ∀ d, s.calls d = .returned true → s'.handle ≠ none)
    (hret : q = .returned true → s'.handle ≠ none)
    (hstays : q.active = true →
      s'.lock = (if q.holdsLock then some c else none) ∧ Expected s' q)
    (hleaves : q.active = false → s'.lock = none ∧ Settled s') : Inv s' := by
  have hself : s'.calls c = q := by rw [hcalls, update_self]
  have hother : ∀ d, d ≠ c → s'.calls d = s.calls d := by
    intro d hd
    rw [hcalls, update_of_ne hd]
  refine ⟨?_, fun d hd => ?_, fun d hd => ?_⟩
  · cases hactive : q.active with
    | true =>
      refine .inr ⟨c, hself ▸ hactive, fun d hd => ?_, hself ▸ hstays hactive⟩
      rw [hother d hd]
      exact hothers d hd
    | false =>
      refine .inl ⟨fun d => ?_, hleaves hactive⟩
      by_cases hdc : d = c
      · rw [hdc, hself]
        exact hactive
      · rw [hother d hdc]
        exact hothers d hdc
  · by_cases hdc : d = c
    · exact hret (hself ▸ hdc ▸ hd)
    · exact hsucc d (hother d hdc ▸ hd)
  · rw [hbegun]
    by_cases hdc : d = c
    · exact hdc ▸ h.begun c hc
    · exact h.begun d (hother d hdc ▸ hd)

end Moves

variable {s : State}

theorem Inv.enter (h : Inv s) {c : ℕ} (hc : s.calls c = .idle) :
    Inv (({ s with begun := c :: s.begun } : State).goto c .entered) := by
  have hcalls : ∀ d, d ≠ c → update s.calls c .entered d = s.calls d :=
    fun d hdc => update_of_ne hdc ..
  have hsame : ∀ d, (update s.calls c .entered d).active = (s.calls d).active := by
    intro d
    by_cases hdc : d = c
    · rw [hdc, hc, update_self]
      rfl
    · rw [hcalls d hdc]
  refine ⟨?_, fun d hd => ?_, fun d hd => ?_⟩
  · rcases h.agent with ⟨hnone, hlock, hsettled⟩ | ⟨d, hd, hothers, hlock, hexp⟩
    · exact .inl ⟨fun d => (hsame d).trans (hnone d), hlock, hsettled⟩
    · have hdc : d ≠ c := by
        rintro rfl
        rw [hc] at hd
        cases hd
      refine .inr ⟨d, (hsame d).trans hd, fun e he => (hsame e).trans (hothers e he), ?_, ?_⟩
      · simp only [goto, hcalls d hdc]
        exact hlock
      · simp only [goto, hcalls d hdc]
        exact hexp
  · by_cases hdc : d = c
    · simp [goto, hdc] at hd
    · exact h.succeeded d (by simpa [goto, hcalls d hdc] using hd)
  · by_cases hdc : d = c
    · rw [hdc]
      exact mem_cons_self
    · refine mem_cons_of_mem _ (h.begun d ?_)
      simpa [goto, hcalls d hdc] using hd

theorem Inv.quiet (h : Inv s) (hlock : s.lock = none)
    (hstart : ∀ d ∈ s.begun, (s.calls d).starting = false) :
    (∀ c, (s.calls c).active = false) ∧ Settled s := by
  rcases h.agent with ⟨hnone, -, hsettled⟩ | ⟨c, hc, -, hlock', -⟩
  · exact ⟨hnone, hsettled⟩
  · have hidle : s.calls c ≠ .idle := by
      intro hidle
      rw [hidle] at hc
      cases hc
    rw [Phase.active, hstart c (h.begun c hidle), Bool.or_false] at hc
    rw [hlock, hc] at hlock'
    cases hlock'

theorem inv_advance (h : Inv s) {c : ℕ} {fails : Bool} (hcond : OneStart s (.advance c fails)) :
    Inv (s.advance c fails) := by
  cases hp : s.calls c with
  | idle | returned ok => rwa [advance, hp]
  | entered =>
    simp only [advance, hp]
    split_ifs with hlock
    · obtain ⟨hnone, hsettled⟩ := h.quiet hlock (hcond.1 hp hlock)
      exact h.goes (by simp [hp]) (fun d _ => hnone d) rfl rfl h.succeeded nofun
        (fun _ => ⟨rfl, hsettled⟩) nofun
    · exact h
  | locked =>
    obtain ⟨hothers, -, hexp⟩ := h.alone hp rfl
    simp only [advance, hp]
    rcases hexp with ⟨hhandle, hopened⟩ | ⟨l, hhandle, hopened, hbound⟩
    · rw [hhandle]
      exact h.goes (by simp [hp]) hothers rfl rfl
        (fun d hd => absurd hhandle (h.succeeded d hd)) nofun (fun _ => ⟨rfl, rfl, hopened⟩) nofun
    · -- The agent answers, so its listener is never closed.
      have hreach : s.Reachable := ⟨l, by rw [hopened]; exact mem_singleton_self l, hbound⟩
      rw [hhandle]
      simp only [hreach, hcond.2 hp hreach, and_self, if_true]
      exact h.goes (by simp [hp]) hothers rfl rfl (fun _ _ => by simp [goto])
        (fun _ => by simp [goto]) nofun fun _ => ⟨rfl, .inr ⟨l, rfl, hopened, hbound⟩⟩
  | closing | deleting =>
    -- a probe that can be answered is answered, so no listener is given up
    obtain ⟨-, -, hexp⟩ := h.alone hp rfl
    exact False.elim hexp
  | loading | making =>
    obtain ⟨hothers, hlock, hexp⟩ := h.alone hp rfl
    simp only [advance, hp]
    cases fails with
    | true =>
      exact h.goes (by simp [hp]) hothers rfl rfl h.succeeded nofun nofun
        fun _ => ⟨hlock, .inl hexp⟩
    | false =>
      exact h.goes (by simp [hp]) hothers rfl rfl h.succeeded nofun (fun _ => ⟨hlock, hexp⟩) nofun
  | removing =>
    obtain ⟨hothers, hlock, hexp⟩ := h.alone hp rfl
    simp only [advance, hp]
    exact h.goes (by simp [hp]) hothers rfl rfl h.succeeded nofun (fun _ => ⟨hlock, hexp⟩) nofun
  | listening =>
    obtain ⟨hothers, hlock, hexp⟩ := h.alone hp rfl
    simp only [advance, hp]
    split_ifs with hfail
    · exact h.goes (by simp [hp]) hothers rfl rfl h.succeeded nofun nofun
        fun _ => ⟨hlock, .inl hexp⟩
    · refine h.goes (by simp [hp]) hothers rfl rfl h.succeeded nofun
        (fun _ => ⟨hlock, hexp.1, ?_, rfl⟩) nofun
      simp [goto, hexp.2]
  | chmodding l | adding l =>
    obtain ⟨hothers, hlock, hexp⟩ := h.alone hp rfl
    simp only [advance, hp]
    split_ifs
    · exact h.goes (by simp [hp]) hothers rfl rfl h.succeeded nofun
        (fun _ => ⟨hlock, hexp.1, hexp.2.1⟩) nofun
    · exact h.goes (by simp [hp]) hothers rfl rfl h.succeeded nofun (fun _ => ⟨hlock, hexp⟩) nofun
  | storing l =>
    obtain ⟨hothers, hlock, hexp⟩ := h.alone hp rfl
    have hfree : s.lock = none := hlock
    simp only [advance, hp, hfree, if_true]
    exact h.goes (by simp [hp]) hothers rfl rfl (fun _ _ => by simp [goto])
      (fun _ => by simp [goto]) nofun fun _ => ⟨rfl, .inr ⟨l, rfl, hexp.2⟩⟩
  | dropping l =>
    obtain ⟨hothers, hlock, hexp⟩ := h.alone hp rfl
    simp only [advance, hp]
    refine h.goes (by simp [hp]) hothers rfl rfl h.succeeded nofun nofun
      fun _ => ⟨hlock, .inl ⟨hexp.1, ?_⟩⟩
    simp [goto, close, hexp.2]

theorem inv_step {l : Label} (h : Inv s) (hcond : OneStart s l) : Inv (s.step l) := by
  cases l with
  | begin c =>
    rw [step]
    split_ifs with hc
    · exact h.enter hc
    · exact h
  | advance c fails => exact inv_advance h hcond

/-- **One agent per user**, if no call looks for the handle while another one starts an agent:
when all calls have returned and one has returned success, exactly one listener is open, it is
the one at the path and the one of the handle. -/
theorem one_agent (stale : Bool) (run : List Label)
    (hrun : Meets step OneStart (start stale) run)
    (hdone : ∀ c ∈ (exec step (start stale) run).begun,
      ((exec step (start stale) run).calls c).inFlight = false)
    {c : ℕ} (hc : (exec step (start stale) run).calls c = .returned true) :
    ∃ l, (exec step (start stale) run).opened = [l] ∧
      (exec step (start stale) run).bound = some l ∧
      (exec step (start stale) run).handle = some l := by
  have hinv := hrun.invariant (fun _ _ => inv_step) (inv_start stale)
  generalize exec step (start stale) run = s at hdone hc hinv
  rcases hinv.agent with ⟨-, -, hsettled⟩ | ⟨d, hd, -⟩
  · rcases hsettled with ⟨hhandle, -⟩ | ⟨l, hhandle, hopened, hbound⟩
    · exact absurd hhandle (hinv.succeeded c hc)
    · exact ⟨l, hopened, hbound, hhandle⟩
  · have hidle : s.calls d ≠ .idle := by
      intro hidle
      rw [hidle] at hd
      cases hd
    have hflight := hdone d (hinv.begun d hidle)
    rw [Phase.inFlight, hd] at hflight
    cases hflight

/-- A call makes a number of steps, none of which fails. -/
def steps (c n : ℕ) : List Label := replicate n (.advance c false)

/-- A call starts the agent over a stale socket, and a second one finds it. -/
theorem one_agent_found :
    ∃ l, (exec step (.start true) (.begin 0 :: .begin 1 :: steps 0 9 ++ steps 1 2)).opened =
        [l] ∧
      (exec step (.start true) (.begin 0 :: .begin 1 :: steps 0 9 ++ steps 1 2)).bound =
        some l ∧
      (exec step (.start true) (.begin 0 :: .begin 1 :: steps 0 9 ++ steps 1 2)).handle =
        some l :=
  one_agent true (.begin 0 :: .begin 1 :: steps 0 9 ++ steps 1 2) (by decide) (by decide)
    (c := 0) (by decide)

/-- Two calls find no handle. The first listens, the second removes its socket and listens, and
stores its handle before the first does. -/
def overlappingStarts : List Label :=
  .begin 0 :: .begin 1 :: steps 0 2 ++ steps 1 2 ++ steps 0 4 ++ steps 1 7 ++ steps 0 3

/-- Both return success. Two listeners are open, and the one of the handle is not the one that
clients reach. -/
theorem overlapping_starts_two_agents :
    (exec step (.start false) overlappingStarts).calls 0 = .returned true ∧
      (exec step (.start false) overlappingStarts).calls 1 = .returned true ∧
      (exec step (.start false) overlappingStarts).opened = [1, 2] ∧
      (exec step (.start false) overlappingStarts).bound = some 2 ∧
      (exec step (.start false) overlappingStarts).handle = some 1 := by decide

end Centaurx.SshAgent
