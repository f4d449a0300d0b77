import Centaurx.RunnerContainer.Invariant

namespace Centaurx.RunnerContainer
open Go Function Runs

/-- The key that a call is about to look up again. -/
def Call.lookupKey : Call → Option TabKey
  | .lookup key _ => some key
  | .idle | .waiting .. | .naming .. | .starting .. | .closing .. | .stopping .. | .returned _
  | .panicked => none

/-- The second lookup finds no entry whose start has not returned. -/
def Provider.Ready (s : Provider) : Label → Prop
  | .advance i _ => ∀ key ∈ (s.calls i).lookupKey, ∀ e ∈ s.table key,
      (s.entries e).starting = false
  | .runnerFor .. | .closeTab .. | .closeAll _ | .collectIdle _ | .cancel .. | .ping .. | .exit _
  | .startRun _ | .finishRun _ | .autoRemove _ | .tick _ => True

instance (s : Provider) : ∀ l, Decidable (s.Ready l)
  | .advance .. => inferInstanceAs (Decidable (∀ _, _))
  | .runnerFor .. | .closeTab .. | .closeAll _ | .collectIdle _ | .cancel .. | .ping .. | .exit _
  | .startRun _ | .finishRun _ | .autoRemove _ | .tick _ => isTrue trivial

namespace Core

/-- The start of the entry has completed successfully. -/
structure Live (c : Core) (e : ℕ) : Prop where
  made : e < c.made
  starting : c.starting e = false
  err : c.err e = none

def GoodRunner (c : Core) (r : TrackedRunner) : Prop :=
  ∃ client, r.base = some client ∧ c.Live client.entry ∧ c.client client.entry = some client

def CallGood (c : Core) : Call → Prop
  | .naming e r => c.Live e ∧ c.GoodRunner r
  | .returned (.ok (some r)) => c.GoodRunner r
  | .panicked => False
  | .returned (.ok none) | .returned (.error _) | .idle | .waiting .. | .lookup .. | .starting ..
  | .closing .. | .stopping .. => True

/-- Entries whose start has completed stay as they are. -/
def Keeps (c c' : Core) : Prop := ∀ e, c.Live e → c'.Live e ∧ c'.client e = c.client e

variable {c c' : Core}

theorem Keeps.callGood (h : c.Keeps c') {call : Call} (hcall : c.CallGood call) :
    c'.CallGood call := by
  have hrunner : ∀ {r}, c.GoodRunner r → c'.GoodRunner r := by
    rintro r ⟨client, hbase, hlive, hclient⟩
    exact ⟨client, hbase, (h _ hlive).1, (h _ hlive).2.trans hclient⟩
  match call, hcall with
  | .naming e r, hcall => exact ⟨(h e hcall.1).1, hrunner hcall.2⟩
  | .returned (.ok (some r)), hcall => exact hrunner hcall
  | .returned (.ok none), _ | .returned (.error _), _ | .idle, _ | .waiting .., _
  | .lookup .., _ | .starting .., _ | .closing .., _ | .stopping .., _ => exact trivial

def AllGood (c : Core) : Prop := ∀ i, c.CallGood (c.calls i)

theorem AllGood.keep (h : c.AllGood) (hkeeps : c.Keeps c') (hcalls : c'.calls = c.calls) :
    c'.AllGood := by
  intro i
  rw [hcalls]
  exact hkeeps.callGood (h i)

theorem AllGood.put (h : c.AllGood) {i : ℕ} {q : Call} (hq : c.CallGood q) :
    (c.put i q).AllGood := by
  have hput : c.Keeps (c.put i q) := fun e he => ⟨⟨he.made, he.starting, he.err⟩, rfl⟩
  exact forall_put (P := fun _ p => (c.put i q).CallGood p) (fun j _ => hput.callGood (h j))
    (hput.callGood hq)

theorem AllGood.frame (h : c.AllGood) (hmade : c'.made = c.made)
    (hstarting : c'.starting = c.starting) (herr : c'.err = c.err)
    (hclient : c'.client = c.client) (hcalls : c'.calls = c.calls) :
    c'.AllGood := by
  refine h.keep (fun e he => ⟨⟨?_, ?_, ?_⟩, ?_⟩) hcalls
  · exact hmade ▸ he.made
  · exact hstarting ▸ he.starting
  · exact herr ▸ he.err
  · rw [hclient]

theorem AllGood.putFrame (h : c.AllGood) {i : ℕ} {q : Call} (hq : c'.CallGood q)
    (hmade : c'.made = c.made) (hstarting : c'.starting = c.starting) (herr : c'.err = c.err)
    (hclient : c'.client = c.client) (hcalls : c'.calls = c.calls) : (c'.put i q).AllGood :=
  (h.frame hmade hstarting herr hclient hcalls).put hq

theorem keeps_newEntry (key : TabKey) : c.Keeps (c.newEntry key) := by
  intro e he
  have hne : e ≠ c.made := Nat.ne_of_lt he.made
  exact ⟨⟨Nat.lt_succ_of_lt he.made, (update_of_ne hne ..).trans he.starting,
    (update_of_ne hne ..).trans he.err⟩, update_of_ne hne ..⟩

theorem keeps_started {e x : ℕ} (h : c.starting e = true) : c.Keeps (c.started e x) := by
  intro e' he
  have hne : e' ≠ e := by
    rintro rfl
    rw [he.starting] at h
    cases h
  exact ⟨⟨he.made, (update_of_ne hne ..).trans he.starting, he.err⟩, update_of_ne hne ..⟩

theorem keeps_failed {e : ℕ} {err : GoString} (h : c.starting e = true) :
    c.Keeps (c.failed e err) := by
  intro e' he
  have hne : e' ≠ e := by
    rintro rfl
    rw [he.starting] at h
    cases h
  exact ⟨⟨he.made, (update_of_ne hne ..).trans he.starting, (update_of_ne hne ..).trans he.err⟩,
    rfl⟩

theorem AllGood.count (h : c.AllGood) {key : TabKey} {f : ℕ → ℕ} {runs : List Run} :
    { c.count key f with runs := runs }.AllGood := by
  unfold Core.count
  cases c.table key <;> exact h.frame rfl rfl rfl rfl rfl

theorem Live.goodRunner (h : c.Wf) {e : ℕ} (he : c.Live e) {key : TabKey} :
    c.GoodRunner ⟨c.client e, key⟩ := by
  obtain ⟨x, hclient, -⟩ := (h.settled e he.made).started he.starting he.err
  exact ⟨⟨e, x⟩, hclient, he, hclient⟩

theorem Live.handle_ne (h : c.Wf) {e : ℕ} (he : c.Live e) : c.handle e ≠ none := by
  obtain ⟨x, -, hhandle⟩ := (h.settled e he.made).started he.starting he.err
  rw [hhandle]
  exact Option.some_ne_none x

theorem Talk.callGood {p q : Call} (htalk : c.Talk p q) (h : c.Wf) (hp : c.CallGood p) :
    c.CallGood q := by
  cases htalk with
  | named => exact hp.2
  | unnamed hnone => exact absurd hnone (hp.1.handle_ne h)
  | _ => trivial

theorem Halts.callGood {p q : Call} {x : ℕ} (hhalt : c.Halts p x q) : c'.CallGood q := by
  cases hhalt <;> trivial

theorem stopAll_callGood (reason : StopReason) (items : List ℕ) :
    c.CallGood (Provider.stopAll reason items) := by
  cases items <;> trivial

end Core

open Centaurx.RunnerContainer.Core in
theorem Move.allGood {cfg : Config} {s : Provider} {l : Label} {c : Core} (hmove : Move cfg s l c)
    (h : s.core.Wf) (hready : s.Ready l) (hgood : s.core.AllGood) : c.AllGood := by
  cases hmove with
  | stay => exact hgood
  | talk htalk => exact hgood.put (htalk.callGood h (hgood _))
  | @found i answer key tab e hcall htable herr =>
    have hstarting : s.core.starting e = false := by
      refine hready key ?_ e htable
      rw [show s.calls i = .lookup key tab from hcall]
      rfl
    have hlive : s.core.Live e := ⟨(h.table key e htable).2, hstarting, herr⟩
    exact hgood.put ⟨hlive, hlive.goodRunner h⟩
  | new => exact (hgood.keep (keeps_newEntry _) rfl).put trivial
  | unprepared => exact hgood.put trivial
  | drop | prepare | ensure => exact hgood.putFrame trivial rfl rfl rfl rfl rfl
  | halt hhalt => exact hgood.putFrame hhalt.callGood rfl rfl rfl rfl rfl
  | @started l i e x hcall =>
    obtain ⟨hlt, hstart⟩ := h.starts i e (by rw [hcall]; rfl)
    refine (hgood.keep (keeps_started hstart) rfl).put ⟨⟨e, x⟩, rfl, ?_, update_self ..⟩
    exact ⟨hlt, update_self .., ((h.settled e hlt).starting hstart).2.2⟩
  | @failed l i e err hcall =>
    obtain ⟨-, hstart⟩ := h.starts i e (by rw [hcall]; rfl)
    exact (hgood.keep (keeps_failed hstart) rfl).put trivial
  | take | undir => exact hgood.putFrame (stopAll_callGood _ _) rfl rfl rfl rfl rfl
  | startRun | finishRun => exact hgood.count
  | reap => exact hgood.frame rfl rfl rfl rfl rfl

open Centaurx.RunnerContainer.Core Centaurx.RunnerContainer.Provider in
/-- **Live runners.** In every run in which no second lookup finds an entry whose start has not
returned, no call panics, and a runner that is returned has the client of a start that has completed
successfully. -/
theorem runners_are_live (cfg : Config) (run : List Label) (h : Meets (step cfg) Ready {} run) :
    (∀ i, (exec (step cfg) {} run).calls i ≠ .panicked) ∧
      ∀ i r, (exec (step cfg) {} run).calls i = .returned (.ok (some r)) →
        ∃ client, r.base = some client ∧
          ((exec (step cfg) {} run).entries client.entry).client = some client ∧
          ((exec (step cfg) {} run).entries client.entry).starting = false ∧
          ((exec (step cfg) {} run).entries client.entry).err = none := by
  have hinv := h.invariant (I := fun s => s.core.Wf ∧ s.core.AllGood)
    (fun s l hs hl => ⟨wf_step hs.1 l, (step_move hs.1 l).allGood hs.1 hl hs.2⟩)
    ⟨wf_new, fun _ => trivial⟩
  refine ⟨fun i hi => ?_, fun i r hi => ?_⟩
  · have hgood := hinv.2 i
    rw [show (exec (step cfg) {} run).core.calls i = _ from hi] at hgood
    exact hgood
  · have hgood := hinv.2 i
    rw [show (exec (step cfg) {} run).core.calls i = _ from hi] at hgood
    obtain ⟨client, hbase, hlive, hclient⟩ := hgood
    exact ⟨client, hbase, hclient, hlive.starting, hlive.err⟩

/-- Two calls of `RunnerFor` for one tab: the second one waits for the first one. -/
def sharing : List Label :=
  [.runnerFor (lit "alice") (lit "tab1"), .runnerFor (lit "alice") (lit "tab1")] ++ startSteps 0 ++
    List.replicate 3 (.advance 1 none)

theorem runners_are_live_sharing :
    ∃ client, (⟨some ⟨0, 0⟩, ⟨lit "alice", lit "tab1"⟩⟩ : TrackedRunner).base = some client ∧
      ((exec (Provider.step tabConfig) {} sharing).entries client.entry).client = some client ∧
      ((exec (Provider.step tabConfig) {} sharing).entries client.entry).starting = false ∧
      ((exec (Provider.step tabConfig) {} sharing).entries client.entry).err = none :=
  (runners_are_live tabConfig sharing (by decide)).2 1 ⟨some ⟨0, 0⟩, ⟨lit "alice", lit "tab1"⟩⟩ rfl

/-- The start a call has waited for is closed and another one begins before the call looks up the
table again: it panics. -/
theorem waiter_panics :
    (exec (Provider.step tabConfig) {}
      ([.runnerFor (lit "alice") (lit "tab1"), .runnerFor (lit "alice") (lit "tab1")] ++
        startSteps 0 ++
        [.advance 1 none, .closeTab (lit "alice") (lit "tab1"),
          .runnerFor (lit "alice") (lit "tab1"), .advance 1 none, .advance 1 none])).calls 1 =
      .panicked := by
  rfl

end Centaurx.RunnerContainer
