import Centaurx.RunnerContainer.Invariant

namespace Centaurx.RunnerContainer
open Go Function Runs List Provider

/-- No entry is taken from the table before its start has returned. -/
def Provider.KeepsStarts (cfg : Config) (s : Provider) (l : Label) : Prop :=
  ∀ e ∈ s.taken cfg l, (s.entries e).starting = false

instance (cfg : Config) (s : Provider) (l : Label) : Decidable (s.KeepsStarts cfg l) :=
  inferInstanceAs (Decidable (∀ e ∈ s.taken cfg l, (s.entries e).starting = false))

/-- No call is in flight. -/
def Provider.Quiet (s : Provider) : Prop := ∀ i < s.begun, (s.calls i).inFlight = false

instance (s : Provider) : Decidable s.Quiet :=
  inferInstanceAs (Decidable (∀ i < s.begun, (s.calls i).inFlight = false))

def Label.isRunnerFor : Label → Bool
  | .runnerFor .. => true
  | .closeTab .. | .closeAll _ | .collectIdle _ | .advance .. | .cancel .. | .ping .. | .exit _
  | .startRun _ | .finishRun _ | .autoRemove _ | .tick _ => false

theorem Call.inFlight_of_holds {p : Call} {x : ℕ} (h : p.holds = some x) : p.inFlight = true := by
  cases p <;> first | rfl | cases h

theorem Call.inFlight_of_owes {p : Call} {e : ℕ} (h : e ∈ p.owes) : p.inFlight = true := by
  cases p <;> first | rfl | cases h

theorem Call.starts_of_holds {p : Call} {x : ℕ} (h : p.holds = some x) :
    ∃ e, p.starts = some e := by
  cases p with
  | starting e stage => exact ⟨e, rfl⟩
  | _ => cases h

theorem Call.stops_of_owes {p : Call} {e : ℕ} (h : e ∈ p.owes) : e ∈ p.stops := by
  cases p with
  | stopping reason stage e' rest =>
    cases stage with
    | cancel | stop => exact h
    | remove | removeDir => exact mem_cons_of_mem _ h
  | _ => cases h

namespace Core

/-- Somebody will stop the container: an entry of the table has it, a start has got it, or a call is
about to stop it. -/
inductive Held (c : Core) (x : ℕ) : Prop
  | table {k e} (htable : c.table k = some e) (hx : c.handle e = some x) : Held c x
  | start {i} (hx : (c.calls i).holds = some x) : Held c x
  | stop {i e} (he : e ∈ (c.calls i).owes) (hx : c.handle e = some x) : Held c x

variable {c c' : Core} {i x : ℕ} {q : Call}

theorem Held.frame (h : c.Held x) (htable : c'.table = c.table) (hhandle : c'.handle = c.handle)
    (hcalls : c'.calls = c.calls) : c'.Held x := by
  cases h with
  | table hk hx => exact .table (htable ▸ hk) (hhandle ▸ hx)
  | start hx => exact .start (hcalls ▸ hx)
  | stop he hx => exact .stop (hcalls ▸ he) (hhandle ▸ hx)

theorem Held.put (h : c.Held x) (hholds : (c.calls i).holds = some x → q.holds = some x)
    (howes : ∀ e ∈ (c.calls i).owes, c.handle e = some x → e ∈ q.owes) : (c.put i q).Held x := by
  cases h with
  | table htable hx => exact .table htable hx
  | @start j hx =>
    refine .start (i := j) ?_
    rw [put_calls]
    split_ifs with hj
    · exact hholds (hj ▸ hx)
    · exact hx
  | @stop j e he hx =>
    refine .stop (i := j) (e := e) ?_ hx
    rw [put_calls]
    split_ifs with hj
    · exact howes e (hj ▸ he) hx
    · exact he

theorem Held.put_free (h : c.Held x) (hholds : (c.calls i).holds = none)
    (howes : (c.calls i).owes = []) : (c.put i q).Held x := by
  refine h.put (fun hx => ?_) fun e he => ?_
  · rw [hholds] at hx
    cases hx
  · rw [howes] at he
    cases he

structure Attended (c : Core) : Prop where
  attached : ∀ e < c.made, c.starting e = true → c.table (c.key e) = some e
  held : ∀ x, c.state x = .running → c.Held x

theorem Attended.put (h : c.Attended)
    (hput : ∀ x, c.state x = .running → c.Held x → (c.put i q).Held x) : (c.put i q).Attended :=
  ⟨h.attached, fun x hx => hput x hx (h.held x hx)⟩

theorem Attended.setState (h : c.Attended) {state : ContainerState} (hstate : state ≠ .running) :
    (c.setState x state).Attended := by
  refine ⟨h.attached, fun y hy => ?_⟩
  simp only [Core.setState, update_apply] at hy
  split_ifs at hy
  · exact absurd hy hstate
  · exact (h.held y hy).frame rfl rfl rfl

theorem Attended.setDir (h : c.Attended) (key : TabKey) (owner : Option ℕ) :
    (c.setDir key owner).Attended :=
  ⟨h.attached, fun y hy => (h.held y hy).frame rfl rfl rfl⟩

theorem Attended.count (h : c.Attended) (key : TabKey) (f : ℕ → ℕ) (runs : List Run) :
    { c.count key f with runs := runs }.Attended := by
  unfold Core.count
  cases c.table key <;> exact ⟨h.attached, fun y hy => (h.held y hy).frame rfl rfl rfl⟩

theorem Attended.drop (h : c.Attended) (hwf : c.Wf) {key : TabKey} {e : ℕ} {err : GoString}
    (htable : c.table key = some e) (herr : c.err e = some err) : (c.untable [key]).Attended := by
  have hs := hwf.settled e (hwf.table key e htable).2
  have hstarting : c.starting e = false := by
    refine Bool.eq_false_iff.mpr fun hstart => ?_
    rw [(hs.starting hstart).2.2] at herr
    cases herr
  have hhandle : c.handle e = none := (hs.failed hstarting err herr).2
  have hother : ∀ {k e'}, c.table k = some e' → e' ≠ e → (c.untable [key]).table k = some e' := by
    intro k e' hk hne
    have hkk : k ∉ [key] := by
      intro hmem
      rw [mem_singleton.mp hmem, htable] at hk
      exact hne (Option.some.inj hk).symm
    exact (if_neg hkk).trans hk
  refine ⟨fun e' he' hstart => ?_, fun x hx => ?_⟩
  · refine hother (h.attached e' he' hstart) ?_
    rintro rfl
    rw [show (c.untable [key]).starting e' = c.starting e' from rfl, hstarting] at hstart
    cases hstart
  · cases h.held x hx with
    | @table k e' hk hx =>
      refine .table (hother hk ?_) hx
      rintro rfl
      rw [hhandle] at hx
      cases hx
    | start hx => exact .start hx
    | stop he hx => exact .stop he hx

theorem Attended.newEntry (h : c.Attended) (hwf : c.Wf) {key : TabKey} (hkey : c.table key = none) :
    (c.newEntry key).Attended := by
  have htable : ∀ {k e}, c.table k = some e → (c.newEntry key).table k = some e := by
    intro k e hk
    have hne : k ≠ key := by
      rintro rfl
      rw [hkey] at hk
      cases hk
    exact (update_of_ne hne ..).trans hk
  have hhandle : ∀ {e}, e < c.made → (c.newEntry key).handle e = c.handle e :=
    fun he => update_of_ne (Nat.ne_of_lt he) ..
  refine ⟨fun e he hstart => ?_, fun x hx => ?_⟩
  · rcases Nat.lt_succ_iff_lt_or_eq.mp he with hlt | rfl
    · have hne : e ≠ c.made := Nat.ne_of_lt hlt
      have hstart' : c.starting e = true := (update_of_ne hne ..).symm.trans hstart
      rw [show (c.newEntry key).key e = c.key e from update_of_ne hne ..]
      exact htable (h.attached e hlt hstart')
    · rw [show (c.newEntry key).key c.made = key from update_self ..]
      exact update_self ..
  · cases h.held x hx with
    | table hk hx => exact .table (htable hk) ((hhandle (hwf.table _ _ hk).2).trans hx)
    | start hx => exact .start hx
    | stop he hx =>
      exact .stop he ((hhandle (hwf.stops _ _ (Call.stops_of_owes he)).1).trans hx)

theorem Attended.started (h : c.Attended) (hwf : c.Wf) {e : ℕ}
    (hcall : c.calls i = .starting e (.finish (.ok x))) : ((c.started e x).put i q).Attended := by
  obtain ⟨hlt, hstart⟩ := hwf.starts i e (by rw [hcall]; rfl)
  have hnone : c.handle e = none := ((hwf.settled e hlt).starting hstart).2.1
  have hhandle : ∀ {e' y}, c.handle e' = some y → (c.started e x).handle e' = some y := by
    intro e' y hy
    have hne : e' ≠ e := by
      rintro rfl
      rw [hnone] at hy
      cases hy
    exact (update_of_ne hne ..).trans hy
  refine ⟨fun e' he' hs => h.attached e' he' ?_, fun y hy => ?_⟩
  · by_cases heq : e' = e
    · rw [heq]
      exact hstart
    · exact (update_of_ne heq ..).symm.trans hs
  · cases h.held y hy with
    | table hk hy => exact .table hk (hhandle hy)
    | @start j hy =>
      by_cases hj : j = i
      · rw [hj, hcall] at hy
        obtain rfl := Option.some.inj hy
        exact .table (h.attached e hlt hstart) (update_self ..)
      · exact .start (i := j) (by rw [put_calls, if_neg hj]; exact hy)
    | @stop j e' he hy =>
      refine .stop (i := j) ?_ (hhandle hy)
      rw [put_calls]
      split_ifs with hj
      · rw [hj, hcall] at he
        cases he
      · exact he

theorem Attended.failed (h : c.Attended) {e : ℕ} {err : GoString} :
    (c.failed e err).Attended := by
  refine ⟨fun e' he' hs => h.attached e' he' ?_, fun y hy => ?_⟩
  · by_cases heq : e' = e
    · rw [heq] at hs
      simp [Core.failed] at hs
    · exact (update_of_ne heq ..).symm.trans hs
  · exact (h.held y hy).frame rfl rfl rfl

/-- Entries of the table that are taken are owed by the call. -/
theorem Attended.take (h : c.Attended) {items : List ℕ} {reason : StopReason}
    (htable : ∀ e ∈ items, c.table (c.key e) = some e)
    (hstarting : ∀ e ∈ items, c.starting e = false) (hholds : (c.calls i).holds = none)
    (howes : (c.calls i).owes = []) :
    ((c.untable (items.map c.key)).put i (stopAll reason items)).Attended := by
  have hother : ∀ {k e}, c.table k = some e → e ∉ items →
      (c.untable (items.map c.key)).table k = some e := by
    intro k e hk hnot
    refine (if_neg fun hmem => ?_).trans hk
    obtain ⟨e', he', rfl⟩ := mem_map.mp hmem
    rw [htable e' he'] at hk
    exact hnot (Option.some.inj hk ▸ he')
  refine ⟨fun e he hs => ?_, fun x hx => ?_⟩
  · refine hother (h.attached e he hs) fun hmem => ?_
    rw [show ((c.untable (items.map c.key)).put i (stopAll reason items)).starting e =
      c.starting e from rfl, hstarting e hmem] at hs
    cases hs
  · cases h.held x hx with
    | @table k e hk hx =>
      by_cases hmem : e ∈ items
      · refine .stop (i := i) (e := e) ?_ hx
        rw [put_calls, if_pos rfl, stopAll_owes]
        exact hmem
      · exact .table (hother hk hmem) hx
    | start hx => exact Held.put_free (.start hx) hholds howes
    | stop he hx => exact Held.put_free (.stop he hx) hholds howes

end Core

open Centaurx.RunnerContainer.Core in
theorem Move.attended {cfg : Config} {s : Provider} {l : Label} {c : Core} (hmove : Move cfg s l c)
    (hwf : s.core.Wf) (hkeeps : s.KeepsStarts cfg l) (h : s.core.Attended) : c.Attended := by
  -- a call that goes on without a container
  have hfree : ∀ {c : Core} {i : ℕ} {q : Call}, c.Attended → (c.calls i).holds = none →
      (c.calls i).owes = [] → (c.put i q).Attended :=
    fun h hholds howes => h.put fun x _ hx => hx.put_free hholds howes
  cases hmove with
  | stay => exact h
  | talk htalk =>
    exact h.put fun x _ hx => hx.put (fun hh => htalk.holds_of hh)
      fun e he hh => htalk.owes_of he hh
  | found hcall | unprepared hcall => exact hfree h (by rw [hcall]; rfl) (by rw [hcall]; rfl)
  | drop hcall htable herr =>
    exact hfree (h.drop hwf htable herr) (congrArg Call.holds hcall) (congrArg Call.owes hcall)
  | new htable =>
    have hidle := hwf.idle _ (Nat.le_refl _)
    exact hfree (h.newEntry hwf htable) (congrArg Call.holds hidle) (congrArg Call.owes hidle)
  | prepare hcall =>
    exact hfree (h.setDir _ _) (congrArg Call.holds hcall) (congrArg Call.owes hcall)
  | @ensure i e x hcall hx =>
    refine ⟨h.attached, fun y hy => ?_⟩
    by_cases heq : y = x
    · refine .start (i := i) ?_
      rw [put_calls, if_pos rfl, heq]
      rfl
    · have hy' : s.core.state y = .running := (update_of_ne heq ..).symm.trans hy
      have hheld : (s.core.setState x .running).Held y := (h.held y hy').frame rfl rfl rfl
      exact hheld.put_free (congrArg Call.holds hcall) (congrArg Call.owes hcall)
  | @halt l i x state call hhalt hstate =>
    refine (h.setState hstate).put fun y hy hheld => ?_
    have hne : y ≠ x := by
      rintro rfl
      exact hstate ((update_self ..).symm.trans hy)
    exact hheld.put (fun hh => hhalt.holds_of hne hh) fun e he hh => hhalt.owes_of hne he hh
  | started hcall => exact h.started hwf hcall
  | failed hcall => exact hfree h.failed (congrArg Call.holds hcall) (congrArg Call.owes hcall)
  | @take l i reason hcall htable hidle =>
    rcases hcall with hcall | ⟨key, e, hcall⟩
    · exact h.take htable hkeeps (by rw [hcall]; rfl) (by rw [hcall]; rfl)
    · exact h.take htable hkeeps (by rw [hcall]; rfl) (by rw [hcall]; rfl)
  | @undir l i reason e rest hcall =>
    refine (h.setDir _ _).put fun y hy hheld => hheld.put (fun hh => ?_) fun e' he' hh => ?_
    · rw [show (s.core.setDir _ none).calls i = _ from hcall] at hh
      cases hh
    · rw [show (s.core.setDir _ none).calls i = _ from hcall] at he'
      rw [stopAll_owes]
      exact he'
  | startRun hcall | finishRun hrun => exact h.count _ _ _
  | reap => exact h.setState nofun

namespace Core

/-- What is running is about to be stopped by one call. -/
structure Swept (i : ℕ) (c : Core) : Prop where
  table : ∀ k, c.table k = none
  starts : ∀ j, (c.calls j).starts = none
  owes : ∀ x, c.state x = .running → ∃ e ∈ (c.calls i).owes, c.handle e = some x

variable {c : Core} {i : ℕ}

theorem Swept.put (h : c.Swept i) {j : ℕ} {q : Call} (hstarts : q.starts = none)
    (howes : ∀ x e, c.state x = .running → e ∈ (c.calls j).owes → c.handle e = some x →
      e ∈ q.owes) : (c.put j q).Swept i := by
  refine ⟨h.table, forall_put (P := fun _ p => p.starts = none) (fun k _ => h.starts k) hstarts,
    fun x hx => ?_⟩
  obtain ⟨e, he, hhandle⟩ := h.owes x hx
  refine ⟨e, ?_, hhandle⟩
  rw [put_calls]
  split_ifs with hi
  · exact howes x e hx (hi ▸ he) hhandle
  · exact he

theorem Swept.setState (h : c.Swept i) {x : ℕ} {state : ContainerState}
    (hstate : state ≠ .running) : (c.setState x state).Swept i := by
  refine ⟨h.table, h.starts, fun y hy => ?_⟩
  simp only [Core.setState, update_apply] at hy
  split_ifs at hy
  · exact absurd hy hstate
  · exact h.owes y hy

theorem Swept.count (h : c.Swept i) (key : TabKey) (f : ℕ → ℕ) (runs : List Run) :
    { c.count key f with runs := runs }.Swept i := by
  unfold Core.count
  cases c.table key <;> exact ⟨h.table, h.starts, h.owes⟩

end Core

open Centaurx.RunnerContainer.Core in
/-- As long as no call of `RunnerFor` begins, nothing new is started. -/
theorem Move.swept {cfg : Config} {s : Provider} {l : Label} {c : Core} {i : ℕ}
    (hmove : Move cfg s l c) (hl : l.isRunnerFor = false) (h : s.core.Swept i) : c.Swept i := by
  have hstart : ∀ {j e stage}, s.core.calls j ≠ .starting e stage := by
    intro j e stage hcall
    have hnone := h.starts j
    rw [hcall] at hnone
    cases hnone
  have hentry : ∀ {k e}, s.core.table k ≠ some e := by
    intro k e hk
    rw [h.table] at hk
    cases hk
  cases hmove with
  | stay => exact h
  | talk htalk =>
    exact h.put (htalk.starts.trans (h.starts _)) fun x e _ he hx => htalk.owes_of he hx
  | found _ htable | drop _ htable => exact absurd htable hentry
  | new => cases hl
  | unprepared hcall | prepare hcall | ensure hcall => exact absurd hcall hstart
  | @halt l j x state call hhalt hstate =>
    refine (h.setState hstate).put (hhalt.starts.trans (h.starts _)) fun y e hy he hh => ?_
    have hne : y ≠ x := by
      rintro rfl
      exact hstate ((update_self ..).symm.trans hy)
    exact hhalt.owes_of hne he hh
  | started hcall | failed hcall => exact absurd hcall hstart
  | @take l j reason hcall htable hidle =>
    have howes : (s.core.calls j).owes = [] := by
      rcases hcall with hcall | ⟨key, e, hcall⟩ <;> rw [hcall] <;> rfl
    have huntable : (s.core.untable ((s.taken cfg l).map s.core.key)).Swept i := by
      refine ⟨fun k => ?_, h.starts, h.owes⟩
      simp only [Core.untable, h.table, ite_self]
    refine huntable.put (stopAll_starts _ _) fun x e _ he => ?_
    rw [show (s.core.untable _).calls j = s.core.calls j from rfl, howes] at he
    cases he
  | @undir l j reason e rest hcall =>
    have hdir : (s.core.setDir (s.core.key e) none).Swept i := ⟨h.table, h.starts, h.owes⟩
    refine hdir.put (stopAll_starts _ _) fun x e' _ he' _ => ?_
    rw [show (s.core.setDir _ none).calls j = _ from hcall] at he'
    rw [stopAll_owes]
    exact he'
  | startRun | finishRun => exact h.count _ _ _
  | reap => exact h.setState (by decide)

open Centaurx.RunnerContainer.Core Centaurx.RunnerContainer.Provider in
theorem swept_closeAll {cfg : Config} {s : Provider} {rank : ℕ → ℕ} (hwf : s.core.Wf)
    (h : s.core.Attended) (hkeeps : s.KeepsStarts cfg (.closeAll rank))
    (hstops : ∀ i, (s.calls i).stops = []) :
    (s.step cfg (.closeAll rank)).core.Swept s.begun := by
  have htaken : ∀ {k e}, s.core.table k = some e → s.core.key e = k ∧ e ∈ walk rank s.tabled := by
    intro k e hk
    obtain ⟨hkey, hlt⟩ := hwf.table k e hk
    refine ⟨hkey, mem_walk.mpr (mem_tabled.mpr ⟨hlt, ?_⟩)⟩
    rw [show (s.entries e).key = k from hkey]
    exact hk
  refine ⟨fun k => ?_, forall_put (c := s.core) (P := fun _ p => p.starts = none) (fun j _ => ?_)
    (stopAll_starts _ _), fun x hx => ?_⟩
  · cases hk : s.core.table k with
    | none => simp [step, core_take, Core.put, Core.untable, hk]
    | some e =>
      obtain ⟨rfl, hmem⟩ := htaken hk
      exact if_pos (mem_map_of_mem hmem)
  · cases hj : (s.core.calls j).starts with
    | none => rfl
    | some e =>
      obtain ⟨hlt, hstart⟩ := hwf.starts j e hj
      have hmem := (htaken (h.attached e hlt hstart)).2
      have hfalse : s.core.starting e = false := hkeeps e hmem
      rw [hstart] at hfalse
      cases hfalse
  · cases h.held x hx with
    | @table k e hk hx =>
      refine ⟨e, ?_, hx⟩
      rw [step, core_take, put_calls, if_pos rfl, stopAll_owes]
      exact (htaken hk).2
    | start hx =>
      obtain ⟨e, he⟩ := Call.starts_of_holds hx
      obtain ⟨hlt, hstart⟩ := hwf.starts _ e he
      have hfalse : s.core.starting e = false := hkeeps e (htaken (h.attached e hlt hstart)).2
      rw [hstart] at hfalse
      cases hfalse
    | @stop i e he hx =>
      have hmem := Call.stops_of_owes he
      rw [show (s.core.calls i).stops = [] from hstops i] at hmem
      cases hmem

theorem attended_new : ({} : Provider).core.Attended :=
  ⟨fun e he => absurd he (Nat.not_lt_zero e), fun x hx => by cases hx⟩

/-- A start, an idle container that is collected, and another start. -/
def restarting : List Label :=
  .runnerFor (lit "alice") (lit "tab1") :: startSteps 0 ++
    .tick 10 :: .collectIdle id :: replicate 4 (.advance 1 none) ++
    .runnerFor (lit "alice") (lit "tab1") :: startSteps 2

end Centaurx.RunnerContainer
