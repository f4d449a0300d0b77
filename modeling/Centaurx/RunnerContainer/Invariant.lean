import Centaurx.RunnerContainer.Moves

namespace Centaurx.RunnerContainer
open Go Function Runs List Provider

namespace Core

variable {c : Core}

theorem put_calls (c : Core) (i : ℕ) (call : Call) (j : ℕ) :
    (c.put i call).calls j = if j = i then call else c.calls j := update_apply ..

theorem forall_put {P : ℕ → Call → Prop} {i : ℕ} {call : Call} (h : ∀ j, j ≠ i → P j (c.calls j))
    (hcall : P i call) (j : ℕ) : P j ((c.put i call).calls j) := by
  rw [put_calls]
  split_ifs with hj
  · rw [hj]
    exact hcall
  · exact h j hj

theorem Settled.frame {c' : Core} {e : ℕ} (h : c.Settled e)
    (hstarting : c'.starting e = c.starting e) (hclient : c'.client e = c.client e)
    (hhandle : c'.handle e = c.handle e) (herr : c'.err e = c.err e) : c'.Settled e := by
  refine ⟨?_, ?_, ?_⟩ <;> rw [hstarting, hclient, hhandle, herr]
  · exact h.starting
  · exact h.failed
  · exact h.started

theorem Wf.put (h : c.Wf) {i : ℕ} {q : Call}
    (hstarts : ∀ e, q.starts = some e → e < c.made ∧ c.starting e = true ∧
      ∀ j, j ≠ i → (c.calls j).starts ≠ some e)
    (hstops : ∀ e ∈ q.stops, e < c.made ∧ c.table (c.key e) ≠ some e)
    (hclosing : ∀ k e, q = .closing k e → e < c.made ∧ c.key e = k)
    (hrunner : ∀ r, q.runner = some r → ∀ client ∈ r.base, client.entry < c.made) :
    (c.put i q).Wf where
  idle j hj := by
    have hle : c.begun ≤ j ∧ i + 1 ≤ j := max_le_iff.mp hj
    rw [put_calls, if_neg (by omega)]
    exact h.idle j hle.1
  table := h.table
  newest := h.newest
  settled e he := (h.settled e he).frame rfl rfl rfl rfl
  starts := forall_put (P := fun _ p => ∀ e, p.starts = some e → e < c.made ∧ c.starting e = true)
    (fun j _ => h.starts j) fun e he => ⟨(hstarts e he).1, (hstarts e he).2.1⟩
  sole j k e hj hk := by
    rw [put_calls] at hj hk
    split_ifs at hj hk with hji hki hki
    · rw [hji, hki]
    · exact absurd hk ((hstarts e hj).2.2 k hki)
    · exact absurd hj ((hstarts e hk).2.2 j hji)
    · exact h.sole j k e hj hk
  stops := forall_put (P := fun _ p => ∀ e ∈ p.stops, e < c.made ∧ c.table (c.key e) ≠ some e)
    (fun j _ => h.stops j) hstops
  closing := forall_put (P := fun _ p => ∀ k e, p = .closing k e → e < c.made ∧ c.key e = k)
    (fun j _ => h.closing j) hclosing
  runner := forall_put
    (P := fun _ p => ∀ r, p.runner = some r → ∀ client ∈ r.base, client.entry < c.made)
    (fun j _ => h.runner j) hrunner
  runs := h.runs

theorem Wf.go (h : c.Wf) {i : ℕ} {q : Call} (hstarts : q.starts = (c.calls i).starts)
    (hstops : ∀ e ∈ q.stops, e ∈ (c.calls i).stops)
    (hclosing : ∀ k e, q = .closing k e → e < c.made ∧ c.key e = k)
    (hrunner : ∀ r, q.runner = some r → (c.calls i).runner = some r) : (c.put i q).Wf := by
  refine h.put (fun e he => ?_) (fun e he => h.stops i e (hstops e he)) hclosing
    fun r hr => h.runner i r (hrunner r hr)
  rw [hstarts] at he
  exact ⟨(h.starts i e he).1, (h.starts i e he).2, fun j hj hje => hj (h.sole j i e hje he)⟩

theorem Wf.leave (h : c.Wf) {i : ℕ} {q : Call} (hstarts : q.starts = none) (hstops : q.stops = [])
    (hclosing : ∀ k e, q ≠ .closing k e) (hrunner : ∀ r, q.runner = some r → ∀ client ∈ r.base,
      client.entry < c.made) : (c.put i q).Wf := by
  refine h.put (fun e he => ?_) (fun e he => ?_) (fun k e heq => absurd heq (hclosing k e)) hrunner
  · rw [hstarts] at he
    cases he
  · rw [hstops] at he
    cases he

theorem Wf.untable (h : c.Wf) (keys : List TabKey) : (c.untable keys).Wf := by
  have hold : ∀ {k e}, (c.untable keys).table k = some e → c.table k = some e := by
    intro k e hk
    simp only [Core.untable] at hk
    split_ifs at hk
    exact hk
  exact { h with
    table := fun k e hk => h.table k e (hold hk)
    newest := fun k e hk => h.newest k e (hold hk)
    settled := fun e he => (h.settled e he).frame rfl rfl rfl rfl
    stops := fun i e he => ⟨(h.stops i e he).1, fun hk => (h.stops i e he).2 (hold hk)⟩ }

theorem Wf.setState (h : c.Wf) (x : ℕ) (state : ContainerState) : (c.setState x state).Wf :=
  { h with
    settled := fun e he => (h.settled e he).frame rfl rfl rfl rfl }

theorem Wf.setDir (h : c.Wf) (key : TabKey) (owner : Option ℕ) : (c.setDir key owner).Wf :=
  { h with
    settled := fun e he => (h.settled e he).frame rfl rfl rfl rfl }

theorem Wf.newEntry (h : c.Wf) {key : TabKey} (hkey : c.table key = none) :
    (c.newEntry key).Wf := by
  have hne : ∀ {e}, e < c.made → e ≠ c.made := fun he => Nat.ne_of_lt he
  have htable : ∀ {k e}, (c.newEntry key).table k = some e →
      (k = key ∧ e = c.made) ∨ (k ≠ key ∧ c.table k = some e) := by
    intro k e hk
    simp only [Core.newEntry, update_apply] at hk
    split_ifs at hk with hkk
    · exact .inl ⟨hkk, (Option.some.inj hk).symm⟩
    · exact .inr ⟨hkk, hk⟩
  refine ⟨h.idle, fun k e hk => ?_, fun k e hk e' he' hk' => ?_, fun e he => ?_, fun i e he => ?_,
    h.sole, fun i e he => ?_, fun i k e he => ?_, fun i r hr client hcl => ?_, fun r hr => ?_⟩
  · rcases htable hk with ⟨rfl, rfl⟩ | ⟨-, hk⟩
    · exact ⟨update_self .., Nat.lt_succ_self _⟩
    · obtain ⟨hkey', hlt⟩ := h.table k e hk
      exact ⟨(update_of_ne (hne hlt) ..).trans hkey', Nat.lt_succ_of_lt hlt⟩
  · rcases htable hk with ⟨rfl, rfl⟩ | ⟨hkk, hk⟩
    · exact Nat.le_of_lt_succ he'
    · rcases Nat.lt_succ_iff_lt_or_eq.mp he' with hlt | rfl
      · exact h.newest k e hk e' hlt ((update_of_ne (hne hlt) ..).symm.trans hk')
      · exact absurd ((update_self ..).symm.trans hk').symm hkk
  · rcases Nat.lt_succ_iff_lt_or_eq.mp he with hlt | rfl
    · exact (h.settled e hlt).frame (update_of_ne (hne hlt) ..) (update_of_ne (hne hlt) ..)
        (update_of_ne (hne hlt) ..) (update_of_ne (hne hlt) ..)
    · refine ⟨?_, ?_, ?_⟩ <;> simp [Core.newEntry]
  · obtain ⟨hlt, hstarting⟩ := h.starts i e he
    exact ⟨Nat.lt_succ_of_lt hlt, (update_of_ne (hne hlt) ..).trans hstarting⟩
  · obtain ⟨hlt, hdetached⟩ := h.stops i e he
    refine ⟨Nat.lt_succ_of_lt hlt, fun hk => ?_⟩
    rcases htable hk with ⟨-, rfl⟩ | ⟨-, hk⟩
    · exact absurd hlt (Nat.lt_irrefl _)
    · have hkeq : (c.newEntry key).key e = c.key e := update_of_ne (hne hlt) ..
      rw [hkeq] at hk
      exact hdetached hk
  · obtain ⟨hlt, hk⟩ := h.closing i k e he
    exact ⟨Nat.lt_succ_of_lt hlt, (update_of_ne (hne hlt) ..).trans hk⟩
  · exact Nat.lt_succ_of_lt (h.runner i r hr client hcl)
  · exact Nat.lt_succ_of_lt (h.runs r hr)

theorem Wf.started (h : c.Wf) {e x : ℕ} (hstart : c.starting e = true)
    (hnone : ∀ i, (c.calls i).starts ≠ some e) : (c.started e x).Wf := by
  refine { h with settled := fun e' he' => ?_, starts := fun i e' he' => ?_ }
  · have hs := h.settled e' he'
    by_cases heq : e' = e
    · subst heq
      have herr := (hs.starting hstart).2.2
      refine ⟨fun hs' => ?_, fun _ err herr' => ?_, fun _ _ => ⟨x, update_self .., update_self ..⟩⟩
      · simp [Core.started] at hs'
      · rw [show (c.started e' x).err e' = c.err e' from rfl, herr] at herr'
        cases herr'
    · exact hs.frame (update_of_ne heq ..) (update_of_ne heq ..) (update_of_ne heq ..) rfl
  · have hne : e' ≠ e := fun heq => hnone i (heq ▸ he')
    exact ⟨(h.starts i e' he').1, (update_of_ne hne ..).trans (h.starts i e' he').2⟩

theorem Wf.failed (h : c.Wf) {e : ℕ} {err : GoString} (hstart : c.starting e = true)
    (hnone : ∀ i, (c.calls i).starts ≠ some e) : (c.failed e err).Wf := by
  refine { h with settled := fun e' he' => ?_, starts := fun i e' he' => ?_ }
  · have hs := h.settled e' he'
    by_cases heq : e' = e
    · subst heq
      obtain ⟨hclient, hhandle, -⟩ := hs.starting hstart
      refine ⟨fun hs' => ?_, fun _ _ _ => ⟨hclient, hhandle⟩, fun _ herr => ?_⟩
      · simp [Core.failed] at hs'
      · simp [Core.failed] at herr
    · exact hs.frame (update_of_ne heq ..) rfl rfl (update_of_ne heq ..)
  · have hne : e' ≠ e := fun heq => hnone i (heq ▸ he')
    exact ⟨(h.starts i e' he').1, (update_of_ne hne ..).trans (h.starts i e' he').2⟩

theorem Wf.count (h : c.Wf) (key : TabKey) (f : ℕ → ℕ) {runs : List Run}
    (hruns : ∀ r ∈ runs, r.entry < c.made) : { c.count key f with runs := runs }.Wf := by
  unfold Core.count
  cases c.table key <;> exact { h with
    settled := fun e he => (h.settled e he).frame rfl rfl rfl rfl
    runs := hruns }

theorem Wf.starting (h : c.Wf) {i e : ℕ} {stage stage' : StartStage}
    (hcall : c.calls i = .starting e stage) : (c.put i (.starting e stage')).Wf :=
  h.go (by rw [hcall]; rfl) (fun _ he => by cases he) (fun _ _ heq => by cases heq)
    fun _ hr => by cases hr

theorem Wf.no_starts (h : c.Wf) {i e : ℕ} {q : Call} (hcall : (c.calls i).starts = some e)
    (hq : q.starts = none) (j : ℕ) : ((c.put i q).calls j).starts ≠ some e := by
  rw [put_calls]
  split_ifs with hj
  · rw [hq]
    exact (Option.some_ne_none e).symm
  · exact fun hje => hj (h.sole j i e hje hcall)

theorem stopAll_starts (reason : StopReason) (items : List ℕ) :
    (stopAll reason items).starts = none := by
  cases items <;> rfl

theorem stopAll_stops (reason : StopReason) (items : List ℕ) :
    (stopAll reason items).stops = items := by
  cases items <;> rfl

theorem stopAll_owes (reason : StopReason) (items : List ℕ) :
    (stopAll reason items).owes = items := by
  cases items <;> rfl

theorem stopAll_runner (reason : StopReason) (items : List ℕ) :
    (stopAll reason items).runner = none := by
  cases items <;> rfl

theorem stopAll_ne_closing (reason : StopReason) (items : List ℕ) (k : TabKey) (e : ℕ) :
    stopAll reason items ≠ .closing k e := by
  cases items <;> exact nofun

end Core

open Centaurx.RunnerContainer.Core in
theorem Move.wf {cfg : Config} {s : Provider} {l : Label} {c : Core} (hmove : Move cfg s l c)
    (h : s.core.Wf) : c.Wf := by
  cases hmove with
  | stay => exact h
  | talk htalk =>
    refine h.go htalk.starts (fun e he => htalk.stops ▸ he) (fun k e heq => ?_)
      fun r hr => htalk.runner_mem hr
    subst heq
    generalize s.core.calls _ = p at htalk
    cases htalk with
    | miss hlt => exact ⟨hlt, rfl⟩
  | @found i answer key tab e hcall htable herr =>
    refine h.leave rfl rfl nofun fun r hr client hcl => ?_
    obtain rfl := Option.some.inj hr
    obtain ⟨hkey, hlt⟩ := h.table key e htable
    have hs := h.settled e hlt
    -- an entry that is still starting has no client to give out
    cases hstart : s.core.starting e with
    | true =>
      rw [Option.mem_def, (hs.starting hstart).1] at hcl
      cases hcl
    | false =>
      obtain ⟨x, hclient, -⟩ := hs.started hstart herr
      rw [Option.mem_def, hclient] at hcl
      obtain rfl := Option.some.inj hcl
      exact hlt
  | drop hcall htable herr => exact (h.untable _).leave rfl rfl nofun nofun
  | new htable =>
    refine (h.newEntry htable).put (fun e he => ?_) nofun nofun nofun
    obtain rfl := Option.some.inj he
    refine ⟨Nat.lt_succ_self _, update_self .., fun j hj hje => ?_⟩
    -- no other call starts an entry that did not exist
    exact absurd (h.starts j _ hje).1 (Nat.lt_irrefl _)
  | unprepared hcall => exact h.starting hcall
  | prepare hcall => exact (h.setDir _ _).starting hcall
  | ensure hcall hx => exact (h.setState _ _).starting hcall
  | halt hhalt hstate =>
    refine (h.setState _ _).go hhalt.starts (fun e he => hhalt.stops ▸ he) (fun k e heq => ?_)
      fun r hr => ?_
    · subst heq
      generalize s.core.calls _ = p at hhalt
      cases hhalt
    · rw [hhalt.runner_eq] at hr
      cases hr
  | @started l i e x hcall =>
    have hstarts : (s.core.calls i).starts = some e := by rw [hcall]; rfl
    have hput : (s.core.put i (.returned (.ok (some ⟨some ⟨e, x⟩, s.core.key e⟩)))).Wf := by
      refine h.leave rfl rfl nofun fun r hr client hcl => ?_
      obtain rfl := Option.some.inj hr
      obtain rfl := Option.some.inj hcl
      exact (h.starts i e hstarts).1
    exact hput.started (h.starts i e hstarts).2 (h.no_starts hstarts rfl)
  | @failed l i e err hcall =>
    have hstarts : (s.core.calls i).starts = some e := by rw [hcall]; rfl
    have hput : (s.core.put i (.returned (.error err))).Wf := h.leave rfl rfl nofun nofun
    exact hput.failed (h.starts i e hstarts).2 (h.no_starts hstarts rfl)
  | take hcall htable hidle =>
    refine (h.untable _).put (fun e he => ?_) (fun e he => ?_) (fun k e heq => ?_) fun r hr => ?_
    · rw [stopAll_starts] at he
      cases he
    · rw [stopAll_stops] at he
      refine ⟨(h.table _ e (htable e he)).2, fun hk => ?_⟩
      simp only [Core.untable] at hk
      rw [if_pos (mem_map_of_mem he)] at hk
      cases hk
    · exact absurd heq (stopAll_ne_closing _ _ k e)
    · rw [stopAll_runner] at hr
      cases hr
  | undir hcall =>
    refine (h.setDir _ _).go ?_ (fun e he => ?_) (fun k e heq => ?_) fun r hr => ?_
    · rw [stopAll_starts, show (s.core.setDir _ none).calls _ = _ from hcall]
      rfl
    · rw [stopAll_stops] at he
      rw [show (s.core.setDir _ none).calls _ = _ from hcall]
      exact mem_cons_of_mem _ he
    · exact absurd heq (stopAll_ne_closing _ _ k e)
    · rw [stopAll_runner] at hr
      cases hr
  | @startRun i runner hcall =>
    refine h.count _ _ fun r hr => ?_
    rcases mem_append.mp hr with hr | hr
    · exact h.runs r hr
    · obtain ⟨client, hbase, rfl⟩ := Option.map_eq_some_iff.mp (Option.mem_toList.mp hr)
      exact h.runner i runner (by rw [hcall]; rfl) client hbase
  | @finishRun k r hrun hfinished =>
    refine h.count _ _ fun r' hr' => ?_
    rcases mem_or_eq_of_mem_set hr' with hr' | rfl
    · exact h.runs r' hr'
    · exact h.runs r (mem_of_getElem? hrun)
  | reap => exact h.setState _ _

theorem wf_new : ({} : Provider).core.Wf := by
  refine ⟨fun _ _ => rfl, ?_, ?_, ?_, ?_, ?_, ?_, ?_, ?_, ?_⟩ <;> intros <;> contradiction

theorem Provider.wf_step {cfg : Config} {s : Provider} (h : s.core.Wf) (l : Label) :
    (s.step cfg l).core.Wf := (step_move h l).wf h

/-- **Starts.** Whatever the interleaving: an entry is started by at most one call; the table has
the newest entry of a key; a start that is over has left a client and its container, or an error;
and no call stops an entry that the table still has. -/
theorem starts_are_single (cfg : Config) (run : List Label) :
    let s := exec (step cfg) {} run
    (∀ i e, (s.calls i).starts = some e → (s.entries e).starting = true ∧
      ∀ j, (s.calls j).starts = some e → j = i) ∧
    (∀ key e, s.table key = some e → (s.entries e).key = key ∧
      ∀ e' < s.made, (s.entries e').key = key → e' ≤ e) ∧
    (∀ e < s.made, (s.entries e).starting = false → (s.entries e).err = none →
      ∃ c, (s.entries e).client = some ⟨e, c⟩ ∧ (s.entries e).handle = some c) ∧
    ∀ i, ∀ e ∈ (s.calls i).stops, s.table (s.entries e).key ≠ some e := by
  intro s
  have h : s.core.Wf := exec_invariant (I := fun s : Provider => s.core.Wf)
    (fun _ l hs => wf_step hs l) wf_new run
  exact ⟨fun i e hi => ⟨(h.starts i e hi).2, fun j hj => h.sole j i e hj hi⟩,
    fun k e hk => ⟨(h.table k e hk).1, h.newest k e hk⟩,
    fun e he => (h.settled e he).started, fun i e he => (h.stops i e he).2⟩

end Centaurx.RunnerContainer
