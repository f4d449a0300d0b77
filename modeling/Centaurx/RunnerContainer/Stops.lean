import Centaurx.RunnerContainer.Invariant

namespace Centaurx.RunnerContainer
open Go Function Runs List Call

namespace Call

/-- The entries that a call starts or stops. -/
def works (p : Call) : List ℕ := p.starts.toList ++ p.stops

/-- The entry whose start has not prepared its socket directory. -/
def preparing : Call → Option ℕ
  | .starting e .prepare => some e
  | .starting _ .ensure | .starting _ (.connect _) | .starting _ (.stopFailed ..)
  | .starting _ (.removeFailed ..) | .starting _ (.finish _) | .idle | .waiting .. | .lookup ..
  | .naming .. | .closing .. | .stopping .. | .returned _ | .panicked => none

/-- The key and the entry of a keepalive that is about to close it. -/
def closes : Call → Option (TabKey × ℕ)
  | .closing key e => some (key, e)
  | .idle | .waiting .. | .lookup .. | .naming .. | .starting .. | .stopping .. | .returned _
  | .panicked => none

/-- The entry on whose behalf a call makes its next stopping step. -/
def stopsFor : Call → Option ℕ
  | .closing _ e => some e
  | .stopping _ _ e _ => some e
  | .idle | .waiting .. | .lookup .. | .naming .. | .starting .. | .returned _ | .panicked => none

variable {p : Call} {e : ℕ}

theorem mem_works : e ∈ p.works ↔ p.starts = some e ∨ e ∈ p.stops := by
  simp [works]

theorem starts_of_preparing (h : p.preparing = some e) : p.starts = some e ∧ p.holds = none := by
  match p, h with
  | .starting e' .prepare, h => exact ⟨h, rfl⟩

end Call

namespace Provider

/-- A start prepares its socket directory only when no other call starts or stops an entry of the
key; and a keepalive that closes its entry finds it in the table, or nothing. -/
def Separate (s : Provider) : Label → Prop
  | .advance i _ =>
    (∀ e ∈ (s.calls i).preparing, ∀ j < s.begun, j ≠ i → ∀ e' ∈ (s.calls j).works,
      (s.entries e').key ≠ (s.entries e).key) ∧
    ∀ ke ∈ (s.calls i).closes, s.table ke.1 = none ∨ s.table ke.1 = some ke.2
  | .runnerFor .. | .closeTab .. | .closeAll _ | .collectIdle _ | .cancel .. | .ping .. | .exit _
  | .startRun _ | .finishRun _ | .autoRemove _ | .tick _ => True

instance (s : Provider) : ∀ l, Decidable (s.Separate l)
  | .advance .. => inferInstanceAs (Decidable (_ ∧ _))
  | .runnerFor .. | .closeTab .. | .closeAll _ | .collectIdle _ | .cancel .. | .ping .. | .exit _
  | .startRun _ | .finishRun _ | .autoRemove _ | .tick _ => isTrue trivial

/-- The entries that a step stops because of their own missed pings, idleness or closure. -/
def stopsFor (cfg : Config) (s : Provider) : Label → List ℕ
  | .advance i _ => (s.calls i).stopsFor.toList
  | .closeTab user tab => s.taken cfg (.closeTab user tab)
  | .closeAll rank => s.taken cfg (.closeAll rank)
  | .collectIdle rank => s.taken cfg (.collectIdle rank)
  | .runnerFor .. | .cancel .. | .ping .. | .exit _ | .startRun _ | .finishRun _ | .autoRemove _
  | .tick _ => []

/-- The container of an entry, or the one that its start has got. -/
def Uses (s : Provider) (e x : ℕ) : Prop :=
  (s.entries e).handle = some x ∨ ∃ i, (s.calls i).starts = some e ∧ (s.calls i).holds = some x

/-- What a step leaves alone: an entry stays in the table, its container is not stopped and its
socket directory stays. -/
structure Spares (s s' : Provider) (e : ℕ) : Prop where
  table : s.table (s.entries e).key = some e → s'.table (s.entries e).key = some e
  container : ∀ x, s.Uses e x → s'.containers x = s.containers x
  dir : s.dirs (s.entries e).key = some e → s'.dirs (s.entries e).key = some e

end Provider

namespace Core

/-- As long as an older entry of the key is started or stopped, a newer one has not prepared its
socket directory, so it uses nothing yet. -/
structure Fenced (c : Core) : Prop where
  fence : ∀ i, ∀ e ∈ (c.calls i).works, ∀ e', e < e' → e' < c.made → c.key e' = c.key e →
    ∃ j, (c.calls j).preparing = some e'
  bare : ∀ j e, (c.calls j).preparing = some e → ∀ k, c.dirs k ≠ some e
  dirs : ∀ k e, c.dirs k = some e → e < c.made

variable {c c' : Core} {i : ℕ} {p q : Call}

theorem Talk.works (h : c.Talk p q) : q.works = p.works := by
  rw [Call.works, h.starts, h.stops, Call.works]

theorem Talk.preparing (h : c.Talk p q) : p.preparing = none ∧ q.preparing = none := by
  cases h <;> exact ⟨rfl, rfl⟩

theorem Halts.works {x : ℕ} (h : c.Halts p x q) : q.works = p.works := by
  rw [Call.works, h.starts, h.stops, Call.works]

theorem Halts.preparing {x : ℕ} (h : c.Halts p x q) : p.preparing = none ∧ q.preparing = none := by
  cases h <;> exact ⟨rfl, rfl⟩

theorem stopAll_preparing (reason : StopReason) (items : List ℕ) :
    (Provider.stopAll reason items).preparing = none := by
  cases items <;> rfl

theorem Fenced.frame (h : c.Fenced) (hmade : c'.made = c.made) (hkey : c'.key = c.key)
    (hdirs : ∀ k e, c'.dirs k = some e → c.dirs k = some e) (hcalls : c'.calls = c.calls) :
    c'.Fenced := by
  refine ⟨fun i e he e' hlt hmade' hk => ?_, fun j e he k hk => ?_, fun k e hk => ?_⟩
  · rw [hcalls] at he ⊢
    exact h.fence i e he e' hlt (hmade ▸ hmade') (by rw [← hkey]; exact hk)
  · rw [hcalls] at he
    exact h.bare j e he k (hdirs k e hk)
  · rw [hmade]
    exact h.dirs k e (hdirs k e hk)

theorem Fenced.untable (h : c.Fenced) (keys : List TabKey) : (c.untable keys).Fenced :=
  h.frame rfl rfl (fun _ _ hk => hk) rfl

theorem Fenced.setState (h : c.Fenced) (x : ℕ) (state : ContainerState) :
    (c.setState x state).Fenced := h.frame rfl rfl (fun _ _ hk => hk) rfl

theorem Fenced.undir (h : c.Fenced) (key : TabKey) : (c.setDir key none).Fenced := by
  refine h.frame rfl rfl (fun k x hk => ?_) rfl
  simp only [Core.setDir, update_apply] at hk
  split_ifs at hk
  exact hk

theorem Fenced.started (h : c.Fenced) (e x : ℕ) : (c.started e x).Fenced :=
  h.frame rfl rfl (fun _ _ hk => hk) rfl

theorem Fenced.failed (h : c.Fenced) (e : ℕ) (err : GoString) : (c.failed e err).Fenced :=
  h.frame rfl rfl (fun _ _ hk => hk) rfl

theorem Fenced.count (h : c.Fenced) (key : TabKey) (f : ℕ → ℕ) (runs : List Run) :
    { c.count key f with runs := runs }.Fenced := by
  unfold Core.count
  cases c.table key <;> exact h.frame rfl rfl (fun _ _ hk => hk) rfl

theorem Fenced.put (h : c.Fenced) (hp : (c.calls i).preparing = none) (hq : q.preparing = none)
    (hworks : ∀ e ∈ q.works, e ∈ (c.calls i).works ∨
      ∀ e' < c.made, c.key e' = c.key e → e' ≤ e) : (c.put i q).Fenced := by
  have hkeep : ∀ {e}, (∃ j, (c.calls j).preparing = some e) →
      ∃ j, ((c.put i q).calls j).preparing = some e := by
    rintro e ⟨j, hj⟩
    refine ⟨j, ?_⟩
    rw [put_calls, if_neg]
    · exact hj
    · rintro rfl
      rw [hp] at hj
      cases hj
  refine ⟨fun j e he e' hlt hmade hk => hkeep ?_, fun j e he => ?_, h.dirs⟩
  · rw [put_calls] at he
    split_ifs at he
    · rcases hworks e he with hold | hnewest
      · exact h.fence i e hold e' hlt hmade hk
      · exact absurd (hnewest e' hmade hk) (not_le.mpr hlt)
    · exact h.fence j e he e' hlt hmade hk
  · rw [put_calls] at he
    split_ifs at he
    · rw [hq] at he
      cases he
    · exact h.bare j e he

theorem Fenced.newEntry (h : c.Fenced) (hwf : c.Wf) (key : TabKey) :
    ((c.newEntry key).put c.begun (.starting c.made .prepare)).Fenced := by
  have hlt : ∀ {j e}, e ∈ (c.calls j).works → e < c.made := by
    intro j e he
    rcases mem_works.mp he with he | he
    · exact (hwf.starts j e he).1
    · exact (hwf.stops j e he).1
  have hold : ∀ {e}, e < c.made → (c.newEntry key).key e = c.key e :=
    fun he => update_of_ne (Nat.ne_of_lt he) ..
  refine ⟨fun j e he e' hee' hmade hk => ?_, fun j e he => ?_, fun k e hk => ?_⟩
  · rw [put_calls] at he
    split_ifs at he with hj
    · have hmade' : e' < c.made + 1 := hmade
      obtain rfl : c.made = e := by simpa [Call.works, starts, stops, eq_comm] using he
      omega
    · rcases Nat.lt_succ_iff_lt_or_eq.mp hmade with hmade' | rfl
      · have hk' : c.key e' = c.key e := by
          rw [← hold hmade', ← hold (hlt he)]
          exact hk
        obtain ⟨j', hj'⟩ := h.fence j e he e' hee' hmade' hk'
        refine ⟨j', ?_⟩
        rw [put_calls, if_neg]
        · exact hj'
        · rintro rfl
          rw [hwf.idle _ (Nat.le_refl _)] at hj'
          cases hj'
      · exact ⟨c.begun, by rw [put_calls, if_pos rfl]; rfl⟩
  · rw [put_calls] at he
    split_ifs at he
    · obtain rfl := Option.some.inj he
      exact fun k hk => absurd (h.dirs k _ hk) (Nat.lt_irrefl _)
    · exact h.bare j e he
  · exact Nat.lt_succ_of_lt (h.dirs k e hk)

theorem Fenced.prepare (h : c.Fenced) (hwf : c.Wf) {e : ℕ} {stage : StartStage}
    (hcall : c.calls i = .starting e .prepare)
    (hstage : (Call.starting e stage).preparing = none)
    (halone : ∀ j < c.begun, j ≠ i → ∀ e' ∈ (c.calls j).works, c.key e' ≠ c.key e) :
    (c.put i (.starting e stage)).Fenced := by
  have hbusy : ∀ {j}, (c.calls j).works ≠ [] → j < c.begun := by
    intro j hj
    by_contra hle
    rw [hwf.idle j (not_lt.mp hle)] at hj
    exact hj rfl
  have hother : ∀ {j e'}, j ≠ i → e' ∈ (c.calls j).works → c.key e' ≠ c.key e :=
    fun hj he' => halone _ (hbusy (ne_nil_of_mem he')) hj _ he'
  refine ⟨fun j x hx e' hlt hmade hk => ?_, fun j x hx => ?_, h.dirs⟩
  · rw [put_calls] at hx
    split_ifs at hx with hj
    · -- a newer entry of the key would be prepared by another call
      obtain rfl : x = e := by simpa [Call.works, starts, stops] using hx
      have hxi : x ∈ (c.calls i).works := by
        rw [hcall]
        exact mem_works.mpr (.inl rfl)
      obtain ⟨j', hj'⟩ := h.fence i x hxi e' hlt hmade hk
      have hne : j' ≠ i := by
        rintro rfl
        rw [hcall] at hj'
        exact absurd (Option.some.inj hj') (Nat.ne_of_lt hlt)
      exact absurd hk (hother hne (mem_works.mpr (.inl (starts_of_preparing hj').1)))
    · obtain ⟨j', hj'⟩ := h.fence j x hx e' hlt hmade hk
      have hne : j' ≠ i := by
        rintro rfl
        rw [hcall] at hj'
        obtain rfl := Option.some.inj hj'
        exact hother hj hx hk.symm
      exact ⟨j', by rw [put_calls, if_neg hne]; exact hj'⟩
  · rw [put_calls] at hx
    split_ifs at hx
    · rw [hstage] at hx
      cases hx
    · exact h.bare j x hx

end Core

open Centaurx.RunnerContainer.Core in
theorem Move.fenced {cfg : Config} {s : Provider} {l : Label} {c : Core} (hmove : Move cfg s l c)
    (hwf : s.core.Wf) (hsep : s.Separate l) (h : s.core.Fenced) : c.Fenced := by
  have halone : ∀ {i answer e}, l = .advance i answer → s.core.calls i = .starting e .prepare →
      ∀ j < s.core.begun, j ≠ i → ∀ e' ∈ (s.core.calls j).works, s.core.key e' ≠ s.core.key e := by
    rintro i answer e rfl hcall
    refine hsep.1 e ?_
    rw [show s.calls i = _ from hcall]
    rfl
  cases hmove with
  | stay => exact h
  | talk htalk =>
    exact h.put htalk.preparing.1 htalk.preparing.2 fun e he => .inl (htalk.works ▸ he)
  | found hcall => exact h.put (by rw [hcall]; rfl) rfl fun e he => by cases he
  | drop hcall =>
    exact (h.untable _).put (congrArg preparing hcall) rfl fun e he => by cases he
  | new htable => exact h.newEntry hwf _
  | unprepared hcall => exact h.prepare hwf hcall rfl (halone rfl hcall)
  | @prepare i e hcall =>
    have hput : (s.core.put i (.starting e .ensure)).Fenced :=
      h.prepare hwf hcall rfl (halone rfl hcall)
    obtain ⟨hlt, -⟩ := hwf.starts i e (by rw [hcall]; rfl)
    refine ⟨hput.fence, fun j x hx k hk => ?_, fun k x hk => ?_⟩
    · simp only [Core.put, Core.setDir, update_apply] at hk
      split_ifs at hk
      · -- only one call starts the entry
        obtain rfl := Option.some.inj hk
        rw [show (((s.core.setDir (s.core.key e) (some e)).put i (.starting e .ensure)).calls j) =
          (s.core.put i (.starting e .ensure)).calls j from rfl, put_calls] at hx
        split_ifs at hx with hj
        · cases hx
        · exact hj (hwf.sole j i e (starts_of_preparing hx).1 (by rw [hcall]; rfl))
      · exact hput.bare j x hx k hk
    · simp only [Core.put, Core.setDir, update_apply] at hk
      split_ifs at hk
      · obtain rfl := Option.some.inj hk
        exact hlt
      · exact h.dirs k x hk
  | @ensure i e x hcall hx =>
    refine (h.setState _ _).put (congrArg preparing hcall) rfl fun e' he' => .inl ?_
    rw [show (s.core.setState x .running).calls i = _ from hcall]
    exact he'
  | halt hhalt hstate =>
    exact (h.setState _ _).put hhalt.preparing.1 hhalt.preparing.2
      fun e he => .inl (hhalt.works ▸ he)
  | started hcall =>
    exact (h.started _ _).put (congrArg preparing hcall) rfl fun e he => by cases he
  | failed hcall =>
    exact (h.failed _ _).put (congrArg preparing hcall) rfl fun e he => by cases he
  | @take l i reason hcall htable hidle =>
    have hp : (s.core.calls i).preparing = none := by
      rcases hcall with hcall | ⟨key, e, hcall⟩ <;> rw [hcall] <;> rfl
    refine (h.untable _).put hp (stopAll_preparing _ _) fun e he => .inr ?_
    rw [mem_works, stopAll_starts, stopAll_stops] at he
    exact hwf.newest _ e (htable e (he.resolve_left (by simp)))
  | @undir l i reason e rest hcall =>
    refine (h.undir _).put (congrArg preparing hcall) (stopAll_preparing _ _) fun x hx =>
      .inl ?_
    rw [mem_works, stopAll_starts, stopAll_stops] at hx
    rw [show (s.core.setDir (s.core.key e) none).calls i = _ from hcall]
    exact mem_works.mpr (.inr (mem_cons_of_mem _ (hx.resolve_left (by simp))))
  | startRun | finishRun => exact h.count _ _ _
  | reap => exact h.setState _ _

theorem fenced_new : ({} : Provider).core.Fenced := by
  refine ⟨?_, ?_, ?_⟩ <;> intros <;> contradiction

namespace Provider

variable {cfg : Config} {s : Provider}

theorem taken_tabled (h : s.core.Wf) {l : Label} {e : ℕ} (he : e ∈ s.taken cfg l) :
    s.core.table (s.core.key e) = some e := by
  have hkey : ∀ {k}, s.table k = some e → s.core.table (s.core.key e) = some e := by
    intro k hk
    rw [(h.table k e hk).1]
    exact hk
  cases l with
  | closeTab user tab =>
    simp only [taken] at he
    split_ifs at he
    · cases he
    · split at he
      · cases he
      · rename_i e' htable
        split_ifs at he
        · rw [mem_singleton.mp he] at hkey ⊢
          exact hkey htable
        · cases he
  | closeAll rank => exact (mem_tabled.mp (mem_walk.mp he)).2
  | collectIdle rank => exact (mem_tabled.mp (mem_filter.mp (mem_walk.mp he)).1).2
  | advance i answer =>
    simp only [taken] at he
    split at he
    · exact hkey (Option.mem_toList.mp he)
    all_goals cases he
  | _ => cases he

/-- An entry that is still to prepare its socket directory uses nothing. -/
theorem spares_of_preparing (hwf : s.core.Wf) (h : s.core.Fenced) {s' : Provider} {e j : ℕ}
    (hj : (s.core.calls j).preparing = some e) (htable : s'.table = s.table) : s.Spares s' e := by
  obtain ⟨hstarts, hholds⟩ := starts_of_preparing hj
  obtain ⟨hlt, hstart⟩ := hwf.starts j e hstarts
  refine ⟨fun hk => by rw [htable]; exact hk, fun x hx => ?_, fun hk => absurd hk (h.bare j e hj _)⟩
  rcases hx with hx | ⟨i, hi, hx⟩
  · rw [show (s.entries e).handle = _ from ((hwf.settled e hlt).starting hstart).2.1] at hx
    cases hx
  · obtain rfl := hwf.sole i j e hi hstarts
    rw [show (s.calls i).holds = none from hholds] at hx
    cases hx

theorem stopRunner_table (i : ℕ) (reason : StopReason) (e : ℕ) (rest : List ℕ) (stage : StopStage) :
    (s.stopRunner i reason e rest stage).table = s.table := by
  cases stage with
  | cancel | removeDir => rfl
  | stop | remove =>
    simp only [stopRunner]
    split <;> rfl

/-- A stop spares the newer entries of its key. -/
theorem step_spares (hwf : s.core.Wf) (h : s.core.Fenced) {l : Label} (hsep : s.Separate l)
    {e e' : ℕ} (he : e ∈ s.stopsFor cfg l) (hlt : e < e') (hmade : e' < s.made)
    (hk : (s.entries e').key = (s.entries e).key) : s.Spares (s.step cfg l) e' := by
  -- the entries of the table are the newest of their keys
  have htaken : e ∉ s.taken cfg l := fun hmem =>
    absurd (hwf.newest _ e (taken_tabled hwf hmem) e' hmade hk) (not_le.mpr hlt)
  cases l with
  | closeTab user tab | closeAll rank | collectIdle rank => exact absurd he htaken
  | advance i answer =>
    have hcalls := Option.mem_toList.mp he
    simp only [step, advance]
    cases hcall : s.calls i with
    | closing key e₀ =>
      rw [hcall] at hcalls
      obtain rfl := Option.some.inj hcalls
      have hfound : s.table key = none := by
        refine (hsep.2 (key, e₀) (by rw [hcall]; rfl)).resolve_right fun hsome => htaken ?_
        simp [taken, hcall, hsome]
      simp only [closeEntry, hfound]
      exact ⟨fun hk => hk, fun _ _ => rfl, fun hk => hk⟩
    | stopping reason stage e₀ rest =>
      rw [hcall] at hcalls
      obtain rfl := Option.some.inj hcalls
      have hworks : e₀ ∈ (s.core.calls i).works := by
        rw [show s.core.calls i = _ from hcall]
        exact mem_works.mpr (.inr mem_cons_self)
      obtain ⟨j, hj⟩ := h.fence i e₀ hworks e' hlt hmade hk
      exact spares_of_preparing hwf h hj (stopRunner_table ..)
    | _ =>
      rw [hcall] at hcalls
      cases hcalls
  | _ => cases he

end Provider

open Provider in
/-- **Stops hit their own runner.** In every run whose steps are separate, a step that stops an
entry because of its missed pings, idleness or closure leaves the newer entries of the same key in
the table, does not touch their containers and does not remove their socket directory. -/
theorem stops_spare_newer (cfg : Config) (run : List Label) (h : Meets (step cfg) Separate {} run) :
    Along (step cfg) (fun s l s' => ∀ e ∈ s.stopsFor cfg l, ∀ e', e < e' → e' < s.made →
      (s.entries e').key = (s.entries e).key → s.Spares s' e') {} run :=
  h.along (I := fun s => s.core.Wf ∧ s.core.Fenced)
    (fun _ l hs hl => ⟨wf_step hs.1 l, (step_move hs.1 l).fenced hs.1 hl hs.2⟩)
    (fun _ _ hs hl _ he _ hlt hmade hk => step_spares hs.1 hs.2 hl he hlt hmade hk)
    ⟨wf_new, fenced_new⟩

/-- A keepalive closes its entry, and another start begins before the stop has come to an end. -/
def replacing : List Label :=
  .runnerFor (lit "alice") (lit "tab1") :: startSteps 0 ++
    [.ping 0 false, .ping 0 false, .advance 1 none, .runnerFor (lit "alice") (lit "tab1")] ++
    replicate 4 (.advance 1 none) ++ startSteps 2

theorem stops_spare_newer_replacing :
    (exec (Provider.step tabConfig) {} replacing).table ⟨lit "alice", lit "tab1"⟩ = some 1 ∧
      Along (Provider.step tabConfig) (fun s l s' => ∀ e ∈ s.stopsFor tabConfig l,
        ∀ e', e < e' → e' < s.made → (s.entries e').key = (s.entries e).key → s.Spares s' e')
        {} replacing :=
  ⟨by decide, stops_spare_newer tabConfig replacing (by decide)⟩

/-- The keepalive of an entry that was closed takes the newer entry from the table; and the stop of
a closed entry, which has removed its container, removes the socket directory of the newer one,
which runs in a container of its own. -/
theorem newer_entry_is_hit :
    let key : TabKey := ⟨lit "alice", lit "tab1"⟩
    let s := exec (Provider.step tabConfig) {}
      (.runnerFor (lit "alice") (lit "tab1") :: startSteps 0 ++
        [.ping 0 false, .ping 0 false, .closeTab (lit "alice") (lit "tab1"),
          .runnerFor (lit "alice") (lit "tab1")])
    let t := exec (Provider.step tabConfig) {}
      (.runnerFor (lit "alice") (lit "tab1") :: startSteps 0 ++
        [.closeTab (lit "alice") (lit "tab1")] ++ replicate 3 (.advance 1 none) ++
        [.runnerFor (lit "alice") (lit "tab1")] ++ startSteps 2)
    (s.stopsFor tabConfig (.advance 1 none) = [0] ∧ s.table key = some 1 ∧
      (s.step tabConfig (.advance 1 none)).table key = none) ∧
    (t.stopsFor tabConfig (.advance 1 none) = [0] ∧ t.table key = some 1 ∧
      (t.entries 0).handle = some 0 ∧ (t.containers 0).state = .removed ∧
      (t.entries 1).handle = some 1 ∧ (t.containers 1).state = .running ∧ t.dirs key = some 1 ∧
      (t.step tabConfig (.advance 1 none)).dirs key = none) := by
  decide

end Centaurx.RunnerContainer
