import Centaurx.RunnerContainer.Invariant

namespace Centaurx.RunnerContainer
open Go Function Runs List

/-- The number of runs of an entry that were neither waited for nor closed. -/
def outstanding (runs : List Run) (e : ℕ) : ℕ := runs.countP fun r => r.entry == e && !r.finished

namespace Call

/-- The runner that a call has returned. -/
def result : Call → Option TrackedRunner
  | .returned (.ok runner) => runner
  | .returned (.error _) | .idle | .waiting .. | .lookup .. | .naming .. | .starting ..
  | .closing .. | .stopping .. | .panicked => none

/-- The entry whose start is about to call `EnsureRunning`. -/
def ensuring : Call → Option ℕ
  | .starting e .ensure => some e
  | .starting _ .prepare | .starting _ (.connect _) | .starting _ (.stopFailed ..)
  | .starting _ (.removeFailed ..) | .starting _ (.finish _) | .idle | .waiting .. | .lookup ..
  | .naming .. | .closing .. | .stopping .. | .returned _ | .panicked => none

/-- The entries that a call of `collectIdle` stops. -/
def collects : Call → List ℕ
  | .stopping .idle _ e rest => e :: rest
  | .stopping .closed .. | .stopping .keepaliveMissed .. | .stopping .shutdown .. | .idle
  | .waiting .. | .lookup .. | .naming .. | .starting .. | .closing .. | .returned _
  | .panicked => []

end Call

namespace Provider

def Counted (s : Provider) : Prop := ∀ e, (s.entries e).running = outstanding s.runs e

/-- A run is started and finished when the table has the entry of its runner. -/
def Own (s : Provider) : Label → Prop
  | .startRun i => ∀ r ∈ (s.calls i).result, s.table r.key = r.base.map Client.entry
  | .finishRun k => ∀ r ∈ s.runs[k]?, r.finished = false → s.table r.key = some r.entry
  | .runnerFor .. | .closeTab .. | .closeAll _ | .collectIdle _ | .advance .. | .cancel ..
  | .ping .. | .exit _ | .autoRemove _ | .tick _ => True

instance (s : Provider) : ∀ l, Decidable (s.Own l)
  | .startRun _ | .finishRun _ => inferInstanceAs (Decidable (∀ _, _))
  | .runnerFor .. | .closeTab .. | .closeAll _ | .collectIdle _ | .advance .. | .cancel ..
  | .ping .. | .exit _ | .autoRemove _ | .tick _ => isTrue trivial

/-- An entry has a container and is in the table, is being stopped or has runs; or its start has got
the container. -/
def Occupies (s : Provider) (e x : ℕ) : Prop :=
  ((s.entries e).handle = some x ∧ (s.table (s.entries e).key = some e ∨
    (∃ i < s.begun, e ∈ (s.calls i).stops) ∨ 0 < outstanding s.runs e)) ∨
  ∃ i < s.begun, (s.calls i).starts = some e ∧ (s.calls i).holds = some x

instance (s : Provider) (e x : ℕ) : Decidable (s.Occupies e x) :=
  inferInstanceAs (Decidable (_ ∨ _))

/-- The container that `EnsureRunning` finds for a start is occupied by no entry. -/
def OwnContainer (cfg : Config) (s : Provider) : Label → Prop
  | .advance i none => ∀ e ∈ (s.calls i).ensuring, ∀ e' < s.made,
      ¬s.Occupies e' (s.ensured cfg (containerName cfg (s.entries e).key))
  | .advance _ (some _) | .runnerFor .. | .closeTab .. | .closeAll _ | .collectIdle _ | .cancel ..
  | .ping .. | .exit _ | .startRun _ | .finishRun _ | .autoRemove _ | .tick _ => True

instance (cfg : Config) (s : Provider) : ∀ l, Decidable (s.OwnContainer cfg l)
  | .advance _ none => inferInstanceAs (Decidable (∀ _, _))
  | .advance _ (some _) | .runnerFor .. | .closeTab .. | .closeAll _ | .collectIdle _ | .cancel ..
  | .ping .. | .exit _ | .startRun _ | .finishRun _ | .autoRemove _ | .tick _ => isTrue trivial

end Provider

theorem outstanding_append (runs : List Run) (r : Run) (e : ℕ) (hr : r.finished = false) :
    outstanding (runs ++ [r]) e = outstanding runs e + if r.entry = e then 1 else 0 := by
  rw [outstanding, countP_append, ← outstanding]
  by_cases he : r.entry = e <;> simp [he, hr]

theorem outstanding_set {runs : List Run} {k : ℕ} {r : Run} (hrun : runs[k]? = some r)
    (hr : r.finished = false) (e : ℕ) :
    outstanding (runs.set k { r with finished := true }) e + (if r.entry = e then 1 else 0) =
      outstanding runs e := by
  obtain ⟨hk, rfl⟩ := List.getElem?_eq_some_iff.mp hrun
  have hpos : runs[k].entry = e → 0 < outstanding runs e := fun he =>
    countP_pos_iff.mpr ⟨runs[k], getElem_mem hk, by simp [he, hr]⟩
  have hset : outstanding (runs.set k { runs[k] with finished := true }) e =
      outstanding runs e - if runs[k].entry = e then 1 else 0 := by
    rw [outstanding, countP_set hk, ← outstanding]
    simp [hr]
  rw [hset]
  split_ifs with he
  · have := hpos he
    omega
  · rfl

namespace Core

def Counted (c : Core) : Prop := ∀ e, c.running e = outstanding c.runs e

variable {c : Core}

theorem count_running (c : Core) (key : TabKey) (f : ℕ → ℕ) (e : ℕ) :
    (c.count key f).running e = if c.table key = some e then f (c.running e) else c.running e := by
  unfold Core.count
  cases h : c.table key with
  | none => simp
  | some e' =>
    simp only [update_apply, Option.some.injEq, eq_comm (a := e)]
    split_ifs with heq
    · rw [heq]
    · rfl

theorem counted_append_iff (h : c.Counted) (key : TabKey) (r : Run) (hr : r.finished = false) :
    { c.count key (· + 1) with runs := c.runs ++ [r] }.Counted ↔ c.table key = some r.entry := by
  have hiff : ∀ e, ((c.count key (· + 1)).running e = outstanding (c.runs ++ [r]) e) ↔
      (c.table key = some e ↔ r.entry = e) := by
    intro e
    rw [count_running, outstanding_append _ _ _ hr, h e]
    by_cases htable : c.table key = some e <;> by_cases he : r.entry = e <;> simp [htable, he]
  constructor
  · intro hcounted
    exact ((hiff r.entry).mp (hcounted r.entry)).mpr rfl
  · intro htable e
    refine (hiff e).mpr ?_
    rw [htable, Option.some.injEq]

theorem counted_set_iff (h : c.Counted) {k : ℕ} {r : Run} (hrun : c.runs[k]? = some r)
    (hr : r.finished = false) :
    { c.count r.key (· - 1) with runs := c.runs.set k { r with finished := true } }.Counted ↔
      c.table r.key = some r.entry := by
  have hiff : ∀ e, ((c.count r.key (· - 1)).running e =
        outstanding (c.runs.set k { r with finished := true }) e) ↔
      (if c.table r.key = some e then c.running e - 1 else c.running e) =
        c.running e - if r.entry = e then 1 else 0 := by
    intro e
    have hset := outstanding_set hrun hr e
    rw [← h e] at hset
    rw [count_running]
    constructor <;> intro heq <;> omega
  have hpos : 0 < c.running r.entry := by
    have hset := outstanding_set hrun hr r.entry
    rw [← h r.entry, if_pos rfl] at hset
    omega
  constructor
  · intro hcounted
    have heq := (hiff r.entry).mp (hcounted r.entry)
    by_contra htable
    rw [if_neg htable, if_pos rfl] at heq
    omega
  · intro htable e
    refine (hiff e).mpr ?_
    rw [htable]
    by_cases he : r.entry = e <;> simp [he]

/-- A runner without a client is counted, and its run does not come about. -/
theorem counted_none_iff (h : c.Counted) (key : TabKey) :
    (c.count key (· + 1)).Counted ↔ c.table key = none := by
  have hruns : (c.count key (· + 1)).runs = c.runs := by
    unfold Core.count
    cases c.table key <;> rfl
  constructor
  · intro hcounted
    cases htable : c.table key with
    | none => rfl
    | some e =>
      have heq := hcounted e
      rw [count_running, if_pos htable, hruns, h e] at heq
      omega
  · intro htable e
    rw [count_running, htable, hruns, if_neg (by nofun)]
    exact h e

end Core

open Centaurx.RunnerContainer.Core in
theorem Move.counted {cfg : Config} {s : Provider} {l : Label} {c : Core} (hmove : Move cfg s l c)
    (hwf : s.core.Wf) (hstart : ∀ i, l ≠ .startRun i) (hfinish : ∀ k, l ≠ .finishRun k)
    (h : s.core.Counted) : c.Counted := by
  cases hmove with
  | new =>
    intro e
    by_cases he : e = s.core.made
    · subst he
      refine (update_self ..).trans (countP_eq_zero.mpr fun r hr => ?_).symm
      have hlt := hwf.runs r hr
      simp [Nat.ne_of_lt hlt]
    · exact (update_of_ne he ..).trans (h e)
  | startRun => exact absurd rfl (hstart _)
  | finishRun => exact absurd rfl (hfinish _)
  | _ => exact h

namespace Provider

variable {cfg : Config} {s : Provider}

open Centaurx.RunnerContainer.Core in
/-- The counts stay right in a step if and only if it is a step of the run's own entry. -/
theorem counted_step_iff (hwf : s.core.Wf) (h : s.Counted) (l : Label) :
    (s.step cfg l).Counted ↔ s.Own l := by
  have hcounted : s.core.Counted := h
  cases l with
  | startRun i =>
    simp only [step, startRun, Own]
    split
    · rename_i runner hcall
      have hown : (∀ r ∈ (s.calls i).result, s.table r.key = r.base.map Client.entry) ↔
          s.table runner.key = runner.base.map Client.entry := by
        simp [hcall, Call.result]
      rw [hown]
      split
      · rename_i hbase
        rw [hbase]
        have hiff := counted_none_iff hcounted runner.key
        rw [← core_count] at hiff
        exact hiff
      · rename_i client hbase
        rw [hbase]
        have hiff := counted_append_iff hcounted runner.key ⟨client.entry, runner.key, false⟩ rfl
        rw [← core_count] at hiff
        exact hiff
    all_goals
      rename_i hcall
      refine iff_of_true h ?_
      rw [hcall]
      intro r hr
      cases hr
  | finishRun k =>
    simp only [step, finishRun, Own]
    cases hrun : s.runs[k]? with
    | none => exact iff_of_true h fun r hr => by cases hr
    | some r =>
      simp only [Option.mem_def, Option.some.injEq, forall_eq']
      split_ifs with hfinished
      · exact iff_of_true h fun hfalse => by rw [hfinished] at hfalse; cases hfalse
      · have hfalse := Bool.eq_false_iff.mpr hfinished
        have hiff := counted_set_iff hcounted hrun hfalse
        rw [← core_count] at hiff
        exact hiff.trans ⟨fun htable _ => htable, fun htable => htable hfalse⟩
  | _ =>
    refine iff_of_true ((step_move hwf _).counted hwf ?_ ?_ hcounted) trivial
    · intro i hl
      cases hl
    · intro k hl
      cases hl

end Provider

namespace Core

/-- In the table, being stopped or with runs. -/
inductive Engaged (c : Core) (e : ℕ) : Prop
  | table (h : c.table (c.key e) = some e) : Engaged c e
  | stop {i} (h : e ∈ (c.calls i).stops) : Engaged c e
  | run (h : 0 < outstanding c.runs e) : Engaged c e

inductive Occupies (c : Core) (e x : ℕ) : Prop
  | handle (hx : c.handle e = some x) (he : c.Engaged e) : Occupies c e x
  | start {i} (he : (c.calls i).starts = some e) (hx : (c.calls i).holds = some x) : Occupies c e x

/-- No container is occupied by two entries, and what is collected has no runs. -/
structure Apart (c : Core) : Prop where
  sole : ∀ x e e', c.Occupies e x → c.Occupies e' x → e = e'
  collects : ∀ i, ∀ e ∈ (c.calls i).collects, outstanding c.runs e = 0

variable {c c' : Core} {p q : Call} {i : ℕ} {e : ℕ}

theorem Wf.engaged_lt (h : c.Wf) (he : c.Engaged e) : e < c.made := by
  cases he with
  | table htable => exact (h.table _ e htable).2
  | stop hstop => exact (h.stops _ e hstop).1
  | run hrun =>
    obtain ⟨r, hr, hre⟩ := countP_pos_iff.mp hrun
    simp only [Bool.and_eq_true, beq_iff_eq] at hre
    rw [← hre.1]
    exact h.runs r hr

theorem Wf.occupies_lt (h : c.Wf) {x : ℕ} (he : c.Occupies e x) : e < c.made := by
  cases he with
  | handle _ he => exact h.engaged_lt he
  | start he _ => exact (h.starts _ e he).1

theorem Talk.collects (h : c.Talk p q) : q.collects = p.collects := by
  cases h with
  | @cancel reason | @skipStop reason | @skipRemove reason => cases reason <;> rfl
  | _ => rfl

theorem Halts.collects {x : ℕ} (h : c.Halts p x q) : q.collects = p.collects := by
  cases h with
  | @stop reason | @remove reason => cases reason <;> rfl
  | _ => rfl

theorem stopAll_collects {reason : StopReason} {items : List ℕ}
    (h : e ∈ (Provider.stopAll reason items).collects) : reason = .idle ∧ e ∈ items := by
  cases items with
  | nil => cases h
  | cons e' rest =>
    cases reason with
    | idle => exact ⟨rfl, h⟩
    | _ => cases h

theorem Engaged.imp (h : c'.Engaged e) (hcalls : c'.calls = c.calls)
    (htable : c'.table (c'.key e) = some e → c.Engaged e)
    (hrun : 0 < outstanding c'.runs e → c.Engaged e) : c.Engaged e := by
  cases h with
  | table h => exact htable h
  | stop hstop => exact .stop (hcalls ▸ hstop)
  | run h => exact hrun h

theorem Occupies.imp {x : ℕ} (h : c'.Occupies e x) (hcalls : c'.calls = c.calls)
    (hhandle : c'.handle e = some x → c'.Engaged e → c.Occupies e x) : c.Occupies e x := by
  cases h with
  | handle hx he => exact hhandle hx he
  | start he hx => exact .start (hcalls ▸ he) (hcalls ▸ hx)

theorem Occupies.frame {x : ℕ} (h : c'.Occupies e x) (htable : c'.table = c.table)
    (hkey : c'.key = c.key) (hhandle : c'.handle = c.handle) (hcalls : c'.calls = c.calls)
    (hruns : c'.runs = c.runs) : c.Occupies e x := by
  refine h.imp hcalls fun hx he => ?_
  refine .handle (hhandle ▸ hx) (he.imp hcalls (fun hk => ?_) fun hr => ?_)
  · rw [htable, hkey] at hk
    exact .table hk
  · exact .run (hruns ▸ hr)

theorem Occupies.of_put {x : ℕ} (h : (c.put i q).Occupies e x) (hstops : e ∈ q.stops → c.Engaged e)
    : c.Occupies e x ∨ (q.starts = some e ∧ q.holds = some x) := by
  cases h with
  | handle hx he =>
    refine .inl (.handle hx ?_)
    cases he with
    | table htable => exact .table htable
    | @stop j hstop =>
      rw [put_calls] at hstop
      split_ifs at hstop
      · exact hstops hstop
      · exact .stop hstop
    | run hrun => exact .run hrun
  | @start j he hx =>
    rw [put_calls] at he hx
    split_ifs at he hx
    · exact .inr ⟨he, hx⟩
    · exact .inl (.start he hx)

theorem Apart.mono (h : c.Apart) (hocc : ∀ e x, c'.Occupies e x → c.Occupies e x)
    (hcollects : ∀ i, ∀ e ∈ (c'.calls i).collects, outstanding c'.runs e = 0) : c'.Apart :=
  ⟨fun x e e' he he' => h.sole x e e' (hocc e x he) (hocc e' x he'), hcollects⟩

theorem Apart.put (h : c.Apart) (hstarts : ∀ e x, q.starts = some e → q.holds = some x →
      (c.calls i).starts = some e ∧ (c.calls i).holds = some x)
    (hstops : ∀ e ∈ q.stops, c.Engaged e)
    (hcollects : ∀ e ∈ q.collects, outstanding c.runs e = 0) : (c.put i q).Apart := by
  refine h.mono (fun e x he => ?_) ?_
  · rcases he.of_put (hstops e) with he | ⟨he, hx⟩
    · exact he
    · exact .start (hstarts e x he hx).1 (hstarts e x he hx).2
  · exact forall_put (P := fun _ p => ∀ e ∈ p.collects, outstanding c.runs e = 0)
      (fun j _ => h.collects j) hcollects

theorem Apart.leave (h : c.Apart) (hstarts : q.starts = none) (hstops : q.stops = [])
    (hcollects : q.collects = []) : (c.put i q).Apart := by
  refine h.put (fun e x he => ?_) (fun e he => ?_) fun e he => ?_
  · rw [hstarts] at he
    cases he
  · rw [hstops] at he
    cases he
  · rw [hcollects] at he
    cases he

theorem Apart.starting (h : c.Apart) {stage : StartStage}
    (hstage : (Call.starting e stage).holds = none) : (c.put i (.starting e stage)).Apart := by
  refine h.put (fun e' x _ hx => ?_) nofun nofun
  rw [hstage] at hx
  cases hx

theorem Apart.untable (h : c.Apart) (keys : List TabKey) : (c.untable keys).Apart := by
  refine h.mono (fun e x he => he.imp rfl fun hx he => ?_) h.collects
  refine .handle hx (he.imp rfl (fun htable => ?_) (.run ·))
  simp only [Core.untable] at htable
  split_ifs at htable
  exact .table htable

theorem Apart.frame (h : c.Apart) (htable : c'.table = c.table) (hkey : c'.key = c.key)
    (hhandle : c'.handle = c.handle) (hcalls : c'.calls = c.calls) (hruns : c'.runs = c.runs) :
    c'.Apart := by
  refine h.mono (fun e x he => he.frame htable hkey hhandle hcalls hruns) fun i e he => ?_
  rw [hruns]
  exact h.collects i e (hcalls ▸ he)

theorem Apart.newEntry (h : c.Apart) (key : TabKey) : (c.newEntry key).Apart := by
  refine h.mono (fun e x he => he.imp rfl fun hx he => ?_) h.collects
  have hne : e ≠ c.made := by
    rintro rfl
    rw [show (c.newEntry key).handle c.made = none from update_self ..] at hx
    cases hx
  refine .handle ((update_of_ne hne ..).symm.trans hx) (he.imp rfl (fun htable => ?_) (.run ·))
  rw [show (c.newEntry key).key e = c.key e from update_of_ne hne ..] at htable
  simp only [Core.newEntry, update_apply] at htable
  split_ifs at htable
  · exact absurd (Option.some.inj htable).symm hne
  · exact .table htable

/-- The container of a start becomes that of its entry. -/
theorem Apart.started (h : c.Apart) {x : ℕ} {r : Except GoString (Option TrackedRunner)}
    (hcall : c.calls i = .starting e (.finish (.ok x))) :
    ((c.started e x).put i (.returned r)).Apart := by
  refine h.mono (fun e' y he' => ?_) ?_
  · rcases he'.of_put (fun he' => by cases he') with he' | ⟨he', -⟩
    · refine he'.imp rfl fun hy he' => ?_
      by_cases heq : e' = e
      · subst heq
        have hy' : update c.handle e' (some x) e' = some y := hy
        rw [update_self] at hy'
        obtain rfl := Option.some.inj hy'
        exact .start (i := i) (by rw [hcall]; rfl) (by rw [hcall]; rfl)
      · exact .handle ((update_of_ne heq ..).symm.trans hy) (he'.imp rfl (.table ·) (.run ·))
    · cases he'
  · exact forall_put (c := c.started e x)
      (P := fun _ p => ∀ e ∈ p.collects, outstanding c.runs e = 0) (fun j _ => h.collects j) nofun

/-- A start gets a container that nobody occupies. -/
theorem Apart.ensure (h : c.Apart) {x : ℕ} (hfree : ∀ e', ¬c.Occupies e' x) :
    ((c.setState x .running).put i (.starting e (.connect x))).Apart := by
  have hold : ∀ {e' y}, ((c.setState x .running).put i (.starting e (.connect x))).Occupies e' y →
      (e' = e ∧ y = x) ∨ c.Occupies e' y := by
    intro e' y he'
    rcases he'.of_put (fun he' => by cases he') with he' | ⟨he', hy⟩
    · exact .inr (he'.frame rfl rfl rfl rfl rfl)
    · exact .inl ⟨(Option.some.inj he').symm, (Option.some.inj hy).symm⟩
  refine ⟨fun y e₁ e₂ h₁ h₂ => ?_, ?_⟩
  · rcases hold h₁, hold h₂ with ⟨⟨rfl, rfl⟩ | hold₁, ⟨rfl, heq⟩ | hold₂⟩
    · rfl
    · exact absurd hold₂ (hfree e₂)
    · exact absurd (heq ▸ hold₁) (hfree e₁)
    · exact h.sole y e₁ e₂ hold₁ hold₂
  · exact forall_put (c := c.setState x .running)
      (P := fun _ p => ∀ e ∈ p.collects, outstanding c.runs e = 0) (fun j _ => h.collects j) nofun

theorem Apart.count (h : c.Apart) (hwf : c.Wf) {key : TabKey} {f : ℕ → ℕ} {runs : List Run}
    (hruns : ∀ e, outstanding runs e ≤ outstanding c.runs e ∨ c.table (c.key e) = some e) :
    { c.count key f with runs := runs }.Apart := by
  have hcollects : ∀ i, ∀ e ∈ (c.calls i).collects, outstanding runs e = 0 := by
    intro i e he
    have hstops : e ∈ (c.calls i).stops := by
      generalize c.calls i = p at he
      match p, he with
      | .stopping .idle stage e' rest, he => exact he
    rcases hruns e with hle | htable
    · exact Nat.le_zero.mp (h.collects i e he ▸ hle)
    · exact absurd htable (hwf.stops i e hstops).2
  have hframe : ({ c with runs := runs } : Core).Apart := by
    refine h.mono (fun e x he => he.imp rfl fun hx he => ?_) hcollects
    refine .handle hx (he.imp rfl (fun h => .table h) fun hrun => ?_)
    rcases hruns e with hle | htable
    · exact .run (Nat.lt_of_lt_of_le hrun hle)
    · exact .table htable
  unfold Core.count
  cases c.table key <;> exact hframe.frame rfl rfl rfl rfl rfl

end Core

theorem Provider.occupies_of_core {s : Provider} (hwf : s.core.Wf) {e x : ℕ}
    (h : s.core.Occupies e x) : s.Occupies e x := by
  have hbegun : ∀ {i}, s.core.calls i ≠ .idle → i < s.begun := by
    intro i hi
    by_contra hle
    exact hi (hwf.idle i (not_lt.mp hle))
  cases h with
  | handle hx he =>
    refine .inl ⟨hx, ?_⟩
    cases he with
    | table htable => exact .inl htable
    | @stop i hstop =>
      refine .inr (.inl ⟨i, hbegun fun hidle => ?_, hstop⟩)
      rw [hidle] at hstop
      cases hstop
    | run hrun => exact .inr (.inr hrun)
  | @start i he hx =>
    refine .inr ⟨i, hbegun fun hidle => ?_, he, hx⟩
    rw [hidle] at he
    cases he

open Centaurx.RunnerContainer.Core in
theorem Move.apart {cfg : Config} {s : Provider} {l : Label} {c : Core} (hmove : Move cfg s l c)
    (hwf : s.core.Wf) (hown : s.Own l) (hcontainer : s.OwnContainer cfg l)
    (hcounted : s.core.Counted) (h : s.core.Apart) : c.Apart := by
  cases hmove with
  | stay => exact h
  | @talk l i call htalk =>
    refine h.put (fun e x he hx => ⟨htalk.starts ▸ he, htalk.holds_mem hx⟩)
      (fun e he => .stop (i := i) (htalk.stops ▸ he))
      fun e he => h.collects i e (htalk.collects ▸ he)
  | found => exact h.leave rfl rfl rfl
  | drop => exact (h.untable _).leave rfl rfl rfl
  | new => exact (h.newEntry _).starting rfl
  | unprepared => exact h.starting rfl
  | @prepare i e hcall =>
    have hdir : (s.core.setDir (s.core.key e) (some e)).Apart := h.frame rfl rfl rfl rfl rfl
    exact hdir.starting rfl
  | @ensure i e x hcall hx =>
    refine h.ensure fun e' he' => ?_
    subst hx
    have hensuring : (s.calls i).ensuring = some e := congrArg Call.ensuring hcall
    exact hcontainer e hensuring e' (hwf.occupies_lt he') (Provider.occupies_of_core hwf he')
  | @halt l i x state call hhalt hstate =>
    have hset : (s.core.setState x state).Apart := h.frame rfl rfl rfl rfl rfl
    exact hset.put (fun e y _ hy => (hhalt.holds_eq hy).elim)
      (fun e he => .stop (i := i) (hhalt.stops ▸ he))
      fun e he => h.collects i e (hhalt.collects ▸ he)
  | started hcall => exact h.started hcall
  | @failed l i e err hcall =>
    have hset : (s.core.failed e err).Apart := h.frame rfl rfl rfl rfl rfl
    exact hset.leave rfl rfl rfl
  | @take l i reason hcall htable hidle =>
    -- first the call gets the entries, then they leave the table: they are engaged all the time
    have hput : (s.core.put i (Provider.stopAll reason (s.taken cfg l))).Apart := by
      refine h.put (fun e x he => ?_) (fun e he => ?_) fun e he => ?_
      · rw [stopAll_starts] at he
        cases he
      · rw [stopAll_stops] at he
        exact .table (htable e he)
      · obtain ⟨hreason, hmem⟩ := stopAll_collects he
        exact (hcounted e).symm.trans (hidle hreason e hmem)
    exact hput.untable _
  | @undir l i reason e rest hcall =>
    have hdir : (s.core.setDir (s.core.key e) none).Apart := h.frame rfl rfl rfl rfl rfl
    refine hdir.put (fun e' x he' => ?_) (fun e' he' => .stop (i := i) ?_) fun e' he' => ?_
    · rw [stopAll_starts] at he'
      cases he'
    · rw [stopAll_stops] at he'
      rw [show (s.core.setDir (s.core.key e) none).calls i = _ from hcall]
      exact mem_cons_of_mem _ he'
    · obtain ⟨rfl, hmem⟩ := stopAll_collects he'
      refine h.collects i e' ?_
      rw [hcall]
      exact mem_cons_of_mem _ hmem
  | @startRun i runner hcall =>
    refine h.count hwf fun e => ?_
    have htable : s.core.table runner.key = runner.base.map Client.entry :=
      hown runner (congrArg Call.result hcall)
    cases hbase : runner.base with
    | none => exact .inl (by simp)
    | some client =>
      rw [hbase] at htable
      by_cases he : client.entry = e
      · subst he
        refine .inr ?_
        rw [(hwf.table _ _ htable).1]
        exact htable
      · refine .inl (Nat.le_of_eq ?_)
        rw [Option.map_some, Option.toList_some, outstanding_append _ _ _ rfl, if_neg he]
        rfl
  | finishRun hrun hfinished =>
    refine h.count hwf fun e => .inl ?_
    have hset := outstanding_set hrun hfinished e
    omega
  | reap => exact h.frame rfl rfl rfl rfl rfl

theorem apart_new : ({} : Provider).core.Apart := by
  refine ⟨fun x e e' he => ?_, fun i e he => by cases he⟩
  cases he with
  | handle hx => cases hx
  | start he => cases he

namespace Provider

variable {cfg : Config} {s : Provider}

theorem stopRunner_containers {i e x : ℕ} {reason : StopReason} {rest : List ℕ} {stage : StopStage}
    (h : (s.stopRunner i reason e rest stage).containers x ≠ s.containers x) :
    (s.entries e).handle = some x := by
  have hset : ∀ {y state call}, ((s.setState y state).put i call).containers x ≠ s.containers x →
      y = x := by
    intro y state call hne
    by_contra hxy
    exact hne (update_of_ne (Ne.symm hxy) ..)
  cases stage with
  | cancel | removeDir => exact absurd rfl h
  | stop | remove =>
    simp only [stopRunner] at h
    split at h
    · exact absurd rfl h
    · rename_i y hy
      rw [hy, hset h]

theorem collects_spares (h : s.core.Apart) {i : ℕ} {answer : Option GoString}
    (hcollects : (s.calls i).collects ≠ []) {x : ℕ}
    (hx : (s.step cfg (.advance i answer)).containers x ≠ s.containers x) {r : Run}
    (hr : r ∈ s.runs) (hfinished : r.finished = false) :
    (s.entries r.entry).handle ≠ some x := by
  intro hhandle
  simp only [step, advance] at hx
  cases hcall : s.calls i with
  | stopping reason stage e rest =>
    rw [hcall] at hx hcollects
    have hreason : reason = .idle := by
      cases reason with
      | idle => rfl
      | _ => exact absurd rfl hcollects
    subst hreason
    have hcore : s.core.calls i = .stopping .idle stage e rest := hcall
    have hrun : 0 < outstanding s.core.runs r.entry :=
      countP_pos_iff.mpr ⟨r, hr, by simp [hfinished]⟩
    -- the entry of the run and the one that is stopped occupy the same container
    have hsame : r.entry = e := by
      refine h.sole x _ _ (.handle hhandle (.run hrun))
        (.handle (stopRunner_containers hx) (.stop (i := i) ?_))
      rw [hcore]
      exact mem_cons_self
    have hzero := h.collects i e (by rw [hcore]; exact mem_cons_self)
    rw [hsame, hzero] at hrun
    exact absurd hrun (Nat.lt_irrefl 0)
  | _ =>
    rw [hcall] at hcollects
    exact absurd rfl hcollects

end Provider

open Provider in
/-- **Busy containers.** The counts are right all along a run if and only if every run is started
and finished while the table has the entry of its runner. And if besides every start gets a
container that no entry occupies, then no idle collection stops or removes a container that has
outstanding runs. -/
theorem busy_containers_are_kept (cfg : Config) (run : List Label) :
    ((∀ part, part <+: run → (exec (step cfg) {} part).Counted) ↔ Meets (step cfg) Own {} run) ∧
      (Meets (step cfg) (fun s l => s.Own l ∧ s.OwnContainer cfg l) {} run →
        Along (step cfg) (fun s l s' => ∀ i answer, l = .advance i answer →
          (s.calls i).collects ≠ [] → ∀ x, s'.containers x ≠ s.containers x →
          ∀ r ∈ s.runs, r.finished = false → (s.entries r.entry).handle ≠ some x) {} run) := by
  refine ⟨?_, fun h => ?_⟩
  · exact forall_prefix_iff (I := fun s : Provider => s.core.Wf) (fun _ l hs => wf_step hs l)
      (fun _ l hs hcounted => counted_step_iff hs hcounted l) wf_new (fun _ => rfl) run
  · refine h.along (I := fun s => s.core.Wf ∧ s.Counted ∧ s.core.Apart) (fun s l hs hl => ?_)
      (fun s l hs hl i answer hadvance hcollects x hx r hr hfinished => ?_)
      ⟨wf_new, fun _ => rfl, apart_new⟩
    · obtain ⟨hwf, hcounted, hapart⟩ := hs
      exact ⟨wf_step hwf l, (counted_step_iff hwf hcounted l).mpr hl.1,
        (step_move hwf l).apart hwf hl.1 hl.2 hcounted hapart⟩
    · subst hadvance
      exact collects_spares hs.2.2 hcollects hx hr hfinished

/-- A run that is finished, an idle collection, and a run in the next container. -/
def working : List Label :=
  .runnerFor (lit "alice") (lit "tab1") :: startSteps 0 ++
    [.startRun 0, .finishRun 0, .tick 10, .collectIdle id] ++ replicate 4 (.advance 1 none) ++
    .runnerFor (lit "alice") (lit "tab1") :: startSteps 2 ++ [.startRun 2]

theorem busy_containers_are_kept_working :
    outstanding (exec (Provider.step tabConfig) {} working).runs 1 = 1 ∧
      Along (Provider.step tabConfig) (fun s l s' => ∀ i answer, l = .advance i answer →
        (s.calls i).collects ≠ [] → ∀ x, s'.containers x ≠ s.containers x →
        ∀ r ∈ s.runs, r.finished = false → (s.entries r.entry).handle ≠ some x) {} working :=
  ⟨by decide, (busy_containers_are_kept tabConfig working).2 (by decide)⟩

/-- A run outlives its entry: its end is counted in the newer entry of the key, which is then taken
for idle and collected while a run of its own is outstanding. -/
theorem busy_container_is_collected :
    let s := exec (Provider.step tabConfig) {}
      (.runnerFor (lit "alice") (lit "tab1") :: startSteps 0 ++
        [.startRun 0, .closeTab (lit "alice") (lit "tab1")] ++ replicate 4 (.advance 1 none) ++
        .runnerFor (lit "alice") (lit "tab1") :: startSteps 2 ++
        [.startRun 2, .finishRun 0, .tick 10, .collectIdle id, .advance 3 none])
    outstanding s.runs 1 = 1 ∧ (s.entries 1).running = 0 ∧ (s.entries 1).handle = some 1 ∧
      (s.containers 1).state = .running ∧ (s.calls 3).collects = [1] ∧
      ((s.step tabConfig (.advance 3 none)).containers 1).state = .stopped := by
  decide

end Centaurx.RunnerContainer
