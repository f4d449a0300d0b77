import Centaurx.RunnerContainer.Provider

namespace Centaurx.RunnerContainer
open Go Function List

structure Core where
  table : TabKey → Option ℕ
  made : ℕ
  key : ℕ → TabKey
  client : ℕ → Option Client
  handle : ℕ → Option ℕ
  err : ℕ → Option GoString
  starting : ℕ → Bool
  running : ℕ → ℕ
  state : ℕ → ContainerState
  dirs : TabKey → Option ℕ
  calls : ℕ → Call
  begun : ℕ
  runs : List Run

def Provider.core (s : Provider) : Core where
  table := s.table
  made := s.made
  key := Entry.key ∘ s.entries
  client := Entry.client ∘ s.entries
  handle := Entry.handle ∘ s.entries
  err := Entry.err ∘ s.entries
  starting := Entry.starting ∘ s.entries
  running := Entry.running ∘ s.entries
  state := Container.state ∘ s.containers
  dirs := s.dirs
  calls := s.calls
  begun := s.begun
  runs := s.runs

namespace Call

/-- The entry that a call starts. -/
def starts : Call → Option ℕ
  | .starting e _ => some e
  | .idle | .waiting .. | .lookup .. | .naming .. | .closing .. | .stopping .. | .returned _
  | .panicked => none

/-- The entries that a call has taken from the table to stop them. -/
def stops : Call → List ℕ
  | .stopping _ _ e rest => e :: rest
  | .idle | .waiting .. | .lookup .. | .naming .. | .closing .. | .starting .. | .returned _
  | .panicked => []

/-- The entries whose containers it has yet to stop. -/
def owes : Call → List ℕ
  | .stopping _ .cancel e rest | .stopping _ .stop e rest => e :: rest
  | .stopping _ .remove _ rest | .stopping _ .removeDir _ rest => rest
  | .idle | .waiting .. | .lookup .. | .naming .. | .closing .. | .starting .. | .returned _
  | .panicked => []

/-- The container that a start has got and not stopped. -/
def holds : Call → Option ℕ
  | .starting _ (.connect c) | .starting _ (.stopFailed c _) | .starting _ (.finish (.ok c)) =>
    some c
  | .starting _ .prepare | .starting _ .ensure | .starting _ (.removeFailed ..)
  | .starting _ (.finish (.error _)) | .idle | .waiting .. | .lookup .. | .naming .. | .closing ..
  | .stopping .. | .returned _ | .panicked => none

/-- The runner that it returns. -/
def runner : Call → Option TrackedRunner
  | .naming _ runner => some runner
  | .returned (.ok runner) => runner
  | .returned (.error _) | .idle | .waiting .. | .lookup .. | .starting .. | .closing ..
  | .stopping .. | .panicked => none

/-- It has begun and not returned. -/
def inFlight : Call → Bool
  | .idle | .returned _ | .panicked => false
  | .waiting .. | .lookup .. | .naming .. | .starting .. | .closing .. | .stopping .. => true

end Call

namespace Core

def put (c : Core) (i : ℕ) (call : Call) : Core :=
  { c with calls := update c.calls i call, begun := max c.begun (i + 1) }

def setState (c : Core) (x : ℕ) (state : ContainerState) : Core :=
  { c with state := update c.state x state }

def setDir (c : Core) (key : TabKey) (owner : Option ℕ) : Core :=
  { c with dirs := update c.dirs key owner }

def untable (c : Core) (keys : List TabKey) : Core :=
  { c with table := fun k => if k ∈ keys then none else c.table k }

def newEntry (c : Core) (key : TabKey) : Core :=
  { c with
    table := update c.table key (some c.made)
    made := c.made + 1
    key := update c.key c.made key
    client := update c.client c.made none
    handle := update c.handle c.made none
    err := update c.err c.made none
    starting := update c.starting c.made true
    running := update c.running c.made 0 }

def started (c : Core) (e x : ℕ) : Core :=
  { c with
    client := update c.client e (some ⟨e, x⟩)
    handle := update c.handle e (some x)
    starting := update c.starting e false }

def failed (c : Core) (e : ℕ) (err : GoString) : Core :=
  { c with err := update c.err e (some err), starting := update c.starting e false }

def count (c : Core) (key : TabKey) (f : ℕ → ℕ) : Core :=
  match c.table key with
  | none => c
  | some e => { c with running := update c.running e (f (c.running e)) }

/-- Steps of one call that change nothing else. -/
inductive Talk (c : Core) : Call → Call → Prop
  | reject {err} : Talk c .idle (.returned (.error err))
  | release : Talk c .idle (.returned (.ok none))
  | wait {key tab e} : Talk c .idle (.waiting key tab e)
  | hit {key tab} : Talk c .idle (.lookup key tab)
  | miss {e} (h : e < c.made) : Talk c .idle (.closing (c.key e) e)
  | wake {key tab e} : Talk c (.waiting key tab e) (.lookup key tab)
  | giveUp {key tab e err} : Talk c (.waiting key tab e) (.returned (.error err))
  | unavailable {key tab err} : Talk c (.lookup key tab) (.returned (.error err))
  | named {e r} (h : c.handle e ≠ none) : Talk c (.naming e r) (.returned (.ok (some r)))
  | unnamed {e r} (h : c.handle e = none) : Talk c (.naming e r) .panicked
  | unensured {e err} : Talk c (.starting e .ensure) (.starting e (.finish (.error err)))
  | connected {e x} : Talk c (.starting e (.connect x)) (.starting e (.finish (.ok x)))
  | unconnected {e x err} : Talk c (.starting e (.connect x)) (.starting e (.stopFailed x err))
  | gone {key e} : Talk c (.closing key e) (.returned (.ok none))
  | cancel {reason e rest} :
      Talk c (.stopping reason .cancel e rest) (.stopping reason .stop e rest)
  | skipStop {reason e rest} (h : c.handle e = none) :
      Talk c (.stopping reason .stop e rest) (.stopping reason .removeDir e rest)
  | skipRemove {reason e rest} (h : c.handle e = none) :
      Talk c (.stopping reason .remove e rest) (.stopping reason .removeDir e rest)

/-- Steps that stop or remove a container. -/
inductive Halts (c : Core) : Call → ℕ → Call → Prop
  | stopFailed {e x err} :
      Halts c (.starting e (.stopFailed x err)) x (.starting e (.removeFailed x err))
  | removeFailed {e x err} :
      Halts c (.starting e (.removeFailed x err)) x (.starting e (.finish (.error err)))
  | stop {reason e x rest} (h : c.handle e = some x) :
      Halts c (.stopping reason .stop e rest) x (.stopping reason .remove e rest)
  | remove {reason e x rest} (h : c.handle e = some x) :
      Halts c (.stopping reason .remove e rest) x (.stopping reason .removeDir e rest)

variable {c : Core} {p q : Call} {x : ℕ}

theorem Talk.starts (h : c.Talk p q) : q.starts = p.starts := by
  cases h <;> rfl

theorem Talk.stops (h : c.Talk p q) : q.stops = p.stops := by
  cases h <;> rfl

theorem Talk.holds_of (h : c.Talk p q) (hx : p.holds = some x) : q.holds = some x := by
  cases h <;> exact hx

theorem Talk.owes_of {e : ℕ} (h : c.Talk p q) (he : e ∈ p.owes) (hx : c.handle e = some x) :
    e ∈ q.owes := by
  cases h with
  | skipStop hnone =>
    rcases mem_cons.mp he with rfl | he
    · rw [hnone] at hx
      cases hx
    · exact he
  | _ => exact he

theorem Talk.holds_mem (h : c.Talk p q) (hx : q.holds = some x) : p.holds = some x := by
  cases h <;> exact hx

theorem Talk.runner_mem {r : TrackedRunner} (h : c.Talk p q) (hr : q.runner = some r) :
    p.runner = some r := by
  cases h <;> first | exact hr | cases hr

theorem Halts.starts (h : c.Halts p x q) : q.starts = p.starts := by
  cases h <;> rfl

theorem Halts.stops (h : c.Halts p x q) : q.stops = p.stops := by
  cases h <;> rfl

theorem Halts.holds_of {y : ℕ} (h : c.Halts p x q) (hne : y ≠ x) (hy : p.holds = some y) :
    q.holds = some y := by
  cases h with
  | stopFailed => exact absurd (Option.some.inj hy).symm hne
  | _ => cases hy

theorem Halts.owes_of {e y : ℕ} (h : c.Halts p x q) (hne : y ≠ x) (he : e ∈ p.owes)
    (hy : c.handle e = some y) : e ∈ q.owes := by
  cases h with
  | stop hx =>
    rcases mem_cons.mp he with rfl | he
    · exact absurd (Option.some.inj (hy.symm.trans hx)) hne
    · exact he
  | _ => exact he

theorem Halts.holds_eq (h : c.Halts p x q) {y : ℕ} (hy : q.holds = some y) : False := by
  cases h <;> cases hy

theorem Halts.runner_eq (h : c.Halts p x q) : q.runner = none := by
  cases h <;> rfl

end Core

/-- The entries that a step takes from the table to stop them. -/
def Provider.taken (cfg : Config) (s : Provider) : Label → List ℕ
  | .closeTab user tab =>
    if blank user ∨ blank tab then []
    else
      match s.table (keyFor cfg user tab) with
      | none => []
      | some e => if cfg.scope = .tab ∨ (s.entries e).tabs.erase tab = ∅ then [e] else []
  | .closeAll rank => Provider.walk rank s.tabled
  | .collectIdle rank => Provider.walk rank (s.tabled.filter (s.isIdle cfg))
  | .advance i _ =>
    match s.calls i with
    | .closing key _ => (s.table key).toList
    | .idle | .waiting .. | .lookup .. | .naming .. | .starting .. | .stopping .. | .returned _
    | .panicked => []
  | .runnerFor .. | .cancel .. | .ping .. | .exit _ | .startRun _ | .finishRun _ | .autoRemove _
  | .tick _ => []

open Centaurx.RunnerContainer.Provider Centaurx.RunnerContainer.Core in
/-- What a step can do. -/
inductive Move (cfg : Config) (s : Provider) : Label → Core → Prop
  | stay {l} : Move cfg s l s.core
  | talk {l i call} (h : s.core.Talk (s.core.calls i) call) : Move cfg s l (s.core.put i call)
  | found {i answer key tab e} (hcall : s.core.calls i = .lookup key tab)
      (htable : s.core.table key = some e) (herr : s.core.err e = none) :
      Move cfg s (.advance i answer) (s.core.put i (.naming e ⟨s.core.client e, key⟩))
  | drop {l i key tab e err} (hcall : s.core.calls i = .lookup key tab)
      (htable : s.core.table key = some e) (herr : s.core.err e = some err) :
      Move cfg s l ((s.core.untable [key]).put i (.returned (.error err)))
  | new {user tab key} (htable : s.core.table key = none) :
      Move cfg s (.runnerFor user tab)
        ((s.core.newEntry key).put s.core.begun (.starting s.core.made .prepare))
  | unprepared {i e err} (hcall : s.core.calls i = .starting e .prepare) :
      Move cfg s (.advance i (some err)) (s.core.put i (.starting e (.finish (.error err))))
  | prepare {i e} (hcall : s.core.calls i = .starting e .prepare) :
      Move cfg s (.advance i none)
        ((s.core.setDir (s.core.key e) (some e)).put i (.starting e .ensure))
  | ensure {i e x} (hcall : s.core.calls i = .starting e .ensure)
      (hx : x = s.ensured cfg (containerName cfg (s.core.key e))) :
      Move cfg s (.advance i none) ((s.core.setState x .running).put i (.starting e (.connect x)))
  | halt {l i x state call} (h : s.core.Halts (s.core.calls i) x call) (hstate : state ≠ .running) :
      Move cfg s l ((s.core.setState x state).put i call)
  | started {l i e x} (hcall : s.core.calls i = .starting e (.finish (.ok x))) :
      Move cfg s l ((s.core.started e x).put i
        (.returned (.ok (some ⟨some ⟨e, x⟩, s.core.key e⟩))))
  | failed {l i e err} (hcall : s.core.calls i = .starting e (.finish (.error err))) :
      Move cfg s l ((s.core.failed e err).put i (.returned (.error err)))
  | take {l i reason} (hcall : s.core.calls i = .idle ∨ ∃ key e, s.core.calls i = .closing key e)
      (htable : ∀ e ∈ s.taken cfg l, s.core.table (s.core.key e) = some e)
      (hidle : reason = .idle → ∀ e ∈ s.taken cfg l, s.core.running e = 0) :
      Move cfg s l ((s.core.untable ((s.taken cfg l).map s.core.key)).put i
        (stopAll reason (s.taken cfg l)))
  | undir {l i reason e rest} (hcall : s.core.calls i = .stopping reason .removeDir e rest) :
      Move cfg s l ((s.core.setDir (s.core.key e) none).put i (stopAll reason rest))
  | startRun {i runner} (hcall : s.core.calls i = .returned (.ok (some runner))) :
      Move cfg s (.startRun i) { s.core.count runner.key (· + 1) with
        runs := s.core.runs ++ (runner.base.map fun client =>
          (⟨client.entry, runner.key, false⟩ : Run)).toList }
  | finishRun {k r} (hrun : s.core.runs[k]? = some r) (hfinished : r.finished = false) :
      Move cfg s (.finishRun k) { s.core.count r.key (· - 1) with
        runs := s.core.runs.set k { r with finished := true } }
  | reap {l x} : Move cfg s l (s.core.setState x .removed)

/-- A finished start has left an error, or a client and its container. -/
structure Core.Settled (c : Core) (e : ℕ) : Prop where
  starting : c.starting e = true → c.client e = none ∧ c.handle e = none ∧ c.err e = none
  failed : c.starting e = false → ∀ err, c.err e = some err → c.client e = none ∧ c.handle e = none
  started : c.starting e = false → c.err e = none →
    ∃ x, c.client e = some ⟨e, x⟩ ∧ c.handle e = some x

structure Core.Wf (c : Core) : Prop where
  idle : ∀ i, c.begun ≤ i → c.calls i = .idle
  table : ∀ k e, c.table k = some e → c.key e = k ∧ e < c.made
  newest : ∀ k e, c.table k = some e → ∀ e' < c.made, c.key e' = k → e' ≤ e
  settled : ∀ e < c.made, c.Settled e
  starts : ∀ i e, (c.calls i).starts = some e → e < c.made ∧ c.starting e = true
  sole : ∀ i j e, (c.calls i).starts = some e → (c.calls j).starts = some e → i = j
  stops : ∀ i, ∀ e ∈ (c.calls i).stops, e < c.made ∧ c.table (c.key e) ≠ some e
  closing : ∀ i k e, c.calls i = .closing k e → e < c.made ∧ c.key e = k
  runner : ∀ i r, (c.calls i).runner = some r → ∀ client ∈ r.base, client.entry < c.made
  runs : ∀ r ∈ c.runs, r.entry < c.made

namespace Provider

variable {cfg : Config} {s : Provider} {l : Label} {e : ℕ}

/-- Changes of an entry that the core does not see. -/
theorem core_modify {f : Entry → Entry} (hkey : ∀ x, (f x).key = x.key)
    (hclient : ∀ x, (f x).client = x.client) (hhandle : ∀ x, (f x).handle = x.handle)
    (herr : ∀ x, (f x).err = x.err) (hstarting : ∀ x, (f x).starting = x.starting)
    (hrunning : ∀ x, (f x).running = x.running) : (s.modify e f).core = s.core := by
  have hcomp : ∀ {β : Type} (g : Entry → β), g (f (s.entries e)) = g (s.entries e) →
      g ∘ update s.entries e (f (s.entries e)) = g ∘ s.entries := by
    intro β g hg
    rw [comp_update, hg]
    exact update_eq_self e _
  simp only [core, modify, hcomp _ (hkey _), hcomp _ (hclient _), hcomp _ (hhandle _),
    hcomp _ (herr _), hcomp _ (hstarting _), hcomp _ (hrunning _)]

theorem core_trackTab {tab : TabID} {now : ℕ} :
    (s.modify e fun x => trackTab cfg tab { x with lastUsed := some now }).core = s.core := by
  unfold trackTab
  cases cfg.scope <;> exact core_modify (fun _ => rfl) (fun _ => rfl) (fun _ => rfl) (fun _ => rfl)
    (fun _ => rfl) fun _ => rfl

theorem core_keepalive {f : Option Keepalive → Option Keepalive} :
    (s.modify e fun x => { x with keepalive := f x.keepalive }).core = s.core :=
  core_modify (fun _ => rfl) (fun _ => rfl) (fun _ => rfl) (fun _ => rfl) (fun _ => rfl)
    fun _ => rfl

theorem core_tabs {f : Finset TabID → Finset TabID} :
    (s.modify e fun x => { x with tabs := f x.tabs }).core = s.core :=
  core_modify (fun _ => rfl) (fun _ => rfl) (fun _ => rfl) (fun _ => rfl) (fun _ => rfl)
    fun _ => rfl

theorem core_put {i : ℕ} {call : Call} : (s.put i call).core = s.core.put i call := rfl

theorem core_returned {i : ℕ} {result : Except GoString (Option TrackedRunner)} :
    (s.returned i result).core = s.core.put i (.returned result) := rfl

theorem core_take {i : ℕ} {reason : StopReason} {items : List ℕ} : (s.take i reason items).core =
    (s.core.untable (items.map s.core.key)).put i (stopAll reason items) := rfl

theorem core_setState {x : ℕ} {state : ContainerState} :
    (s.setState x state).core = s.core.setState x state := by
  simp only [core, setState, Core.setState, comp_update]

theorem core_ensureRunning {name : GoString} :
    (s.ensureRunning cfg name).core = s.core.setState (s.ensured cfg name) .running := by
  simp only [core, ensureRunning, Core.setState, comp_update]

theorem core_started {x : ℕ} {k : Option Keepalive} {t : Option ℕ} :
    (s.modify e fun y => { y with
      client := some ⟨e, x⟩, handle := some x, keepalive := k, lastUsed := t,
      starting := false }).core = s.core.started e x := by
  simp only [core, modify, Core.started, comp_update]
  congr 1
  all_goals exact update_eq_self e _

theorem core_failed {err : GoString} :
    (s.modify e fun y => { y with err := some err, starting := false }).core =
      s.core.failed e err := by
  simp only [core, modify, Core.failed, comp_update]
  congr 1
  all_goals exact update_eq_self e _

variable {key : TabKey}

theorem core_count {f : ℕ → ℕ} : (s.count key f).core = s.core.count key f := by
  unfold count Core.count
  have htable : s.core.table key = s.table key := rfl
  rw [htable]
  cases s.table key with
  | none => rfl
  | some e =>
    simp only [core, modify, comp_update]
    congr 1
    all_goals exact update_eq_self e _

theorem core_count_runs {f : ℕ → ℕ} : (s.count key f).core.runs = s.core.runs := by
  unfold count
  cases s.table key <;> rfl

theorem core_newEntry {tab : TabID} : (s.newEntry cfg key tab).core =
    (s.core.newEntry key).put s.core.begun (.starting s.core.made .prepare) := by
  unfold newEntry trackTab
  cases cfg.scope <;> simp only [core, Core.newEntry, Core.put, put, comp_update]

theorem mem_walk {rank : ℕ → ℕ} {items : List ℕ} : e ∈ walk rank items ↔ e ∈ items :=
  mem_insertionSort _

theorem mem_tabled : e ∈ s.tabled ↔ e < s.made ∧ s.table (s.entries e).key = some e := by
  simp [tabled]

theorem runnerFor_move (user : UserID) (tab : TabID) (hidle : s.core.calls s.core.begun = .idle) :
    Move cfg s (.runnerFor user tab) (s.runnerFor cfg user tab).core := by
  have htalk : ∀ {call : Call}, s.core.Talk .idle call →
      Move cfg s (.runnerFor user tab) (s.core.put s.core.begun call) :=
    fun h => .talk (by rw [hidle]; exact h)
  unfold runnerFor
  split_ifs
  · exact htalk .reject
  · exact htalk .reject
  · dsimp only
    split
    · split_ifs
      · exact htalk .wait
      · exact htalk .hit
    · rename_i hnone
      rw [core_newEntry]
      exact .new hnone

theorem closeTab_move (user : UserID) (tab : TabID) (h : s.core.Wf) :
    Move cfg s (.closeTab user tab) (s.closeTab cfg user tab).core := by
  have hidle : s.core.calls s.core.begun = .idle := h.idle _ (Nat.le_refl _)
  have htalk : ∀ {call : Call}, s.core.Talk .idle call →
      Move cfg s (.closeTab user tab) (s.core.put s.core.begun call) :=
    fun h => .talk (by rw [hidle]; exact h)
  unfold closeTab
  split_ifs with huser htab
  · exact htalk .reject
  · exact htalk .reject
  · cases htable : s.table (keyFor cfg user tab) with
    | none => exact htalk .release
    | some e =>
      have hkey : s.core.table (s.core.key e) = some e := by
        rw [(h.table _ e htable).1]
        exact htable
      have htake : s.taken cfg (.closeTab user tab) = [e] →
          Move cfg s (.closeTab user tab) (s.take s.begun .closed [e]).core := by
        intro htaken
        have hmove := @Move.take cfg s (.closeTab user tab) s.core.begun .closed (.inl hidle)
          (by rw [htaken]; simpa using hkey) (fun hreason => by cases hreason)
        rw [htaken] at hmove
        exact hmove
      cases hscope : cfg.scope with
      | tab => exact htake (by simp [taken, huser, htab, htable, hscope])
      | user =>
        dsimp only
        split_ifs with hempty
        · rw [core_take, @core_tabs s e fun tabs => tabs.erase tab]
          simp only [modify, update_self] at hempty
          exact htake (by simp [taken, huser, htab, htable, hempty])
        · rw [core_returned, @core_tabs s e fun tabs => tabs.erase tab]
          exact htalk .release

variable {answer : Option GoString}

theorem lookup_move {i : ℕ} {tab : TabID} (hcall : s.core.calls i = .lookup key tab) :
    Move cfg s (.advance i answer) (s.lookup cfg i key tab).core := by
  unfold lookup
  split
  · exact .talk (by rw [hcall]; exact .unavailable)
  · rename_i e htable
    split
    · rename_i err herr
      exact .drop hcall htable herr
    · rename_i herr
      rw [core_put, core_trackTab]
      exact .found hcall htable herr

theorem start_move {i : ℕ} {stage : StartStage} (hcall : s.core.calls i = .starting e stage) :
    Move cfg s (.advance i answer) (s.start cfg i e answer stage).core := by
  unfold start
  cases stage with
  | prepare =>
    cases answer with
    | none => exact .prepare hcall
    | some err => exact .unprepared hcall
  | ensure =>
    cases answer with
    | none =>
      dsimp only
      rw [core_put, core_ensureRunning]
      exact .ensure hcall rfl
    | some err => exact .talk (by rw [hcall]; exact .unensured)
  | connect c =>
    cases answer with
    | none => exact .talk (by rw [hcall]; exact .connected)
    | some err => exact .talk (by rw [hcall]; exact .unconnected)
  | stopFailed c err =>
    dsimp only
    rw [core_put, core_setState]
    exact .halt (by rw [hcall]; exact .stopFailed) nofun
  | removeFailed c err =>
    dsimp only
    rw [core_put, core_setState]
    exact .halt (by rw [hcall]; exact .removeFailed) nofun
  | finish result =>
    cases result with
    | error err =>
      dsimp only
      rw [core_returned, core_failed]
      exact .failed hcall
    | ok c =>
      dsimp only
      rw [core_returned, core_started]
      exact .started hcall

theorem closeEntry_move {i : ℕ} (h : s.core.Wf) (hcall : s.core.calls i = .closing key e) :
    Move cfg s (.advance i answer) (s.closeEntry i key).core := by
  have hcalls : s.calls i = .closing key e := hcall
  unfold closeEntry
  cases htable : s.table key with
  | none => exact .talk (by rw [hcall]; exact .gone)
  | some e' =>
    have htaken : s.taken cfg (.advance i answer) = [e'] := by
      simp [taken, hcalls, htable]
    have hkey : s.core.table (s.core.key e') = some e' := by
      rw [(h.table _ e' htable).1]
      exact htable
    have hmove := @Move.take cfg s (.advance i answer) i .keepaliveMissed (.inr ⟨key, e, hcall⟩)
      (by rw [htaken]; simpa using hkey) (fun hreason => by cases hreason)
    rw [htaken] at hmove
    exact hmove

theorem stopRunner_move {i : ℕ} {reason : StopReason} {stage : StopStage} {rest : List ℕ}
    (hcall : s.core.calls i = .stopping reason stage e rest) :
    Move cfg s l (s.stopRunner i reason e rest stage).core := by
  unfold stopRunner
  cases stage with
  | cancel =>
    dsimp only
    rw [core_put, core_keepalive]
    exact .talk (by rw [hcall]; exact .cancel)
  | stop =>
    dsimp only
    split
    · rename_i hnone
      exact .talk (by rw [hcall]; exact .skipStop hnone)
    · rename_i c hsome
      rw [core_put, core_setState]
      exact .halt (by rw [hcall]; exact .stop hsome) nofun
  | remove =>
    dsimp only
    split
    · rename_i hnone
      exact .talk (by rw [hcall]; exact .skipRemove hnone)
    · rename_i c hsome
      rw [core_put, core_setState]
      exact .halt (by rw [hcall]; exact .remove hsome) nofun
  | removeDir => exact .undir hcall

theorem advance_move (i : ℕ) (answer : Option GoString) (h : s.core.Wf) :
    Move cfg s (.advance i answer) (s.advance cfg i answer).core := by
  unfold advance
  cases hcall : s.calls i with
  | waiting key tab e =>
    dsimp only
    split_ifs
    · exact .stay
    · exact .talk (by rw [show s.core.calls i = _ from hcall]; exact .wake)
  | lookup key tab => exact lookup_move hcall
  | naming e runner =>
    dsimp only
    split_ifs with hnone
    · exact .talk (by rw [show s.core.calls i = _ from hcall]; exact .unnamed hnone)
    · exact .talk (by rw [show s.core.calls i = _ from hcall]; exact .named hnone)
  | starting e stage => exact start_move hcall
  | closing key e => exact closeEntry_move h hcall
  | stopping reason stage e rest => exact stopRunner_move hcall
  | idle | returned result | panicked => exact .stay

theorem ping_move (e : ℕ) (ok : Bool) (hidle : s.core.calls s.core.begun = .idle) :
    Move cfg s (.ping e ok) (s.ping cfg e ok).core := by
  unfold ping
  split
  · exact .stay
  · rename_i k _
    dsimp only
    generalize (if ok = true then 0 else k.consecutive + 1) = consecutive
    split_ifs with hmade
    · exact .stay
    · rw [core_put, @core_keepalive s e fun _ => none]
      exact .talk (by rw [show s.core.calls s.begun = _ from hidle]; exact .miss (not_le.mp hmade))
    · rw [@core_keepalive s e fun _ => some { k with consecutive := consecutive }]
      exact .stay

theorem exit_move (e : ℕ) : Move cfg s (.exit e) (s.exit e).core := by
  unfold exit
  split
  · exact .stay
  · split_ifs
    · rw [@core_keepalive s e fun _ => none]
      exact .stay
    · exact .stay

theorem startRun_move (i : ℕ) : Move cfg s (.startRun i) (s.startRun i).core := by
  unfold startRun
  split
  · rename_i runner hcall
    have hmove := @Move.startRun cfg s i runner hcall
    rw [← core_count] at hmove
    split
    · rename_i hbase
      rw [hbase, Option.map_none, Option.toList_none, append_nil, ← core_count_runs] at hmove
      exact hmove
    · rename_i client hbase
      rw [hbase] at hmove
      exact hmove
  all_goals exact .stay

theorem finishRun_move (k : ℕ) : Move cfg s (.finishRun k) (s.finishRun k).core := by
  unfold finishRun
  split
  · exact .stay
  · rename_i r hrun
    split_ifs with hfinished
    · exact .stay
    · have hmove := @Move.finishRun cfg s k r hrun (Bool.eq_false_iff.mpr hfinished)
      rw [← core_count] at hmove
      exact hmove

/-- Every step of the provider is a move of its core. -/
theorem step_move (h : s.core.Wf) (l : Label) : Move cfg s l (s.step cfg l).core := by
  have hidle : s.core.calls s.core.begun = .idle := h.idle _ (Nat.le_refl _)
  cases l with
  | runnerFor user tab => exact runnerFor_move user tab hidle
  | closeTab user tab => exact closeTab_move user tab h
  | closeAll rank =>
    exact @Move.take cfg s (.closeAll rank) s.core.begun .shutdown (.inl hidle)
      (fun e he => (mem_tabled.mp (mem_walk.mp he)).2) (fun hreason => by cases hreason)
  | collectIdle rank =>
    refine @Move.take cfg s (.collectIdle rank) s.core.begun .idle (.inl hidle)
      (fun e he => ?_) fun _ e he => ?_
    · exact (mem_tabled.mp (mem_filter.mp (mem_walk.mp he)).1).2
    · have hisIdle := (mem_filter.mp (mem_walk.mp he)).2
      simp only [isIdle, Bool.and_eq_true, beq_iff_eq] at hisIdle
      exact hisIdle.1.1.2
  | advance i answer => exact advance_move i answer h
  | cancel i err =>
    simp only [step, cancel]
    cases hcall : s.calls i with
    | waiting key tab e => exact .talk (by rw [show s.core.calls i = _ from hcall]; exact .giveUp)
    | _ => exact .stay
  | ping e ok => exact ping_move e ok hidle
  | exit e => exact exit_move e
  | startRun i => exact startRun_move i
  | finishRun k => exact finishRun_move k
  | autoRemove x =>
    simp only [step, autoRemove]
    split_ifs
    · rw [core_setState]
      exact .reap
    · exact .stay
  | tick d => exact .stay

end Provider

end Centaurx.RunnerContainer
