import Centaurx.RunnerContainer.TrackedTabs

namespace Centaurx.RunnerContainer
open Go Function Runs List

/-- A call of the provider, with the answers of the container runtime to its start. -/
inductive ProviderCall
  | runnerFor (user : UserID) (tab : TabID) (answers : ℕ → Option GoString)
  | closeTab (user : UserID) (tab : TabID)

/-- The error of a start: the preparations, the container or the connection can fail. -/
def startError (answers : ℕ → Option GoString) : Option GoString :=
  (answers 0).or ((answers 1).or (answers 2))

/-- What a start gives that has asked for a container. -/
def startResult (err : Option GoString) (c : ℕ) : Except GoString ℕ :=
  match err with
  | some err => .error err
  | none => .ok c

/-- What `RunnerFor` returns when the start of an entry has ended. -/
def response (e : ℕ) (key : TabKey) : Except GoString ℕ → Except GoString (Option TrackedRunner)
  | .error err => .error err
  | .ok c => .ok (some ⟨some ⟨e, c⟩, key⟩)

/-- The error of the start of an entry, and the tabs for which it is kept. -/
abbrev Kept := Option GoString × Finset TabID

def Entry.kept (x : Entry) : Kept := (x.err, x.tabs)

namespace Provider

/-- A call from its begin to its return. -/
def serve (cfg : Config) (p : Provider) : ProviderCall → Provider
  | .runnerFor user tab answers => (RunnerContainer.runnerFor cfg p user tab answers).1
  | .closeTab user tab => closeRunner cfg p user tab

/-- A new provider, after calls one after the other. -/
def after (cfg : Config) (calls : List ProviderCall) : Provider :=
  exec (serve cfg) {} calls

/-- The call makes a new entry and returns what comes of its start. -/
def StartsAnew (cfg : Config) (p : Provider) (user : UserID) (tab : TabID)
    (answers : ℕ → Option GoString) : Prop :=
  (p.serve cfg (.runnerFor user tab answers)).made = p.made + 1 ∧
    (p.serve cfg (.runnerFor user tab answers)).calls p.begun = .returned (response p.made
      (keyFor cfg user tab) (startResult (startError answers)
        (p.ensured cfg (containerName cfg (keyFor cfg user tab)))))

def kept (p : Provider) (key : TabKey) : Option Kept := (p.table key).map (Entry.kept ∘ p.entries)

/-- What calls leave in the table. -/
def keep (cfg : Config) (kept : TabKey → Option Kept) : ProviderCall → TabKey → Option Kept
  | .runnerFor user tab answers =>
    if blank user ∨ blank tab then kept
    else update kept (keyFor cfg user tab) (match kept (keyFor cfg user tab) with
      | none => some (startError answers, (trackTab cfg tab {}).tabs)
      -- the error of a failed start is returned once
      | some (some _, _) => none
      | some (none, tabs) => some (none, (trackTab cfg tab { tabs := tabs }).tabs))
  | .closeTab user tab =>
    if blank user ∨ blank tab then kept
    else update kept (keyFor cfg user tab) (match kept (keyFor cfg user tab) with
      | none => none
      | some (err, tabs) =>
        if cfg.scope = .tab ∨ tabs.erase tab = ∅ then none else some (err, tabs.erase tab))

variable {cfg : Config} {p : Provider} {user : UserID} {tab : TabID} {i e : ℕ}

section Kept
variable {k : TabKey}

theorem kept_table {t : Option ℕ} (h : p.table k = t) :
    p.kept k = t.map (Entry.kept ∘ p.entries) := congrArg _ h

theorem kept_untable (p : Provider) (k : TabKey) :
    (p.untable [k]).kept = update p.kept k none := by
  funext key
  by_cases hkey : key = k <;> simp [kept, untable, hkey]

theorem kept_modify (hwf : p.core.Wf) (htable : p.table k = some e) (f : Entry → Entry) :
    (p.modify e f).kept = update p.kept k (some (f (p.entries e)).kept) := by
  funext key
  rw [update_apply]
  split_ifs with hkey
  · simp [hkey, kept, modify, htable]
  · refine Option.map_congr fun e' he' => congrArg Entry.kept (update_of_ne ?_ ..)
    -- an entry is in the table under one key only
    rintro rfl
    exact hkey ((hwf.table key e' he').1.symm.trans (hwf.table k e' htable).1)

theorem kept_congr {q : Provider} (htable : q.table = p.table)
    (hentries : ∀ e, (q.entries e).kept = (p.entries e).kept) : q.kept = p.kept := by
  funext key
  rw [kept, htable]
  exact Option.map_congr fun e _ => hentries e

theorem trackTab_kept (x : Entry) :
    (trackTab cfg tab x).kept = (x.err, (trackTab cfg tab { tabs := x.tabs }).tabs) := by
  simp only [trackTab]
  split <;> rfl

theorem newEntry_kept (hwf : p.core.Wf) (k : TabKey) : (p.newEntry cfg k tab).kept =
    update p.kept k (some (none, (trackTab cfg tab {}).tabs)) := by
  funext key
  rw [update_apply]
  split_ifs with hkey
  · simp only [kept, newEntry, put, hkey, update_self, Option.map_some, comp_apply, trackTab_kept]
  · simp only [kept, newEntry, put, update_of_ne hkey]
    exact Option.map_congr fun e he =>
      congrArg Entry.kept (update_of_ne (hwf.table key e he).2.ne ..)

/-- The call is done with the table. -/
def Done : Call → Prop
  | .naming .. | .stopping .. | .returned _ | .panicked => True
  | .idle | .waiting .. | .lookup .. | .starting .. | .closing .. => False

/-- A call has made no entry and is done with the table, which is now this. -/
structure Leaves (p : Provider) (i : ℕ) (table : TabKey → Option Kept) (q : Provider) : Prop where
  kept : q.kept = table
  made : q.made = p.made
  done : Done (q.calls i)

variable {q : Provider} {table : TabKey → Option Kept}

theorem leaves_put {call : Call} (hkept : q.kept = table) (m : q.made = p.made := by rfl)
    (d : Done call := by trivial) : Leaves p i table (q.put i call) :=
  ⟨hkept, m, by rwa [put_self]⟩

theorem Leaves.advance (h : Leaves p i table q) (a : Option GoString) :
    Leaves p i table (q.advance cfg i a) := by
  have hput : ∀ {q' : Provider} {call : Call}, q'.kept = q.kept → q'.made = q.made → Done call →
      Leaves p i table (q'.put i call) :=
    fun hkept hmade hcall => leaves_put (hkept.trans h.kept) (hmade.trans h.made) hcall
  have hdone := h.done
  unfold Provider.advance
  cases hcall : q.calls i with
  | returned | panicked => exact h
  | naming e runner =>
    dsimp only
    split_ifs <;> exact hput rfl rfl trivial
  | stopping reason stage e rest =>
    cases stage with
    | cancel =>
      refine hput (kept_congr rfl fun e' => ?_) rfl trivial
      simp only [modify, update_apply]
      split_ifs with he
      · exact he ▸ rfl
      · rfl
    | stop | remove =>
      dsimp only [stopRunner]
      split <;> exact hput rfl rfl trivial
    | removeDir => exact hput rfl rfl (by cases rest <;> trivial)
  | _ =>
    rw [hcall] at hdone
    cases hdone

theorem Leaves.exec (h : Leaves p i table q) (answers : List (Option GoString)) :
    Leaves p i table (exec (step cfg) q (answers.map (.advance i))) := by
  induction answers generalizing q with
  | nil => exact h
  | cons a answers ih => exact ih (h.advance a)

theorem closeTab_leaves (cfg : Config) (hwf : p.core.Wf) (user : UserID) (tab : TabID) :
    Leaves p p.begun (keep cfg p.kept (.closeTab user tab)) (p.closeTab cfg user tab) := by
  rw [closeTab, keep]
  by_cases huser : blank user
  · rw [if_pos huser, if_pos (.inl huser)]
    exact leaves_put rfl
  by_cases htab : blank tab
  · rw [if_neg huser, if_pos htab, if_pos (.inr htab)]
    exact leaves_put rfl
  rw [if_neg huser, if_neg htab, if_neg (not_or.mpr ⟨huser, htab⟩)]
  cases htable : p.table (keyFor cfg user tab) with
  | none =>
    have hkept := kept_table htable
    rw [hkept]
    exact leaves_put (update_eq_self_iff.mpr hkept.symm).symm
  | some e =>
    have hkey : (p.entries e).key = keyFor cfg user tab := (hwf.table _ e htable).1
    rw [kept_table htable, ← hkey]
    cases hscope : cfg.scope with
    | tab => exact leaves_put (by simp [kept_untable])
    | user =>
      have herase := kept_modify hwf (hkey ▸ htable) fun x => { x with tabs := x.tabs.erase tab }
      have htabs : ((p.modify e fun x => { x with tabs := x.tabs.erase tab }).entries e).tabs =
          (p.entries e).tabs.erase tab := by simp [modify]
      dsimp only [Option.map_some, comp_apply, Entry.kept]
      rw [htabs]
      by_cases hempty : (p.entries e).tabs.erase tab = ∅
      · rw [if_pos hempty, if_pos (.inr hempty)]
        refine leaves_put ((kept_untable ..).trans ?_)
        rw [herase]
        simp [modify]
      · rw [if_neg hempty, if_neg (by simp [hempty])]
        exact leaves_put herase

end Kept

section Start

theorem exec_returned {result : Except GoString (Option TrackedRunner)}
    (h : p.calls i = .returned result) (answers : List (Option GoString)) :
    exec (step cfg) p (answers.map (.advance i)) = p := by
  have hstay : ∀ a, p.step cfg (.advance i a) = p := by
    intro a
    rw [step, advance, h]
  induction answers with
  | nil => rfl
  | cons a answers ih =>
    refine Eq.trans ?_ ih
    rw [map_cons, exec, foldl_cons, hstay]
    rfl

theorem exec_start {stage : StartStage} (h : p.calls i = .starting e stage) (a : Option GoString)
    (ls : List Label) :
    exec (step cfg) p (.advance i a :: ls) = exec (step cfg) (p.start cfg i e a stage) ls := by
  rw [exec, foldl_cons, step, advance, h]
  rfl

/-- The start ends in this way, with an error or a container. -/
def Ends (cfg : Config) (p : Provider) (i e : ℕ) (answers : List (Option GoString))
    (err : Option GoString) (c : ℕ) : Prop :=
  let q := exec (step cfg) p (answers.map (.advance i))
  q.calls i = .returned (response e (p.entries e).key (startResult err c)) ∧ q.made = p.made ∧
    q.kept = (p.modify e fun x => { x with err := err.or x.err }).kept

theorem ends_finish {x : Option GoString} {c : ℕ}
    (h : p.calls i = .starting e (.finish (startResult x c))) (a : Option GoString)
    (answers : List (Option GoString)) : Ends cfg p i e (a :: answers) x c := by
  rw [Ends, map_cons, exec_start h]
  cases x with
  | some err | none =>
    rw [startResult, start, returned, exec_returned (put_self _ _ _), put_self]
    refine ⟨rfl, rfl, kept_congr rfl fun e' => ?_⟩
    simp only [put, modify, update_apply]
    split_ifs <;> rfl

theorem ends_removeFailed {c : ℕ} {err : GoString}
    (h : p.calls i = .starting e (.removeFailed c err)) (a₄ a₅ : Option GoString) :
    Ends cfg p i e [a₄, a₅] (some err) c := by
  rw [Ends, map_cons, exec_start h]
  exact ends_finish (p := (p.setState c .removed).put i (.starting e (.finish (.error err))))
    (x := some err) (put_self ..) a₅ []

theorem ends_stopFailed {c : ℕ} {err : GoString} (h : p.calls i = .starting e (.stopFailed c err))
    (a₃ a₄ a₅ : Option GoString) : Ends cfg p i e [a₃, a₄, a₅] (some err) c := by
  rw [Ends, map_cons, exec_start h]
  exact ends_removeFailed (p := (p.setState c .stopped).put i (.starting e (.removeFailed c err)))
    (put_self ..) a₄ a₅

theorem ends_connect {c : ℕ} (h : p.calls i = .starting e (.connect c))
    (a₂ a₃ a₄ a₅ : Option GoString) : Ends cfg p i e [a₂, a₃, a₄, a₅] a₂ c := by
  rw [Ends, map_cons, exec_start h]
  cases a₂ with
  | some err =>
    exact ends_stopFailed (p := p.put i (.starting e (.stopFailed c err))) (put_self ..) a₃ a₄ a₅
  | none =>
    exact ends_finish (p := p.put i (.starting e (.finish (.ok c)))) (x := none) (put_self ..)
      a₃ [a₄, a₅]

theorem ends_ensure (h : p.calls i = .starting e .ensure) (a₁ a₂ a₃ a₄ a₅ : Option GoString) :
    Ends cfg p i e [a₁, a₂, a₃, a₄, a₅] (a₁.or a₂)
      (p.ensured cfg (containerName cfg (p.entries e).key)) := by
  rw [Ends, map_cons, exec_start h]
  cases a₁ with
  | some err =>
    exact ends_finish (p := p.put i (.starting e (.finish (.error err)))) (x := some err)
      (put_self ..) a₂ [a₃, a₄, a₅]
  | none =>
    exact ends_connect (p := (p.ensureRunning cfg _).put i (.starting e (.connect _)))
      (put_self ..) a₂ a₃ a₄ a₅

theorem ends_prepare (cfg : Config) (h : p.calls i = .starting e .prepare)
    (answers : ℕ → Option GoString) :
    Ends cfg p i e ((range 6).map answers) (startError answers)
      (p.ensured cfg (containerName cfg (p.entries e).key)) := by
  have hrange : (range 6).map answers =
      [answers 0, answers 1, answers 2, answers 3, answers 4, answers 5] := rfl
  rw [hrange, Ends, map_cons, exec_start h, startError]
  cases answers 0 with
  | some err =>
    exact ends_finish (p := p.put i (.starting e (.finish (.error err)))) (x := some err)
      (put_self ..) _ _
  | none =>
    exact ends_ensure (p := (p.setDir (p.entries e).key (some e)).put i (.starting e .ensure))
      (put_self ..) (answers 1) (answers 2) (answers 3) (answers 4) (answers 5)

end Start

section RunnerFor
variable (answers : ℕ → Option GoString)

theorem serve_runnerFor : p.serve cfg (.runnerFor user tab answers) =
    exec (step cfg) (p.runnerFor cfg user tab)
      (((range 6).map answers).map (.advance p.begun)) := by
  rw [← labels_advance]
  rfl

theorem serve_blank (h : blank user ∨ blank tab) :
    Leaves p p.begun (keep cfg p.kept (.runnerFor user tab answers))
      (p.serve cfg (.runnerFor user tab answers)) := by
  rw [serve_runnerFor, keep, if_pos h]
  refine Leaves.exec ?_ _
  unfold Provider.runnerFor
  split_ifs with huser htab
  · exact leaves_put rfl
  · exact leaves_put rfl
  · exact absurd h (not_or.mpr ⟨huser, htab⟩)

variable (hids : ¬(blank user ∨ blank tab))
include hids

theorem runnerFor_table : p.runnerFor cfg user tab =
    match p.table (keyFor cfg user tab) with
    | some e => p.put p.begun
      (if (p.entries e).starting then .waiting (keyFor cfg user tab) tab e
        else .lookup (keyFor cfg user tab) tab)
    | none => p.newEntry cfg (keyFor cfg user tab) tab :=
  (if_neg (not_or.mp hids).1).trans (if_neg (not_or.mp hids).2)

theorem serve_new (hwf : p.core.Wf) (htable : p.table (keyFor cfg user tab) = none) :
    (p.serve cfg (.runnerFor user tab answers)).kept =
      keep cfg p.kept (.runnerFor user tab answers) ∧ p.StartsAnew cfg user tab answers := by
  have hfirst : p.runnerFor cfg user tab = p.newEntry cfg (keyFor cfg user tab) tab := by
    rw [runnerFor_table hids, htable]
  have hwf' : (p.newEntry cfg (keyFor cfg user tab) tab).core.Wf :=
    hfirst ▸ wf_step hwf (.runnerFor user tab)
  have htable' : (p.newEntry cfg (keyFor cfg user tab) tab).table (keyFor cfg user tab) =
      some p.made := update_self ..
  have hkey : (entries _ p.made).key = keyFor cfg user tab := (hwf'.table _ _ htable').1
  obtain ⟨hcalls, hmade, hkept⟩ := ends_prepare cfg
    (p := p.newEntry cfg (keyFor cfg user tab) tab) (put_self ..) answers
  rw [kept_modify hwf' htable', newEntry_kept hwf, update_idem] at hkept
  rw [hkey] at hcalls
  rw [StartsAnew, serve_runnerFor, hfirst, keep, if_neg hids, kept_table htable]
  refine ⟨hkept.trans ?_, hmade, hcalls⟩
  have hnew : (p.newEntry cfg (keyFor cfg user tab) tab).kept (keyFor cfg user tab) = _ :=
    kept_table htable'
  rw [newEntry_kept hwf, update_self] at hnew
  obtain ⟨herr, htabs⟩ := Prod.mk.inj (Option.some.inj hnew)
  dsimp only [Entry.kept]
  rw [← herr, ← htabs, Option.or_none]
  rfl

theorem lookup_leaves (hwf : p.core.Wf) (htable : p.table (keyFor cfg user tab) = some e) (i : ℕ) :
    Leaves p i (keep cfg p.kept (.runnerFor user tab answers))
      (p.lookup cfg i (keyFor cfg user tab) tab) := by
  rw [lookup, keep, if_neg hids, kept_table htable, htable]
  dsimp only [Option.map_some, comp_apply, Entry.kept]
  cases herr : (p.entries e).err with
  | some err =>
    exact leaves_put (kept_untable ..)
  | none =>
    refine leaves_put ?_
    rw [kept_modify hwf htable, trackTab_kept]
    simp only [herr]

theorem serve_old (h : Rests p) (htable : p.table (keyFor cfg user tab) = some e) :
    Leaves p p.begun (keep cfg p.kept (.runnerFor user tab answers))
      (p.serve cfg (.runnerFor user tab answers)) ∧
    ∀ err, (p.entries e).err = some err →
      (p.serve cfg (.runnerFor user tab answers)).calls p.begun = .returned (.error err) := by
  have hfirst : p.runnerFor cfg user tab = p.put p.begun (.lookup (keyFor cfg user tab) tab) := by
    rw [runnerFor_table hids, htable]
    dsimp only
    rw [h.ready htable, if_neg Bool.false_ne_true]
  have hexec : p.serve cfg (.runnerFor user tab answers) = exec (step cfg)
      ((p.put p.begun (.lookup (keyFor cfg user tab) tab)).lookup cfg p.begun
        (keyFor cfg user tab) tab)
      ([answers 1, answers 2, answers 3, answers 4, answers 5].map (.advance p.begun)) := by
    rw [serve_runnerFor, hfirst, show (range 6).map answers = answers 0 :: _ from rfl, map_cons,
      exec, foldl_cons, step, advance, put_self]
    rfl
  rw [hexec]
  constructor
  · obtain ⟨hkept, hmade, hdone⟩ := lookup_leaves answers hids
      (p := p.put p.begun (.lookup (keyFor cfg user tab) tab)) (e := e)
      (hfirst ▸ wf_step h.wf (.runnerFor user tab)) htable p.begun
    exact Leaves.exec (p := p) ⟨hkept, hmade, hdone⟩ _
  · intro err herr
    simp only [lookup, put, htable, herr]
    rw [returned, exec_returned (put_self ..), put_self]

end RunnerFor

theorem serve_kept (h : Rests p) (c : ProviderCall) :
    (p.serve cfg c).kept = keep cfg p.kept c := by
  cases c with
  | runnerFor user tab answers =>
    by_cases hids : blank user ∨ blank tab
    · exact (serve_blank answers hids).kept
    · cases htable : p.table (keyFor cfg user tab) with
      | none => exact (serve_new answers hids h.wf htable).1
      | some e => exact (serve_old answers hids h htable).1.kept
  | closeTab user tab =>
    exact ((closeTab_leaves cfg h.wf user tab).exec (replicate 4 none)).kept

theorem rests_serve (h : Rests p) (c : ProviderCall) : Rests (p.serve cfg c) := by
  cases c with
  | runnerFor user tab answers => exact h.runnerFor cfg user tab answers
  | closeTab user tab => exact h.closeRunner cfg user tab

/-- Between calls the provider rests, and `keep` says what is in its table. -/
theorem after_kept (cfg : Config) (calls : List ProviderCall) :
    Rests (after cfg calls) ∧ (after cfg calls).kept = exec (keep cfg) (fun _ => none) calls := by
  induction calls using reverseRecOn with
  | nil => exact ⟨⟨wf_new, (fun _ he => nomatch he), fun _ => rfl⟩, rfl⟩
  | append_singleton calls c ih =>
    obtain ⟨hrests, hkept⟩ := ih
    rw [after, exec_append, exec_append, ← hkept]
    exact ⟨rests_serve hrests c, serve_kept hrests c⟩

end Provider

open Provider

/-- Calls come one after the other. A call of `RunnerFor` makes a new start and returns what comes
of it if and only if the table has no entry for its key, which `keep` reads off the calls before it.
An entry there has its container, or its start has failed; then the call makes no start and returns
the old error. -/
theorem runnerFor_starts_anew_iff (cfg : Config) (calls : List ProviderCall) (user : UserID)
    (tab : TabID) (answers : ℕ → Option GoString) :
    ((after cfg calls).StartsAnew cfg user tab answers ↔
      blank user = false ∧ blank tab = false ∧
        (after cfg calls).table (keyFor cfg user tab) = none) ∧
    ((after cfg calls).table (keyFor cfg user tab) = none ↔
      exec (keep cfg) (fun _ => none) calls (keyFor cfg user tab) = none) ∧
    ∀ e, (after cfg calls).table (keyFor cfg user tab) = some e →
      (∃ c, ((after cfg calls).entries e).handle = some c) ∨
      ∃ err, ((after cfg calls).entries e).err = some err ∧
        (blank user = false → blank tab = false →
          ((after cfg calls).serve cfg (.runnerFor user tab answers)).calls
            (after cfg calls).begun = .returned (.error err)) := by
  obtain ⟨hrests, hkept⟩ := after_kept cfg calls
  rw [← hkept]
  generalize after cfg calls = p at hrests
  refine ⟨⟨fun hanew => ?_, fun ⟨huser, htab, hnone⟩ => ?_⟩, Option.map_eq_none_iff.symm,
    fun e he => ?_⟩
  · by_cases hids : blank user ∨ blank tab
    · have hmade := (serve_blank answers hids).made.symm.trans hanew.1
      omega
    · cases htable : p.table (keyFor cfg user tab) with
      | none => simp_all
      | some e =>
        have hmade := (serve_old answers hids hrests htable).1.made.symm.trans hanew.1
        omega
  · exact (serve_new answers (by simp [huser, htab]) hrests.wf hnone).2
  · have hsettled := hrests.wf.settled e (hrests.wf.table _ e he).2
    cases herr : (p.entries e).err with
    | some err =>
      refine .inr ⟨err, rfl, fun huser htab => ?_⟩
      exact (serve_old answers (by simp [huser, htab]) hrests he).2 err herr
    | none =>
      obtain ⟨c, -, hc⟩ := hsettled.started (hrests.ready he) herr
      exact .inl ⟨c, hc⟩

/-- The runtime is down when Alice asks for the first time and is up again the second time. The old
error comes back, and nothing was tried. -/
theorem runnerFor_returns_old_error :
    (Provider.after tabConfig [.runnerFor (lit "alice") (lit "tab1")
      fun _ => some (lit "runtime is down")]).created = 0 ∧
    ((Provider.after tabConfig
      [.runnerFor (lit "alice") (lit "tab1") fun _ => some (lit "runtime is down"),
        .runnerFor (lit "alice") (lit "tab1") fun _ => none]).calls 1 =
      .returned (.error (lit "runtime is down"))) ∧
    (Provider.after tabConfig
      [.runnerFor (lit "alice") (lit "tab1") fun _ => some (lit "runtime is down"),
        .runnerFor (lit "alice") (lit "tab1") fun _ => none]).made = 1 :=
  ⟨rfl, rfl, rfl⟩

end Centaurx.RunnerContainer
