import Centaurx.Core.Tab
import Mathlib.Data.List.Count
import Mathlib.Data.List.Chain
import Mathlib.Data.List.Nodup

namespace Centaurx
open Go List

/-- The handle of the run, or of a command. -/
inductive Handle
  | run (handle : RunHandle)
  | command (handle : CommandHandle)
  deriving DecidableEq

/-- The function that cancels the context of the run, or of a command. -/
inductive Cancel
  | run (cancel : CancelFunc)
  | command (cancel : CancelFunc)
  deriving DecidableEq

inductive StopSignal
  | term | kill
  deriving DecidableEq

/-- A `commandRun`, either part of which may be nil. -/
structure CommandSlot where
  handle : Option CommandHandle
  cancel : Option CancelFunc
  deriving DecidableEq

structure StopArgs where
  handle : Option RunHandle
  runCancel : Option CancelFunc
  commands : List CommandSlot
  deriving DecidableEq

/-- The handles that are not nil; the run comes first in all the loops. -/
def StopArgs.handles (a : StopArgs) : List Handle :=
  (a.handle.map .run).toList ++ a.commands.filterMap fun c => c.handle.map .command

def StopArgs.cancels (a : StopArgs) : List Cancel :=
  (a.runCancel.map .run).toList ++ a.commands.filterMap fun c => c.cancel.map .command

/-- What the procedures meet. -/
structure StopEnv where
  /-- The handle has a done channel. -/
  hasDone : Handle → Bool
  /-- Its channel is closed when the look with this number is taken. -/
  closed : ℕ → Handle → Bool
  signalError : Handle → StopSignal → Option GoString

/-- `isDone(handleDone(h))`. -/
def StopEnv.isDone (env : StopEnv) (k : ℕ) (h : Handle) : Bool := env.hasDone h && env.closed k h

inductive StopEvent
  | signal (h : Handle) (sig : StopSignal)
  | sleep
  | look (k : ℕ) (h : Handle)
  | appendLine (line : GoString)
  | cancel (c : Cancel)
  deriving DecidableEq

open StopEvent

/-- The lines that a procedure writes to the tab. -/
structure StopLines where
  signalFailed : GoString → List GoString
  killing : List GoString

section Sequence
variable (lines : StopLines) (env : StopEnv)

def sendSignal (sig : StopSignal) (h : Handle) : List StopEvent :=
  .signal h sig ::
    match env.signalError h sig with
    | none => []
    | some err => (lines.signalFailed err).map .appendLine

/-- The search for a handle that is not done, from look `k` on: the looks, and whether one was
found. The first one ends it. -/
def findUnfinished : ℕ → List Handle → List StopEvent × Bool
  | _, [] => ([], false)
  | k, h :: hs =>
    if env.isDone k h then
      (.look k h :: (findUnfinished (k + 1) hs).1, (findUnfinished (k + 1) hs).2)
    else ([.look k h], true)

/-- The loop that kills; without `shouldKill` it does nothing. -/
def killUnfinished : ℕ → List Handle → List StopEvent
  | _, [] => []
  | k, h :: hs =>
    .look k h :: ((if env.isDone k h then [] else sendSignal lines env .kill h) ++
      killUnfinished (k + 1) hs)

def terminatePhase (handles : List Handle) : List StopEvent :=
  handles.flatMap (sendSignal lines env .term)

def killPhase (handles : List Handle) : List StopEvent :=
  let (looks, shouldKill) := findUnfinished env 0 handles
  looks ++
    if shouldKill then
      lines.killing.map .appendLine ++ killUnfinished lines env looks.length handles
    else []

def stopSequence (a : StopArgs) : List StopEvent :=
  terminatePhase lines env a.handles ++ .sleep :: (killPhase lines env a.handles ++
    a.cancels.map .cancel)

end Sequence

def stopTabHandles (env : StopEnv) (a : StopArgs) : List StopEvent :=
  stopSequence ⟨fun _ => [], []⟩ env a

def stopTabHandlesAsync (env : StopEnv) (a : StopArgs) : List StopEvent :=
  stopSequence ⟨fun err => [lit "signal error: " ++ err], [lit "stop requested: sending SIGKILL"]⟩
    env a

section Phases
variable {lines : StopLines} {env : StopEnv} {e : StopEvent}

theorem mem_sendSignal {sig : StopSignal} {h : Handle} (he : e ∈ sendSignal lines env sig h) :
    e = .signal h sig ∨ ∃ line, e = .appendLine line := by
  rw [sendSignal, mem_cons] at he
  refine he.imp_right fun he => ?_
  split at he
  · simp at he
  · obtain ⟨line, -, rfl⟩ := mem_map.mp he
    exact ⟨line, rfl⟩

theorem count_sendSignal (sig : StopSignal) (h h' : Handle) :
    (sendSignal lines env sig h').count (.signal h sig) = if h' = h then 1 else 0 := by
  have hlines : ∀ ls : List GoString, (ls.map appendLine).count (.signal h sig) = 0 := by
    intro ls
    rw [count_eq_zero]
    intro hmem
    obtain ⟨line, -, heq⟩ := mem_map.mp hmem
    cases heq
  rw [sendSignal, count_cons]
  split
  · simp
  · simp [hlines]

theorem count_terminatePhase (h : Handle) (handles : List Handle) :
    (terminatePhase lines env handles).count (.signal h .term) = handles.count h := by
  induction handles with
  | nil => rfl
  | cons h' hs ih =>
    rw [terminatePhase, flatMap_cons, count_append, count_sendSignal, count_cons]
    rw [terminatePhase] at ih
    rw [ih, add_comm]
    simp

variable {handles : List Handle}

theorem mem_terminatePhase (he : e ∈ terminatePhase lines env handles) :
    (∃ h ∈ handles, e = .signal h .term) ∨ ∃ line, e = .appendLine line := by
  obtain ⟨h, hh, he⟩ := mem_flatMap.mp he
  exact (mem_sendSignal he).imp_left fun he => ⟨h, hh, he⟩

theorem findUnfinished_of_mem {h : Handle} (hh : h ∈ handles) (hopen : ∀ k, env.isDone k h = false)
    (k : ℕ) : (findUnfinished env k handles).2 = true := by
  induction handles generalizing k with
  | nil => simp at hh
  | cons h' hs ih =>
    rw [findUnfinished]
    split_ifs with hdone
    · -- the search passes by, so it was another handle
      rcases mem_cons.mp hh with rfl | hh
      · simp [hopen k] at hdone
      · exact ih hh (k + 1)
    · rfl

theorem mem_findUnfinished {k : ℕ} (he : e ∈ (findUnfinished env k handles).1) :
    ∃ k h, e = .look k h := by
  induction handles generalizing k with
  | nil => simp [findUnfinished] at he
  | cons h hs ih =>
    rw [findUnfinished] at he
    split_ifs at he
    · rcases mem_cons.mp he with rfl | he
      · exact ⟨k, h, rfl⟩
      · exact ih he
    · exact ⟨k, h, mem_singleton.mp he⟩

theorem mem_killUnfinished {k : ℕ} (he : e ∈ killUnfinished lines env k handles) :
    (∃ h ∈ handles, e = .signal h .kill) ∨ (∃ k h, e = .look k h) ∨
      ∃ line, e = .appendLine line := by
  induction handles generalizing k with
  | nil => simp [killUnfinished] at he
  | cons h hs ih =>
    rw [killUnfinished, mem_cons, mem_append] at he
    rcases he with rfl | he | he
    · exact .inr (.inl ⟨k, h, rfl⟩)
    · split_ifs at he
      · simp at he
      · rcases mem_sendSignal he with rfl | hline
        · exact .inl ⟨h, by simp, rfl⟩
        · exact .inr (.inr hline)
    · exact (ih he).imp_left fun ⟨h', hh', heq⟩ => ⟨h', by simp [hh'], heq⟩

theorem count_killUnfinished_le (h : Handle) (handles : List Handle) (k : ℕ) :
    (killUnfinished lines env k handles).count (.signal h .kill) ≤ handles.count h := by
  induction handles generalizing k with
  | nil => rfl
  | cons h' hs ih =>
    have hrest := ih (k + 1)
    have hlook : look k h' ≠ .signal h .kill := fun heq => by cases heq
    have hkill : (if env.isDone k h' then [] else sendSignal lines env .kill h').count
        (.signal h .kill) ≤ if h' = h then 1 else 0 := by
      split
      · exact Nat.zero_le _
      · exact (count_sendSignal .kill h h').le
    rw [killUnfinished, count_cons_of_ne hlook, count_append, count_cons]
    simp only [beq_iff_eq]
    omega

theorem mem_killUnfinished_of_open {h : Handle} (hh : h ∈ handles)
    (hopen : ∀ k, env.isDone k h = false) (k : ℕ) :
    .signal h .kill ∈ killUnfinished lines env k handles := by
  induction handles generalizing k with
  | nil => simp at hh
  | cons h' hs ih =>
    rw [killUnfinished, mem_cons, mem_append]
    rcases mem_cons.mp hh with rfl | hh
    · right
      left
      rw [if_neg (by simp [hopen k]), sendSignal]
      exact mem_cons_self
    · exact .inr (.inr (ih hh (k + 1)))

/-- Before a kill stands a look at the handle that found it unfinished. -/
def AfterLook (env : StopEnv) (before e : StopEvent) : Prop :=
  ∀ h, e = .signal h .kill → ∃ k, before = .look k h ∧ env.isDone k h = false

/-- Events other than kills may stand anywhere. -/
theorem isChain_append_of_ne {es rest : List StopEvent} (hes : ∀ e ∈ es, ∀ h, e ≠ .signal h .kill)
    (hrest : ∀ e, List.IsChain (AfterLook env) (e :: rest)) (before : StopEvent) :
    List.IsChain (AfterLook env) (before :: (es ++ rest)) := by
  induction es generalizing before with
  | nil => exact hrest before
  | cons e es ih =>
    refine List.IsChain.cons_cons (fun h heq => absurd heq (hes e (by simp) h)) ?_
    exact ih (fun e' he' => hes e' (by simp [he'])) e

theorem isChain_killUnfinished (handles : List Handle) (k : ℕ) (before : StopEvent) :
    List.IsChain (AfterLook env) (before :: killUnfinished lines env k handles) := by
  induction handles generalizing k before with
  | nil => exact isChain_singleton _
  | cons h hs ih =>
    rw [killUnfinished]
    refine List.IsChain.cons_cons (fun _ heq => by cases heq) ?_
    split_ifs with hdone
    · exact ih (k + 1) _
    · rw [sendSignal, cons_append]
      refine List.IsChain.cons_cons (fun h' heq => ?_) ?_
      · obtain ⟨rfl, -⟩ := signal.inj heq
        exact ⟨k, rfl, by simpa using hdone⟩
      · refine isChain_append_of_ne (fun e he h' heq => ?_) (ih (k + 1)) _
        subst heq
        split at he
        · simp at he
        · simp at he

/-- What is written before the loop that kills. -/
def beforeKills (lines : StopLines) (env : StopEnv) (handles : List Handle) : List StopEvent :=
  (findUnfinished env 0 handles).1 ++
    if (findUnfinished env 0 handles).2 then lines.killing.map .appendLine else []

theorem killPhase_eq (handles : List Handle) :
    killPhase lines env handles = beforeKills lines env handles ++
      if (findUnfinished env 0 handles).2 then
        killUnfinished lines env (findUnfinished env 0 handles).1.length handles
      else [] := by
  rw [killPhase, beforeKills, append_assoc]
  dsimp only
  split_ifs <;> rfl

theorem mem_beforeKills (he : e ∈ beforeKills lines env handles) :
    (∃ k h, e = .look k h) ∨ ∃ line, e = .appendLine line := by
  rcases mem_append.mp he with he | he
  · exact .inl (mem_findUnfinished he)
  · split_ifs at he
    · obtain ⟨line, -, rfl⟩ := mem_map.mp he
      exact .inr ⟨line, rfl⟩
    · simp at he

theorem beforeKills_ne_kill (he : e ∈ beforeKills lines env handles) (h : Handle) :
    e ≠ .signal h .kill := by
  rintro rfl
  rcases mem_beforeKills he with ⟨k, h', heq⟩ | ⟨line, heq⟩ <;> cases heq

theorem mem_killPhase (he : e ∈ killPhase lines env handles) :
    (∃ h ∈ handles, e = .signal h .kill) ∨ (∃ k h, e = .look k h) ∨
      ∃ line, e = .appendLine line := by
  rw [killPhase_eq] at he
  rcases mem_append.mp he with he | he
  · exact .inr (mem_beforeKills he)
  · split_ifs at he
    · exact mem_killUnfinished he
    · simp at he

theorem mem_stopSequence {a : StopArgs} (he : e ∈ stopSequence lines env a) :
    (∃ h ∈ a.handles, ∃ sig, e = .signal h sig) ∨ (∃ c ∈ a.cancels, e = .cancel c) ∨
      e = .sleep ∨ (∃ k h, e = .look k h) ∨ ∃ line, e = .appendLine line := by
  rcases mem_append.mp he with he | he
  · rcases mem_terminatePhase he with ⟨h, hh, rfl⟩ | hline
    · exact .inl ⟨h, hh, .term, rfl⟩
    · exact .inr (.inr (.inr (.inr hline)))
  · rcases mem_cons.mp he with rfl | he
    · exact .inr (.inr (.inl rfl))
    · rcases mem_append.mp he with he | he
      · rcases mem_killPhase he with ⟨h, hh, rfl⟩ | hrest
        · exact .inl ⟨h, hh, .kill, rfl⟩
        · exact .inr (.inr (.inr hrest))
      · obtain ⟨c, hc, rfl⟩ := mem_map.mp he
        exact .inr (.inl ⟨c, hc, rfl⟩)

end Phases

/-- What happens before the wait: one request to terminate for every handle. -/
structure Terminates (handles : List Handle) (events : List StopEvent) : Prop where
  once : ∀ h ∈ handles, events.count (.signal h .term) = 1
  only : ∀ e ∈ events, (∃ h ∈ handles, e = .signal h .term) ∨ ∃ line, e = .appendLine line

/-- What happens after the wait: a kill for every handle that is still unfinished when it is
looked at, and so for every one that never finishes. -/
structure Kills (env : StopEnv) (handles : List Handle) (events : List StopEvent) : Prop where
  atMostOnce : ∀ h, events.count (.signal h .kill) ≤ 1
  unfinished : List.IsChain (AfterLook env) (.sleep :: events)
  reached : ∀ h ∈ handles, (∀ k, env.isDone k h = false) → .signal h .kill ∈ events
  only : ∀ e ∈ events, (∃ h ∈ handles, e = .signal h .kill) ∨ (∃ k h, e = .look k h) ∨
    ∃ line, e = .appendLine line

/-- The three phases around the wait; the last one is a call of every cancel function. -/
def Escalates (env : StopEnv) (a : StopArgs) (events : List StopEvent) : Prop :=
  ∃ terms kills, events = terms ++ .sleep :: (kills ++ a.cancels.map .cancel) ∧
    Terminates a.handles terms ∧ Kills env a.handles kills ∧
    ∀ c ∈ a.cancels, events.count (.cancel c) = 1

section Escalation
variable (lines : StopLines) (env : StopEnv) {handles : List Handle}

theorem terminatePhase_terminates (hnodup : handles.Nodup) :
    Terminates handles (terminatePhase lines env handles) where
  once h hh := by rw [count_terminatePhase, count_eq_one_of_mem hnodup hh]
  only _ he := mem_terminatePhase he

theorem killPhase_kills (hnodup : handles.Nodup) :
    Kills env handles (killPhase lines env handles) := by
  refine ⟨fun h => ?_, ?_, fun h hh hopen => ?_, fun e he => mem_killPhase he⟩
  all_goals rw [killPhase_eq]
  · have hbefore : (beforeKills lines env handles).count (.signal h .kill) = 0 :=
      count_eq_zero.mpr fun he => beforeKills_ne_kill he h rfl
    rw [count_append, hbefore, zero_add]
    split_ifs
    · exact (count_killUnfinished_le h handles _).trans (nodup_iff_count_le_one.mp hnodup h)
    · exact Nat.zero_le _
  · refine isChain_append_of_ne (fun e he => beforeKills_ne_kill he) (fun e => ?_) .sleep
    split_ifs
    · exact isChain_killUnfinished handles _ e
    · exact isChain_singleton e
  · -- a handle that never finishes ends the search, so the loop that kills is entered
    rw [if_pos (findUnfinished_of_mem hh hopen 0)]
    exact mem_append_right _ (mem_killUnfinished_of_open hh hopen _)

theorem stopSequence_escalates {a : StopArgs} (hhandles : a.handles.Nodup)
    (hcancels : a.cancels.Nodup) : Escalates env a (stopSequence lines env a) := by
  have hterms := terminatePhase_terminates lines env hhandles
  have hkills := killPhase_kills lines env hhandles
  refine ⟨_, _, rfl, hterms, hkills, fun c hc => ?_⟩
  have hterm : (terminatePhase lines env a.handles).count (.cancel c) = 0 := by
    refine count_eq_zero.mpr fun he => ?_
    rcases hterms.only _ he with ⟨h, -, heq⟩ | ⟨line, heq⟩ <;> cases heq
  have hkill : (killPhase lines env a.handles).count (.cancel c) = 0 := by
    refine count_eq_zero.mpr fun he => ?_
    rcases hkills.only _ he with ⟨h, -, heq⟩ | ⟨k, h, heq⟩ | ⟨line, heq⟩ <;> cases heq
  have hinj : Function.Injective cancel := fun c c' h => cancel.inj h
  have hsleep : sleep ≠ .cancel c := fun heq => by cases heq
  rw [stopSequence, count_append, hterm, count_cons_of_ne hsleep, count_append,
    hkill, count_map_of_injective _ _ hinj, count_eq_one_of_mem hcancels hc]

/-- The signals among the events. -/
def StopEvent.isSignal : StopEvent → Bool
  | .signal _ _ => true
  | _ => false

theorem filter_appendLine (ls : List GoString) :
    (ls.map appendLine).filter isSignal = [] := by
  refine filter_eq_nil_iff.mpr fun e he => ?_
  obtain ⟨line, -, rfl⟩ := mem_map.mp he
  simp [isSignal]

theorem filter_sendSignal (sig : StopSignal) (h : Handle) :
    (sendSignal lines env sig h).filter isSignal = [.signal h sig] := by
  rw [sendSignal]
  split
  · rfl
  · rw [filter_cons_of_pos rfl, filter_appendLine]

theorem filter_killUnfinished (k : ℕ) (hs : List Handle) :
    (killUnfinished lines env k hs).filter isSignal =
      (killUnfinished ⟨fun _ => [], []⟩ env k hs).filter isSignal := by
  induction hs generalizing k with
  | nil => rfl
  | cons h hs ih =>
    simp only [killUnfinished, filter_cons, filter_append, ih]
    split_ifs <;> simp only [filter_sendSignal]

theorem filter_stopSequence (a : StopArgs) :
    (stopSequence lines env a).filter isSignal =
      (stopTabHandles env a).filter isSignal := by
  have hbefore : ∀ ls : StopLines,
      (beforeKills ls env a.handles).filter isSignal = [] := by
    intro ls
    refine filter_eq_nil_iff.mpr fun e he => ?_
    rcases mem_beforeKills he with ⟨k, h, rfl⟩ | ⟨line, rfl⟩ <;> simp [isSignal]
  rw [stopTabHandles, stopSequence, stopSequence, killPhase_eq, killPhase_eq, terminatePhase,
    terminatePhase]
  have hsleep : ¬sleep.isSignal = true := by decide
  simp only [filter_append, filter_cons_of_neg hsleep, hbefore, filter_flatMap,
    filter_sendSignal, nil_append]
  congr 2
  split_ifs
  · rw [filter_killUnfinished]
  · rfl

end Escalation

/-- **Escalation.** Whatever finishes when, and whichever signals fail, both procedures ask every
handle once to terminate, wait, kill what they still see unfinished and cancel every context; and
they send the same signals. -/
theorem stop_escalates (env : StopEnv) {a : StopArgs} (hhandles : a.handles.Nodup)
    (hcancels : a.cancels.Nodup) :
    Escalates env a (stopTabHandles env a) ∧ Escalates env a (stopTabHandlesAsync env a) ∧
      (stopTabHandles env a).filter isSignal =
        (stopTabHandlesAsync env a).filter isSignal :=
  ⟨stopSequence_escalates _ env hhandles hcancels, stopSequence_escalates _ env hhandles hcancels,
    (filter_stopSequence _ env a).symm⟩

/-- The run has no done channel, the command has finished by the second look. -/
def commandFinishes : StopEnv where
  hasDone h := h ≠ .run 0
  closed k _ := 2 ≤ k
  signalError _ _ := none

theorem stop_escalates_commandFinishes :
    let a : StopArgs := ⟨some 0, some 0, [⟨some 1, some 1⟩, ⟨none, none⟩]⟩
    Escalates commandFinishes a (stopTabHandles commandFinishes a) ∧
      stopTabHandles commandFinishes a =
        [.signal (.run 0) .term, .signal (.command 1) .term, .sleep, .look 0 (.run 0),
          .look 1 (.run 0), .signal (.run 0) .kill, .look 2 (.command 1),
          .cancel (.run 0), .cancel (.command 1)] :=
  ⟨(stop_escalates commandFinishes (by decide) (by decide)).1, by decide⟩

end Centaurx
