import Centaurx.Core.Sections
import Centaurx.Lib.Newest
import Centaurx.Lib.Runs
import Centaurx.Output.Producers

namespace Centaurx.Command
open Go Output List

/-- What a command handle yields: the outputs, the error that ends them (`none` at the end of the
stream), and the answer of `Wait`. -/
structure ShellRun where
  outputs : List CommandOutput
  streamErr : Option GoString
  wait : Except GoString ℤ

section Stream

variable (seconds : ℕ → ℤ → GoString) (tabID : TabID)

/-- `formatDuration`, in nanoseconds. `seconds` writes them in seconds, with so many decimals. -/
def formatDuration (duration : ℤ) : GoString :=
  if duration < 1000000000 then lit (toString (duration.tdiv 1000000)) ++ lit "ms"
  else if duration < 10000000000 then seconds 2 duration ++ lit "s"
  else seconds 1 duration ++ lit "s"

def formatCommandFinishedLine (duration exitCode : ℤ) : GoString :=
  lit "--- command finished in " ++ formatDuration seconds duration ++ lit " (exit " ++
    lit (toString exitCode) ++ lit ") ---"

/-- The call that appends a line; without a tab it goes to the system buffer. -/
def record (line : GoString) : Op :=
  if tabID = [] then .appendSystemOutput [line] else .appendOutput tabID [line]

/-- The calls of `appendLine`. -/
def appendCalls (line : GoString) : List Op := (appendLine line).map (record tabID)

/-- The loop over the outputs. -/
def readOutputs (streamErr : Option GoString) : List CommandOutput → List Op
  | [] =>
    match streamErr with
    | none => []
    | some err => appendCalls tabID (lit "command error: " ++ err)
  | output :: outputs =>
    appendCalls tabID (commandOutputLine output) ++ readOutputs streamErr outputs

/-- The line about how the command ended. -/
def endLine (duration : ℤ) (run : ShellRun) : GoString :=
  match run.wait with
  | .error err => lit "command failed: " ++ err
  | .ok exitCode => formatCommandFinishedLine seconds duration exitCode

/-- The deferred call. -/
def unregisterCalls (handle : CommandHandle) : List Op :=
  if tabID = [] then [] else [.unregisterCommand tabID handle]

/-- The service calls of `streamCommandOutput`. -/
def streamCommandOutput (handle : CommandHandle) (duration : ℤ) (run : ShellRun) : List Op :=
  readOutputs tabID run.streamErr run.outputs ++ appendCalls tabID (endLine seconds duration run) ++
    unregisterCalls tabID handle

theorem not_blank_cons {b : UInt8} (hb : ∀ p ∈ spaces, p.head? ≠ some b) (s : GoString) :
    blank (b :: s) = false := by
  rw [blank, decide_eq_false_iff_not]
  exact trimSpace_ne_nil hb

theorem commandOutputLine_blank (output : CommandOutput) :
    blank (commandOutputLine output) = true ↔
      output.stream = .stdout ∧ blank output.text = true := by
  cases hstream : output.stream with
  | stdout => simp [commandOutputLine, hstream]
  | stderr =>
    have hmarker : blank (stderrMarker :: output.text) = false := not_blank_cons (by decide) _
    simp [commandOutputLine, hstream, hmarker]

theorem endLine_not_blank (duration : ℤ) (run : ShellRun) :
    blank (endLine seconds duration run) = false := by
  have hfirst : ∀ b ∈ [(0x63 : UInt8), 0x2D], ∀ p ∈ spaces, p.head? ≠ some b := by decide
  rw [endLine]
  cases run.wait with
  | error err => exact not_blank_cons (hfirst 0x63 (by simp)) _
  | ok exitCode => exact not_blank_cons (hfirst 0x2D (by simp)) _

/-- The outputs that are shown. -/
def shownLines (run : ShellRun) : List GoString :=
  (run.outputs.map commandOutputLine).filter fun line => !blank line

variable {run : ShellRun}

theorem shownLines_eq_iff :
    shownLines run = run.outputs.map commandOutputLine ↔
      ∀ output ∈ run.outputs, output.stream = .stdout → blank output.text = false := by
  rw [shownLines, filter_eq_self, forall_mem_map]
  apply forall₂_congr
  intro output _
  rw [Bool.not_eq_true', ← Bool.not_eq_true, commandOutputLine_blank, not_and, Bool.not_eq_true]

theorem readOutputs_eof (outputs : List CommandOutput) :
    readOutputs tabID none outputs =
      ((outputs.map commandOutputLine).filter fun line => !blank line).map (record tabID) := by
  induction outputs with
  | nil => rfl
  | cons output outputs ih =>
    rw [readOutputs, ih, appendCalls, appendLine, map_cons]
    cases hblank : blank (commandOutputLine output) with
    | true | false => simp [hblank]

variable (hend : run.streamErr = none)

include hend

theorem streamCommandOutput_eq (handle : CommandHandle) (duration : ℤ) :
    streamCommandOutput seconds tabID handle duration run =
      (shownLines run ++ [endLine seconds duration run]).map (record tabID) ++
        unregisterCalls tabID handle := by
  have hcalls : appendCalls tabID (endLine seconds duration run) =
      [record tabID (endLine seconds duration run)] := by
    rw [appendCalls, appendLine, endLine_not_blank]
    rfl
  rw [streamCommandOutput, hend, readOutputs_eof, hcalls, map_append, shownLines]
  rfl

end Stream

/-- One call of a session, up to the release of the lock. -/
def callStep {Text : Type} (env : Env Text) (s : UserState × Option Prefs) (op : Op) :
    UserState × Option Prefs :=
  ((serve env s.2 s.1 op).state, (serve env s.2 s.1 op).prefs)

section Calls

variable {Text : Type} (env : Env Text) {tabID : TabID} (htab : tabID ≠ [])

include htab

variable {s : UserState × Option Prefs}

/-- One append keeps the tab and adds its line. -/
theorem callStep_record {cap : ℤ} {t : Tab} (ht : s.1.tabs.lookup tabID = some t)
    (hok : t.buffer.Ok cap) (line : GoString) :
    ∃ t', (callStep env s (record tabID line)).1.tabs.lookup tabID = some t' ∧
      t'.buffer.Ok cap ∧ t'.buffer.lines = (t.buffer.lines ++ [line]).rtake cap.toNat := by
  have hpos := hok.cap_pos
  have hdrop : ((t.buffer.lines ++ [line]).length - cap).toNat =
      (t.buffer.lines ++ [line]).length - cap.toNat := by omega
  refine ⟨{ t with buffer := t.buffer.append [line] }, ?_, Buffer.append_ok hok [line], ?_⟩
  · rw [callStep, record, if_neg htab]
    simp only [serve, appendOutput, ht, UserState.lookup_putTab, if_true]
  · rw [Buffer.append_lines hok, hdrop, rtake]

theorem exec_records {cap : ℤ} {t : Tab} (ht : s.1.tabs.lookup tabID = some t)
    (hok : t.buffer.Ok cap) (lines : List GoString) :
    ∃ t', (Runs.exec (callStep env) s (lines.map (record tabID))).1.tabs.lookup tabID = some t' ∧
      t'.buffer.lines = (t.buffer.lines ++ lines).rtake cap.toNat := by
  induction lines generalizing s t with
  | nil =>
    have hlength := hok.length_le
    refine ⟨t, ht, ?_⟩
    rw [append_nil, Newest.rtake_of_length_le (by omega)]
  | cons line lines ih =>
    obtain ⟨t₁, ht₁, hok₁, hlines₁⟩ := callStep_record env htab ht hok line
    obtain ⟨t₂, ht₂, hlines₂⟩ := ih ht₁ hok₁
    refine ⟨t₂, ht₂, ?_⟩
    rw [hlines₂, hlines₁, Newest.rtake_append_rtake, append_assoc, singleton_append]

theorem exec_streamCommandOutput {seconds : ℕ → ℤ → GoString} {run : ShellRun}
    (hend : run.streamErr = none) {cap : ℤ} {t : Tab} (ht : s.1.tabs.lookup tabID = some t)
    (hok : t.buffer.Ok cap) (handle : CommandHandle) (duration : ℤ) :
    ∃ t', (Runs.exec (callStep env) s
        (streamCommandOutput seconds tabID handle duration run)).1.tabs.lookup tabID = some t' ∧
      t'.buffer.lines = (t.buffer.lines ++ (shownLines run ++
        [endLine seconds duration run])).rtake cap.toNat := by
  obtain ⟨t', ht', hlines⟩ :=
    exec_records env htab ht hok (shownLines run ++ [endLine seconds duration run])
  refine ⟨t'.unregisterCommand handle, ?_, hlines⟩
  rw [streamCommandOutput_eq seconds tabID hend, Runs.exec_append, unregisterCalls, if_neg htab]
  simp only [Runs.exec, foldl_cons, foldl_nil, callStep, serve, touchTab]
  rw [Runs.exec] at ht'
  rw [ht', UserState.lookup_putTab, if_pos rfl]

end Calls

/-- **Command output.** When the stream has ended, the calls append one line for each output and
one about the end, exactly if no output to stdout is blank; the buffer of the tab then holds these
lines, as far as it has room. -/
theorem streamCommandOutput_iff {run : ShellRun} (hend : run.streamErr = none)
    (seconds : ℕ → ℤ → GoString) (tabID : TabID) (handle : CommandHandle) (duration : ℤ) :
    (streamCommandOutput seconds tabID handle duration run =
        (run.outputs.map commandOutputLine ++ [endLine seconds duration run]).map (record tabID) ++
          unregisterCalls tabID handle ↔
      ∀ output ∈ run.outputs, output.stream = .stdout → blank output.text = false) ∧
    ∀ (Text : Type) (env : Env Text) (s : UserState × Option Prefs) (t : Tab) (cap : ℤ),
      tabID ≠ [] → s.1.tabs.lookup tabID = some t → t.buffer.Ok cap →
        t.buffer.lines.length + run.outputs.length + 1 ≤ cap →
        ∃ t', (Runs.exec (callStep env) s
            (streamCommandOutput seconds tabID handle duration run)).1.tabs.lookup tabID =
              some t' ∧
          (t'.buffer.lines = t.buffer.lines ++ (run.outputs.map commandOutputLine ++
              [endLine seconds duration run]) ↔
            ∀ output ∈ run.outputs, output.stream = .stdout → blank output.text = false) := by
  rw [← shownLines_eq_iff]
  constructor
  · rw [streamCommandOutput_eq seconds tabID hend, append_left_inj]
    constructor
    · intro h
      have hlength := congrArg length h
      simp only [length_map, length_append, length_singleton] at hlength
      -- A filter that drops nothing changes nothing.
      apply filter_sublist.eq_of_length
      rw [length_map]
      exact Nat.add_right_cancel hlength
    · intro h
      rw [h]
  · intro Text env s t cap htab ht hok hroom
    obtain ⟨t', ht', hlines⟩ := exec_streamCommandOutput env htab hend ht hok handle duration
    refine ⟨t', ht', ?_⟩
    have hle : (shownLines run).length ≤ run.outputs.length := by
      rw [← length_map commandOutputLine]
      exact length_filter_le _ _
    rw [hlines, Newest.rtake_of_length_le, append_right_inj, append_left_inj]
    simp only [length_append, length_singleton]
    omega

theorem streamCommandOutput_two_streams :
    streamCommandOutput (fun _ _ => []) (lit "1") 7 1500000
        ⟨[⟨.stdout, lit "ok"⟩, ⟨.stderr, []⟩], none, .ok 0⟩ =
      [.appendOutput (lit "1") [lit "ok"], .appendOutput (lit "1") [[stderrMarker]],
        .appendOutput (lit "1") [lit "--- command finished in 1ms (exit 0) ---"],
        .unregisterCommand (lit "1") 7] :=
  ((streamCommandOutput_iff rfl _ _ _ _).1.mpr (by decide)).trans (by decide)

/-- Of `printf 'a\n\nb\n'`, the empty line is lost. -/
theorem streamCommandOutput_empty_line :
    streamCommandOutput (fun _ _ => []) (lit "1") 7 1500000
        ⟨[⟨.stdout, lit "a"⟩, ⟨.stdout, []⟩, ⟨.stdout, lit "b"⟩], none, .ok 0⟩ =
      [.appendOutput (lit "1") [lit "a"], .appendOutput (lit "1") [lit "b"],
        .appendOutput (lit "1") [lit "--- command finished in 1ms (exit 0) ---"],
        .unregisterCommand (lit "1") 7] := by
  decide

end Centaurx.Command
