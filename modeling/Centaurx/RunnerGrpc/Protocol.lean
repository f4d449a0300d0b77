import Centaurx.RunnerGrpc.Convert

namespace Centaurx.RunnerGrpc
open Go Output List

namespace PB

inductive RunState
  | unspecified | started | finished | failed
  deriving DecidableEq

structure RunStatus where
  state : RunState
  exitCode : Int32 := 0
  message : GoString := []

inductive StreamKind
  | unspecified | stdout | stderr
  deriving DecidableEq

structure CommandOutput where
  stream : StreamKind
  text : GoString

/-- The payload of a `RunnerEvent`. -/
inductive Payload
  | exec (event : ExecEvent)
  | commandOutput (output : CommandOutput)
  | status (runStatus : RunStatus)

def ItemEvent.strings (item : ItemEvent) : List GoString :=
  [item.id, item.text, item.command, item.aggregatedOutput, item.status, item.query] ++
    item.changes.flatMap (fun change => [change.path, change.kind]) ++
    item.items.map TodoItem.text

/-- The fields of type string. -/
def Payload.strings : Payload → List GoString
  | .exec event => [event.threadID, event.message] ++ event.error.toList ++
      (event.item.map ItemEvent.strings).getD []
  | .commandOutput output => [output.text]
  | .status runStatus => [runStatus.message]

/-- Which messages protobuf marshals. A string of a proto3 message has to be UTF-8. -/
structure Marshaller where
  marshals : Payload → Bool
  utf8 : ∀ payload, marshals payload = payload.strings.all validUTF8

end PB

open PB (Payload RunStatus RunState Marshaller)

variable (m : Marshaller)

/-- What a handler has sent, and the error that it returns. -/
structure Served where
  sent : List Payload
  err : Option GoString

/-- `stream.Send`, and what the handler does next if it succeeds. -/
def send (payload : Payload) (next : Served) : Served :=
  if m.marshals payload then { next with sent := payload :: next.sent }
  else ⟨[], some (lit "grpc: error while marshaling: string field contains invalid UTF-8")⟩

/-- What `cmd.Wait` returns. -/
inductive WaitError
  | none
  | exit (code : ℤ)
  | other (message : GoString)

/-- The process has exited by itself. -/
def exited (code : ℕ) : WaitError := if code = 0 then .none else .exit code

/-- The last status of `RunCommand`. -/
def commandStatus : WaitError → RunStatus
  | .none => { state := .finished }
  | .exit code => { state := .failed, exitCode := .ofInt code }
  | .other _ => { state := .failed, exitCode := 1 }

/-- `RunCommand` after the start of the process: the outputs are those that come out of the
channel, in their order. -/
def runCommand (outputs : List PB.CommandOutput) (wait : WaitError) : Served :=
  send m (.status { state := .started }) <|
    (outputs.map Payload.commandOutput).foldr (send m) <|
      send m (.status (commandStatus wait)) ⟨[], none⟩

/-- `Wait` of the handle of codex. -/
def codexWait : WaitError → Except GoString ℤ
  | .none => .ok 0
  | .exit code => .ok code
  | .other message => .error message

/-- The last status of an exec, by `finishRun`. -/
def execStatus (wait : WaitError) : RunStatus :=
  match codexWait wait with
  | .ok code => { state := .finished, exitCode := .ofInt code }
  | .error message => { state := .failed, message := message }

/-- `Exec` and `ExecResume` after the start of codex: the events of its two streams, and the
error of a read that has ended them early. -/
def exec (events : List ExecEvent) (readErr : Option GoString) (wait : WaitError) : Served :=
  send m (.status { state := .started }) <|
    (events.map fun event => Payload.exec (toPBExecEvent event)).foldr (send m) <|
      match readErr with
      | some err => ⟨[], some (lit "stream error: " ++ err)⟩
      | none => send m (.status (execStatus wait)) ⟨[], none⟩

inductive StreamErr
  | eof
  | failed (err : GoString)

/-- What a handle holds when it is done, with what it has passed to its caller. -/
structure Handle (α : Type) where
  passed : List α := []
  result : ℤ := 0
  runErr : Option GoString := none
  streamErr : Option StreamErr := none

/-- The loop of `consume`. Both handles have it; they differ in the messages that they pass on
and in the text of a failure without a message. -/
def consume {α : Type} (pass : Payload → Option α) (failure : GoString) (err : Option GoString) :
    List Payload → Handle α
  | [] => { streamErr := some (match err with | none => .eof | some err => .failed err) }
  | .status status :: rest =>
    if status.state = .started then consume pass failure err rest
    else
      -- any other status is the end, and the stream is not read to its `EOF`
      { result := status.exitCode.toInt
        runErr :=
          if status.state = .failed then
            some (if status.message ≠ [] then status.message else failure)
          else none }
  | payload :: rest =>
    let handle := consume pass failure err rest
    { handle with passed := (pass payload).toList ++ handle.passed }

/-- The handle at the end of what a handler serves. Its caller takes all that it passes on. -/
def consumed {α : Type} (pass : Payload → Option α) (failure : GoString) (served : Served) :
    Handle α :=
  consume pass failure served.err served.sent

def fromPBCommandOutput (output : PB.CommandOutput) : CommandOutput :=
  ⟨if output.stream = .stderr then .stderr else .stdout, output.text⟩

def passCommandOutput : Payload → Option CommandOutput
  | .commandOutput output => some (fromPBCommandOutput output)
  | _ => none

def passExec : Payload → Option ExecEvent
  | .exec event => some (fromPBExecEvent event)
  | _ => none

def commandHandle (served : Served) : Handle CommandOutput :=
  consumed passCommandOutput (lit "command failed") served

def runHandle (served : Served) : Handle ExecEvent :=
  consumed passExec (lit "runner failed") served

/-- `Wait`, of both handles: the exit code and the error. -/
def Handle.wait {α : Type} (handle : Handle α) : ℤ × Option GoString :=
  match handle.runErr, handle.streamErr with
  | some err, _ => (handle.result, some err)
  | none, some (.failed err) => (handle.result, some err)
  | none, _ => (handle.result, none)

section Sending
variable {m} {α : Type} {pass : Payload → Option α} {failure : GoString} {payload : Payload}

theorem wait_consume_cons (hp : ∀ status, payload ≠ .status status) (err : Option GoString)
    (rest : List Payload) :
    (consume pass failure err (payload :: rest)).wait = (consume pass failure err rest).wait := by
  cases payload with
  | status status => exact absurd rfl (hp status)
  | exec event | commandOutput output => rfl

theorem wait_consumed_send_of_not_marshals (h : m.marshals payload = false) (next : Served) :
    (consumed pass failure (send m payload next)).wait.2 ≠ none := by
  rw [consumed, send, if_neg (by simp [h])]
  simp [consume, Handle.wait]

theorem wait_consumed_send (hp : ∀ status, payload ≠ .status status) (h : m.marshals payload = true)
    (next : Served) :
    (consumed pass failure (send m payload next)).wait = (consumed pass failure next).wait := by
  rw [consumed, send, if_pos h]
  exact wait_consume_cons hp _ _

theorem wait_consumed_foldr {payloads : List Payload}
    (hp : ∀ payload ∈ payloads, ∀ status, payload ≠ .status status)
    (h : ∀ payload ∈ payloads, m.marshals payload = true) (next : Served) :
    (consumed pass failure (payloads.foldr (send m) next)).wait =
      (consumed pass failure next).wait := by
  induction payloads with
  | nil => rfl
  | cons payload payloads ih =>
    rw [foldr_cons, wait_consumed_send (hp payload (by simp)) (h payload (by simp)),
      ih (fun p hmem => hp p (by simp [hmem])) (fun p hmem => h p (by simp [hmem]))]

theorem wait_consumed_foldr_ne_none {payloads : List Payload}
    (hp : ∀ payload ∈ payloads, ∀ status, payload ≠ .status status)
    (h : ∃ payload ∈ payloads, m.marshals payload = false) (next : Served) :
    (consumed pass failure (payloads.foldr (send m) next)).wait.2 ≠ none := by
  -- by induction up to the first message that is not UTF-8
  induction payloads with
  | nil => simp at h
  | cons payload payloads ih =>
    rw [foldr_cons]
    cases hm : m.marshals payload with
    | false => exact wait_consumed_send_of_not_marshals hm _
    | true =>
      rw [wait_consumed_send (hp payload (by simp)) hm]
      refine ih (fun p hmem => hp p (by simp [hmem])) ?_
      obtain ⟨p, hmem, hfalse⟩ := h
      rcases mem_cons.mp hmem with rfl | hmem
      · rw [hm] at hfalse
        cases hfalse
      · exact ⟨p, hmem, hfalse⟩

theorem marshals_of_message {status : RunStatus} (h : status.message = []) :
    m.marshals (.status status) = true := by
  simp only [m.utf8, Payload.strings, h]
  decide

theorem consumed_started (next : Served) :
    consumed pass failure (send m (.status { state := .started }) next) =
      consumed pass failure next := by
  rw [consumed, send, if_pos (marshals_of_message rfl)]
  rfl

theorem wait_consumed_status {status : RunStatus} (hs : status.state ≠ .started)
    (h : m.marshals (.status status) = true) :
    (consumed pass failure (send m (.status status) ⟨[], none⟩)).wait =
      (status.exitCode.toInt, if status.state = .failed then
        some (if status.message ≠ [] then status.message else failure) else none) := by
  rw [consumed, send, if_pos h]
  simp only [consume, if_neg hs, Handle.wait]
  split_ifs <;> rfl

theorem toInt_exitCode {c : ℕ} (hc : c ≤ 255) : (Int32.ofInt c).toInt = c :=
  toInt_ofInt_eq_iff.mpr ⟨by omega, by omega⟩

theorem wait_runCommand {outputs : List PB.CommandOutput}
    (hvalid : ∀ output ∈ outputs, validUTF8 output.text = true) {c : ℕ} (hc : c ≤ 255) :
    (commandHandle (runCommand m outputs (exited c))).wait =
      ((c : ℤ), if c = 0 then none else some (lit "command failed")) := by
  have hmarshals : ∀ payload ∈ outputs.map Payload.commandOutput, m.marshals payload = true := by
    simpa [m.utf8, Payload.strings] using hvalid
  rw [commandHandle, runCommand, consumed_started, wait_consumed_foldr (by simp) hmarshals]
  by_cases h0 : c = 0
  · subst h0
    exact wait_consumed_status (by decide) (marshals_of_message rfl)
  · rw [exited, if_neg h0, if_neg h0,
      wait_consumed_status (by simp [commandStatus]) (marshals_of_message rfl)]
    simp [commandStatus, toInt_exitCode hc]

theorem wait_exec {events : List ExecEvent}
    (hvalid : ∀ event ∈ events, m.marshals (.exec (toPBExecEvent event)) = true) {c : ℕ}
    (hc : c ≤ 255) : (runHandle (exec m events none (exited c))).wait = ((c : ℤ), none) := by
  have hmarshals : ∀ payload ∈ events.map fun event => Payload.exec (toPBExecEvent event),
      m.marshals payload = true := by simpa using hvalid
  have hstatus : execStatus (exited c) = { state := .finished, exitCode := .ofInt c } := by
    by_cases h0 : c = 0
    · subst h0
      rfl
    · rw [exited, if_neg h0]
      rfl
  rw [runHandle, exec, consumed_started, wait_consumed_foldr (by simp) hmarshals, hstatus,
    wait_consumed_status (by simp) (marshals_of_message rfl)]
  simp [toInt_exitCode hc]

end Sending

/-- **Exit codes over the protocol.** `Wait` on a command handle returns the exit code without
an error exactly if the code is zero and the output is UTF-8. On the handle of a codex run it
does so for every code. -/
theorem exit_code_survives_iff (outputs : List PB.CommandOutput) (c : ℕ) (hc : c ≤ 255) :
    ((commandHandle (runCommand m outputs (exited c))).wait = ((c : ℤ), none) ↔
      c = 0 ∧ ∀ output ∈ outputs, validUTF8 output.text = true) ∧
    ∀ events : List ExecEvent,
      (∀ event ∈ events, m.marshals (.exec (toPBExecEvent event)) = true) →
        (runHandle (exec m events none (exited c))).wait = ((c : ℤ), none) := by
  refine ⟨⟨fun h => ?_, fun h => ?_⟩, fun events hvalid => wait_exec hvalid hc⟩
  · -- an output that is not UTF-8 breaks the stream before the status of the end
    have hvalid : ∀ output ∈ outputs, validUTF8 output.text = true := by
      by_contra hnot
      push Not at hnot
      obtain ⟨output, hmem, hfalse⟩ := hnot
      have hm : m.marshals (.commandOutput output) = false := by
        simpa [m.utf8, Payload.strings] using hfalse
      have hmem' : Payload.commandOutput output ∈ outputs.map Payload.commandOutput :=
        mem_map_of_mem hmem
      rw [commandHandle, runCommand, consumed_started] at h
      exact wait_consumed_foldr_ne_none (by simp) ⟨_, hmem', hm⟩ _ (congrArg Prod.snd h)
    rw [wait_runCommand hvalid hc] at h
    exact ⟨by simpa using h, hvalid⟩
  · rw [wait_runCommand h.2 hc, if_pos h.1]

/-- The rule for strings, as a function. -/
def strict : Marshaller := ⟨fun payload => payload.strings.all validUTF8, fun _ => rfl⟩

theorem exit_code_survives_iff_zero :
    ((commandHandle (runCommand strict [⟨.stdout, lit "ok"⟩] (exited 0))).wait = (0, none) ↔
      0 = 0 ∧ ∀ output ∈ [(⟨.stdout, lit "ok"⟩ : PB.CommandOutput)],
        validUTF8 output.text = true) ∧
    ∀ events : List ExecEvent,
      (∀ event ∈ events, strict.marshals (.exec (toPBExecEvent event)) = true) →
        (runHandle (exec strict events none (exited 0))).wait = (0, none) :=
  exit_code_survives_iff _ [⟨.stdout, lit "ok"⟩] 0 (by decide)

/-- `false` writes nothing and exits with 1. Codex doing the same is no error. -/
theorem exit_code_of_false_fails :
    (∀ m, (commandHandle (runCommand m [] (exited 1))).wait = (1, some (lit "command failed"))) ∧
      ∀ m, (runHandle (exec m [] none (exited 1))).wait = (1, none) :=
  ⟨fun _ => wait_runCommand (by simp) (by decide), fun _ => wait_exec (by simp) (by decide)⟩

end Centaurx.RunnerGrpc
