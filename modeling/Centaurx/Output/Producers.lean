import Centaurx.Output.Lines
import Mathlib.Data.List.Forall2

namespace Centaurx.Output
open Go List

inductive CommandStreamKind
  | stdout | stderr
  deriving DecidableEq

structure CommandOutput where
  stream : CommandStreamKind
  text : GoString
  deriving DecidableEq

/-- The line that `streamCommandOutput` makes of an output. -/
def commandOutputLine (output : CommandOutput) : GoString :=
  if output.stream = .stderr then stderrMarker :: output.text else output.text

/-- `appendLine` of the command handler: what goes into the buffer. -/
def appendLine (line : GoString) : List GoString := if blank line then [] else [line]

inductive EventType
  | threadStarted | turnStarted | turnCompleted | turnFailed
  | itemStarted | itemUpdated | itemCompleted | error
  | other (name : GoString)
  deriving DecidableEq

/-- Item types are open: codex may send any text. -/
abbrev ItemType := GoString

def itemAgentMessage : ItemType := lit "agent_message"
def itemReasoning : ItemType := lit "reasoning"
def itemCommandExecution : ItemType := lit "command_execution"
def itemFileChange : ItemType := lit "file_change"
def itemWebSearch : ItemType := lit "web_search"
def itemTodoList : ItemType := lit "todo_list"

structure FileChange where
  path : GoString
  kind : GoString

structure TodoItem where
  text : GoString
  completed : Bool

structure ItemEvent where
  type : ItemType := []
  text : GoString := []
  command : GoString := []
  aggregatedOutput : GoString := []
  exitCode : Option ℤ := none
  changes : List FileChange := []
  query : GoString := []
  items : List TodoItem := []

structure ExecEvent where
  type : EventType
  message : GoString := []
  /-- The message of an error that comes with the event. -/
  error : Option GoString := none
  item : Option ItemEvent := none

def splitLines (text : GoString) : List GoString := if text = [] then [] else text.splitOn 0x0A

def markLines (marker : UInt8) (lines : List GoString) : List GoString := lines.map (marker :: ·)

def trimNewlines (s : GoString) : GoString := (s.reverse.dropWhile (· = 0x0A)).reverse

def formatCommand (item : ItemEvent) (eventType : EventType) : List GoString :=
  let commandLine := if item.command ≠ [] then lit "$ " ++ item.command else []
  let lines := if item.command ≠ [] then [commandLine] else []
  let lines :=
    if item.aggregatedOutput ≠ [] then
      let outputLines := (trimNewlines item.aggregatedOutput).splitOn 0x0A
      -- The command may be the first line of its own output.
      lines ++ if commandLine ≠ [] ∧ outputLines.head? = some commandLine then outputLines.tail
        else outputLines
    else lines
  match eventType, item.exitCode with
  | .itemCompleted, some code => lines ++ [lit "exit code: " ++ lit (toString code)]
  | _, _ => lines

def formatFileChange (item : ItemEvent) : List GoString :=
  if item.changes = [] then [lit "file change"]
  else lit "file changes:" :: item.changes.map fun change =>
    let label := if trimSpace change.kind = [] then lit "update" else trimSpace change.kind
    lit "- " ++ label ++ lit " " ++ change.path

def formatTodo (item : ItemEvent) : List GoString :=
  if item.items = [] then [lit "todo list updated"]
  else lit "todo list:" :: item.items.map fun entry =>
    (if entry.completed then lit "[x]" else lit "[ ]") ++ lit " " ++ entry.text

def formatItem (eventType : EventType) (item : ItemEvent) : List GoString :=
  if item.type = itemAgentMessage then markLines agentMarker (splitLines item.text)
  else if item.type = itemReasoning then
    if item.text = [] then [] else markLines reasoningMarker (splitLines item.text)
  else if item.type = itemCommandExecution then
    markLines commandMarker (formatCommand item eventType)
  else if item.type = itemFileChange then formatFileChange item
  else if item.type = itemWebSearch then
    if item.query = [] then [lit "web search executed"] else [lit "web search: " ++ item.query]
  else if item.type = itemTodoList then formatTodo item
  else
    let label := if item.type = [] then lit "item" else item.type
    [label ++ lit " event"]

def formatEvent (event : ExecEvent) : List GoString :=
  match event.type with
  | .turnFailed =>
    match event.error with
    | some message =>
      if message ≠ [] then [lit "turn failed: " ++ message] else [lit "turn failed"]
    | none => [lit "turn failed"]
  | .error => if event.message ≠ [] then [lit "error: " ++ event.message] else [lit "error: unknown"]
  | .itemStarted | .itemUpdated | .itemCompleted =>
    match event.item with
    | none => []
    | some item => formatItem event.type item
  | .threadStarted | .turnStarted | .turnCompleted | .other _ => []

def maxCommandLinesTerse : ℕ := 5

def trimCommandLines (fullCommandOutput : Bool) (lines : List GoString) : List GoString :=
  if fullCommandOutput then lines else lines.take maxCommandLinesTerse

/-- The lines that the service appends for an event. -/
def eventLines (fullCommandOutput : Bool) (event : ExecEvent) : List GoString :=
  let lines := formatEvent event
  match event.item with
  | some item =>
    if item.type = itemCommandExecution then trimCommandLines fullCommandOutput lines else lines
  | none => lines

/-- The producer and the text of an output. -/
def CommandOutput.written (output : CommandOutput) : Written :=
  ⟨if output.stream = .stderr then .stderr else .plain, output.text⟩

/-- The producers and texts of an item: messages, reasoning and commands of codex have a
marker, the others are plain. -/
def itemWritten (eventType : EventType) (item : ItemEvent) : List Written :=
  if item.type = itemAgentMessage then (splitLines item.text).map (⟨.agent, ·⟩)
  else if item.type = itemReasoning then (splitLines item.text).map (⟨.reasoning, ·⟩)
  else if item.type = itemCommandExecution then (formatCommand item eventType).map (⟨.command, ·⟩)
  else (formatItem eventType item).map (⟨.plain, ·⟩)

def EventType.isItem : EventType → Bool
  | .itemStarted | .itemUpdated | .itemCompleted => true
  | _ => false

/-- The item that the lines of an event are made of. -/
def ExecEvent.shown (event : ExecEvent) : Option ItemEvent :=
  if event.type.isItem then event.item else none

/-- The producers and texts of the lines of an event. -/
def ExecEvent.written (fullCommandOutput : Bool) (event : ExecEvent) : List Written :=
  match event.shown with
  | some item =>
    let ws := itemWritten event.type item
    if item.type = itemCommandExecution ∧ fullCommandOutput = false then
      ws.take maxCommandLinesTerse
    else ws
  | none => (formatEvent event).map (⟨.plain, ·⟩)

theorem markLines_eq {producer : Producer} {marker : UInt8} (h : producer.marker = some marker)
    (lines : List GoString) :
    markLines marker lines = (lines.map (Written.mk producer ·)).map Written.line := by
  simp [markLines, Written.line, h]

theorem map_line_plain (lines : List GoString) :
    (lines.map (Written.mk .plain ·)).map Written.line = lines := by
  rw [map_map]
  exact map_id lines

theorem formatItem_eq (eventType : EventType) (item : ItemEvent) :
    formatItem eventType item = (itemWritten eventType item).map Written.line := by
  rw [itemWritten]
  split_ifs with h1 h2 h3
  · rw [formatItem, if_pos h1]
    exact markLines_eq rfl _
  · rw [formatItem, if_neg h1, if_pos h2]
    split_ifs with htext
    · simp [splitLines, htext]
    · exact markLines_eq rfl _
  · rw [formatItem, if_neg h1, if_neg h2, if_pos h3]
    exact markLines_eq rfl _
  · exact (map_line_plain _).symm

variable {item : ItemEvent} {event : ExecEvent}

theorem formatEvent_shown (h : event.shown = some item) :
    formatEvent event = formatItem event.type item ∧ event.item = some item := by
  rw [ExecEvent.shown] at h
  split_ifs at h with ht
  rw [formatEvent]
  cases htype : event.type <;> simp_all [EventType.isItem]

theorem startsWithMarker_append {s : GoString} (hs : s ≠ []) (t : GoString) :
    startsWithMarker (s ++ t) = startsWithMarker s := by
  rw [startsWithMarker, List.head?_append_of_ne_nil _ hs, startsWithMarker]

theorem not_marked_append {words : GoString} (h : words ≠ [] ∧ startsWithMarker words = false)
    (t : GoString) : startsWithMarker (words ++ t) = false := by
  rw [startsWithMarker_append h.1, h.2]

theorem formatEvent_hidden (h : event.shown = none) :
    (formatEvent event).length ≤ 1 ∧
      ∀ text ∈ formatEvent event, startsWithMarker text = false := by
  have hfailed : ∀ t, startsWithMarker (lit "turn failed: " ++ t) = false :=
    not_marked_append (by decide)
  have herror : ∀ t, startsWithMarker (lit "error: " ++ t) = false :=
    not_marked_append (by decide)
  have hwords : startsWithMarker (lit "turn failed") = false ∧
      startsWithMarker (lit "error: unknown") = false := by decide
  rw [ExecEvent.shown] at h
  rw [formatEvent]
  cases htype : event.type with
  | turnFailed =>
    dsimp only
    split
    · split <;> simp [hfailed, hwords]
    · simp [hwords]
  | error =>
    dsimp only
    split <;> simp [herror, hwords]
  | itemStarted | itemUpdated | itemCompleted =>
    rw [htype, EventType.isItem, if_pos rfl] at h
    simp [h]
  | threadStarted | turnStarted | turnCompleted | other => simp

/-- The lines of an event are its texts behind their markers. -/
theorem eventLines_eq (fullCommandOutput : Bool) (event : ExecEvent) :
    eventLines fullCommandOutput event =
      (event.written fullCommandOutput).map Written.line := by
  cases hs : event.shown with
  | some item =>
    obtain ⟨hlines, hitem⟩ := formatEvent_shown hs
    rw [eventLines, ExecEvent.written, hs, hitem, hlines, formatItem_eq]
    cases fullCommandOutput with
    | true => simp [trimCommandLines]
    | false =>
      simp only [trimCommandLines, Bool.false_eq_true, if_false, and_true]
      split_ifs
      · rw [map_take]
      · rfl
  | none =>
    have htake : (formatEvent event).take maxCommandLinesTerse = formatEvent event :=
      take_of_length_le ((formatEvent_hidden hs).1.trans (by decide))
    rw [ExecEvent.written, hs, map_line_plain, eventLines]
    cases event.item with
    | none => rfl
    | some item => simp [trimCommandLines, htake]

/-- The kinds that the program keeps for its own lines. -/
def programKinds : List LineKind :=
  [.lineHelp, .lineAboutVersion, .lineAboutCopyright, .lineAboutLink, .lineWorked]

/-- Both readers give the line the kind of its producer and exactly its text. -/
structure ReadsAs (line : GoString) (w : Written) : Prop where
  terminal : classifyLine line = w.info
  browser : parseLine (units line) = ⟨units w.text, w.producer.kind w.text⟩
  not_program : (classifyLine line).kind ∉ programKinds

/-- The producers of texts that come from outside. -/
def outside : List Producer := [.plain, .stderr, .agent, .reasoning, .command]

theorem textKind_not_program (text : GoString) :
    textKind errorTexts finishedTexts text ∉ programKinds := by
  rw [textKind]
  split_ifs <;> decide

theorem kind_not_program {p : Producer} (hp : p ∈ outside) (text : GoString) :
    p.kind text ∉ programKinds := by
  have htext := textKind_not_program text
  simp only [outside, mem_cons, not_mem_nil, or_false] at hp
  rcases hp with rfl | rfl | rfl | rfl | rfl
  · exact htext
  · rw [Producer.kind]
    split
    · decide
    · exact htext
  all_goals
    rw [Producer.kind]
    decide

theorem readsAs_iff {w : Written} (hw : w.producer ∈ outside) :
    ReadsAs w.line w ↔ (w.producer = .plain → startsWithMarker w.text = false) := by
  rw [← classifyLine_line]
  refine ⟨ReadsAs.terminal, fun h => ⟨h, ?_, ?_⟩⟩
  · rw [parseLine_units, h]
    rfl
  · rw [h]
    exact kind_not_program hw _

theorem forall₂_map_line {R : GoString → Written → Prop} {ws : List Written} :
    List.Forall₂ R (ws.map Written.line) ws ↔ ∀ w ∈ ws, R w.line w := by
  rw [forall₂_map_left_iff, forall₂_same]

theorem formatItem_marked {eventType : EventType} (h1 : item.type ≠ itemAgentMessage)
    (h2 : item.type ≠ itemReasoning) (h3 : item.type ≠ itemCommandExecution) :
    (∀ text ∈ formatItem eventType item, startsWithMarker text = false) ↔
      startsWithMarker item.type = false := by
  rw [formatItem, if_neg h1, if_neg h2, if_neg h3]
  split_ifs with h4 h5 hquery h6 h7
  · refine iff_of_true ?_ (by rw [h4]; decide)
    rw [formatFileChange]
    split_ifs
    · decide
    · rw [forall_mem_cons, forall_mem_map]
      refine ⟨by decide, fun change _ => ?_⟩
      dsimp only
      rw [append_assoc, append_assoc]
      exact not_marked_append (by decide) _
  · exact iff_of_true (by decide) (by rw [h5]; decide)
  · refine iff_of_true ?_ (by rw [h5]; decide)
    rw [forall_mem_singleton]
    exact not_marked_append (by decide) _
  · refine iff_of_true ?_ (by rw [h6]; decide)
    rw [formatTodo]
    split_ifs
    · decide
    · rw [forall_mem_cons, forall_mem_map]
      refine ⟨by decide, fun entry _ => ?_⟩
      rw [append_assoc]
      split_ifs
      · exact not_marked_append (by decide) _
      · exact not_marked_append (by decide) _
  · rw [forall_mem_singleton, h7]
    exact iff_of_true (by decide) (by decide)
  · rw [forall_mem_singleton, startsWithMarker_append h7]

theorem itemWritten_marked {eventType : EventType}
    (h : item.type ∈ [itemAgentMessage, itemReasoning, itemCommandExecution]) :
    ∀ w ∈ itemWritten eventType item, w.producer ∈ outside ∧ w.producer ≠ .plain := by
  simp only [mem_cons, not_mem_nil, or_false] at h
  rw [itemWritten]
  split_ifs with h1 h2 h3
  · exact forall_mem_map.mpr fun _ _ => by simp [outside]
  · exact forall_mem_map.mpr fun _ _ => by simp [outside]
  · exact forall_mem_map.mpr fun _ _ => by simp [outside]
  · exact absurd h (by simp [h1, h2, h3])

theorem mem_itemWritten {full : Bool} {w : Written} (hs : event.shown = some item)
    (hw : w ∈ event.written full) : w ∈ itemWritten event.type item := by
  simp only [ExecEvent.written, hs] at hw
  split_ifs at hw
  · exact mem_of_mem_take hw
  · exact hw

/-- The lines of an event are read as what they are exactly if the type of its item does not
begin with a marker. -/
theorem event_readsAs_iff (fullCommandOutput : Bool) (event : ExecEvent) :
    List.Forall₂ ReadsAs (eventLines fullCommandOutput event) (event.written fullCommandOutput) ↔
      ∀ item ∈ event.shown, startsWithMarker item.type = false := by
  rw [eventLines_eq, forall₂_map_line]
  cases hs : event.shown with
  | none =>
    refine iff_of_true ?_ (by simp)
    rw [ExecEvent.written, hs, forall_mem_map]
    intro text ht
    exact (readsAs_iff (by simp [outside])).mpr fun _ => (formatEvent_hidden hs).2 text ht
  | some item =>
    simp only [Option.mem_some_iff, forall_eq']
    by_cases hmarked : item.type ∈ [itemAgentMessage, itemReasoning, itemCommandExecution]
    · -- Behind a marker, nothing can go wrong.
      refine iff_of_true ?_ (by revert hmarked; generalize item.type = type; revert type; decide)
      intro w hw
      obtain ⟨houtside, hplain⟩ := itemWritten_marked hmarked w (mem_itemWritten hs hw)
      exact (readsAs_iff houtside).mpr fun h => absurd h hplain
    · simp only [mem_cons, not_mem_nil, or_false, not_or] at hmarked
      obtain ⟨h1, h2, h3⟩ := hmarked
      rw [← @formatItem_marked _ event.type h1 h2 h3]
      simp only [ExecEvent.written, hs, h3, false_and, if_false, itemWritten, if_neg h1, if_neg h2,
        forall_mem_map]
      refine forall₂_congr fun text _ => ?_
      rw [readsAs_iff (by simp [outside])]
      exact forall_prop_of_true rfl

theorem not_marked_of_blank {text : GoString} (h : blank text = true) :
    startsWithMarker text = false := by
  cases text with
  | nil => rfl
  | cons b t =>
    refine Bool.eq_false_iff.mpr fun hb => ?_
    have hspaces : ∀ p ∈ spaces, p.head? ≠ some b := by
      have hb' : isMarker b = true := hb
      rw [isMarker_iff] at hb'
      revert hb'
      generalize b = c
      revert c
      decide
    exact trimSpace_ne_nil hspaces (by simpa [blank] using h)

/-- A line of a shell command or of codex is read by the terminal and the browser as the kind
of its producer, with exactly its text, except if an output on stdout or the type of an item
begins with a marker. -/
theorem line_kinds (output : CommandOutput) (fullCommandOutput : Bool) (event : ExecEvent) :
    ((∀ line ∈ appendLine (commandOutputLine output), ReadsAs line output.written) ↔
      (output.stream = .stdout → startsWithMarker output.text = false)) ∧
    (List.Forall₂ ReadsAs (eventLines fullCommandOutput event)
        (event.written fullCommandOutput) ↔
      ∀ item ∈ event.shown, startsWithMarker item.type = false) := by
  refine ⟨?_, event_readsAs_iff fullCommandOutput event⟩
  obtain ⟨stream, text⟩ := output
  cases stream with
  | stderr =>
    refine iff_of_true ?_ (by simp)
    intro line hline
    rw [appendLine] at hline
    split_ifs at hline
    · simp at hline
    · rw [mem_singleton.mp hline]
      exact (readsAs_iff (w := ⟨.stderr, text⟩) (by simp [outside])).mpr (by simp)
  | stdout =>
    have hline : commandOutputLine ⟨.stdout, text⟩ = text := rfl
    rw [hline, appendLine]
    split_ifs with hb
    · exact iff_of_true (by simp) fun _ => not_marked_of_blank hb
    · rw [forall_mem_singleton]
      exact (readsAs_iff (w := ⟨.plain, text⟩) (by simp [outside])).trans (by simp)

/-- A line of a shell command on stdout passes for a link of the program, and an item of an
event for its help. -/
theorem forged_link :
    appendLine (commandOutputLine ⟨.stdout, aboutLinkMarker :: lit "https://evil.example"⟩) =
        [aboutLinkMarker :: lit "https://evil.example"] ∧
      classifyLine (aboutLinkMarker :: lit "https://evil.example") =
        ⟨lit "https://evil.example", .lineAboutLink⟩ ∧
      parseLine (units (aboutLinkMarker :: lit "https://evil.example")) =
        ⟨units (lit "https://evil.example"), .lineAboutLink⟩ ∧
      (eventLines true
        { type := .itemCompleted, item := some { type := helpMarker :: lit "x" } }).map
        classifyLine = [⟨lit "x event", .lineHelp⟩] := by
  decide

end Centaurx.Output
