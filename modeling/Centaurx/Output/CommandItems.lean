import Centaurx.Core.Sections
import Centaurx.RunnerGrpc.Convert
import Mathlib.Algebra.Order.BigOperators.Group.List

namespace Centaurx.ConsumeEvents
open Go RunnerGrpc List
open Output hiding ItemEvent ExecEvent

/-- `formatWorkedDuration`, of nanoseconds. -/
def formatWorkedDuration (duration : ℤ) : GoString :=
  if duration < 10 ^ 9 then lit (toString (max duration 0 / 10 ^ 6)) ++ lit "ms"
  else if duration < 60 * 10 ^ 9 then
    -- rounded to the nearest second
    lit (toString (max ((duration + 5 * 10 ^ 8) / 10 ^ 9) 1)) ++ lit "s"
  else if duration < 3600 * 10 ^ 9 then lit (toString (max (duration / (60 * 10 ^ 9)) 1)) ++ lit "m"
  else lit (toString (max (duration / (3600 * 10 ^ 9)) 1)) ++ lit "h"

def formatWorkedForLine (duration : ℤ) : GoString :=
  workedForMarker :: lit "Worked for " ++ formatWorkedDuration duration

/-- An event, and how long the run had taken when it came. -/
structure Received where
  elapsed : ℤ
  event : ExecEvent

/-- The variables of the loop. -/
structure Consumer where
  workedInserted : Bool := false
  seenCommandIDs : List GoString := []
  lastCommand : GoString := []
  lastCommandEvent : Bool := false

/-- The event after `event.Item.Command = ""`. -/
def hideCommand (event : ExecEvent) : ExecEvent :=
  { event with item := event.item.map fun item => { item with command := [] } }

/-- What the loop remembers of a command, and the event that goes to the renderer. -/
def Consumer.remember (c : Consumer) (event : ExecEvent) : Consumer × ExecEvent :=
  match event.item with
  | some item =>
    if item.type = itemCommandExecution ∧ item.command ≠ [] then
      if item.id ≠ [] then
        if item.id ∈ c.seenCommandIDs then (c, hideCommand event)
        else ({ c with seenCommandIDs := item.id :: c.seenCommandIDs }, event)
      else if c.lastCommandEvent ∧ item.command = c.lastCommand ∧ event.type ≠ .itemStarted then
        (c, hideCommand event)
      else ({ c with lastCommand := item.command, lastCommandEvent := true }, event)
    else ({ c with lastCommand := [], lastCommandEvent := false }, event)
  | none => ({ c with lastCommand := [], lastCommandEvent := false }, event)

/-- The part of an event that the renderer reads. -/
def rendered (event : ExecEvent) : Output.ExecEvent :=
  ⟨event.type, event.message, event.error, event.item.map ItemEvent.toItemEvent⟩

/-- One round of the loop: its critical sections in their order. -/
def Consumer.round (tab : TabID) (full : Bool) (c : Consumer) (r : Received) : Consumer × List Op :=
  let worked := !c.workedInserted && r.event.type = .itemCompleted &&
    r.event.item.any (·.type = itemAgentMessage)
  let remembered := { c with workedInserted := c.workedInserted || worked }.remember r.event
  let lines := eventLines full (rendered remembered.2)
  let insertWorked : List Op :=
    if worked then [.appendLines tab [formatWorkedForLine r.elapsed]] else []
  let capture : List Op :=
    if r.event.threadID ≠ [] then [.setSessionID tab r.event.threadID] else []
  let recordUsage : List Op :=
    match r.event.type, r.event.usage with
    | .turnCompleted, some usage => [.consumeUsage tab usage]
    | _, _ => []
  let output : List Op := if lines ≠ [] then [.appendLines tab lines] else []
  (remembered.1, insertWorked ++ capture ++ recordUsage ++ output)

/-- The critical sections of each round, in a run whose session has the full output or not. -/
def consumeEvents (tab : TabID) (full : Bool) : Consumer → List Received → List (List Op)
  | _, [] => []
  | c, r :: stream =>
    (c.round tab full r).2 :: consumeEvents tab full (c.round tab full r).1 stream

/-- The item of an event, if it is a command with this id. -/
def commandItem (id : GoString) (event : ExecEvent) : Option ItemEvent :=
  event.item.filter fun item => item.type = itemCommandExecution && item.id = id

def appendedLines : Op → List GoString
  | .appendLines _ lines => lines
  | _ => []

/-- The lines that the events `item.started`, `item.updated` and `item.completed` of a command
append to the buffer of the tab. -/
def contributed (tab : TabID) (full : Bool) (id : GoString) (c : Consumer)
    (stream : List Received) : List GoString :=
  ((stream.zip (consumeEvents tab full c stream)).filter fun round =>
    round.1.event.type.isItem && (commandItem id round.1.event).isSome).flatMap
      fun round => round.2.flatMap appendedLines

/-- The events with a command, with what the renderer reads of it. -/
def itemEvents (id : GoString) (stream : List Received) : List (EventType × Output.ItemEvent) :=
  stream.filterMap fun r =>
    (commandItem id r.event).map fun item => (r.event.type, item.toItemEvent)

/-- The command stands in the first event that carries it, and the later ones are emptied. -/
def hideRepeated : Bool → List (EventType × Output.ItemEvent) →
    List (EventType × Output.ItemEvent)
  | _, [] => []
  | seen, (type, item) :: rest =>
    (type, if seen then { item with command := [] } else item) ::
      hideRepeated (seen || item.command ≠ []) rest

/-- The lines of an event of a command. -/
def shownLines (full : Bool) (event : EventType × Output.ItemEvent) : List GoString :=
  if event.1.isItem then
    trimCommandLines full (markLines commandMarker (formatCommand event.2 event.1))
  else []

section Item
variable {id : GoString} {c : Consumer} {event : ExecEvent} {item : ItemEvent}

theorem commandItem_eq_some (h : commandItem id event = some item) :
    event.item = some item ∧ item.type = itemCommandExecution ∧ item.id = id := by
  simpa [commandItem, Option.filter_eq_some_iff] using h

theorem remember_command (hitem : event.item = some item)
    (htype : item.type = itemCommandExecution) (hcommand : item.command ≠ []) (hid : item.id ≠ []) :
    c.remember event =
      if item.id ∈ c.seenCommandIDs then (c, hideCommand event)
      else ({ c with seenCommandIDs := item.id :: c.seenCommandIDs }, event) := by
  simp only [Consumer.remember, hitem]
  rw [if_pos ⟨htype, hcommand⟩, if_pos hid]

/-- An event of a command that was shown loses it, and any other is left as it is. -/
theorem remember_item (hid : id ≠ []) (h : commandItem id event = some item) :
    (c.remember event).2.type = event.type ∧ (c.remember event).2.item =
      some (if id ∈ c.seenCommandIDs then { item with command := [] } else item) := by
  obtain ⟨hitem, htype, rfl⟩ := commandItem_eq_some h
  by_cases hcommand : item.command = []
  · have hself : { item with command := [] } = item := by rw [← hcommand]
    rw [hself, ite_self]
    simp only [Consumer.remember, hitem]
    rw [if_neg (by simp [hcommand])]
    exact ⟨rfl, hitem⟩
  · rw [remember_command hitem htype hcommand hid]
    split_ifs
    · exact ⟨rfl, by rw [hideCommand, hitem, Option.map_some]⟩
    · exact ⟨rfl, hitem⟩

theorem mem_seen_remember (hid : id ≠ []) :
    id ∈ (c.remember event).1.seenCommandIDs ↔ id ∈ c.seenCommandIDs ∨
      ∃ item, commandItem id event = some item ∧ item.command ≠ [] := by
  cases hitem : event.item with
  | none => simp [Consumer.remember, commandItem, hitem]
  | some item =>
    by_cases hcommand : item.type = itemCommandExecution ∧ item.command ≠ []
    · by_cases hempty : item.id = []
      · have hnot : commandItem id event = none := by
          simp [commandItem, hitem, hempty, hid.symm]
        simp only [Consumer.remember, hitem, hcommand, hempty, hnot]
        split_ifs <;> simp [hid]
      · rw [remember_command hitem hcommand.1 hcommand.2 hempty]
        by_cases heq : item.id = id
        · subst heq
          have hsome : commandItem item.id event = some item := by
            simp [commandItem, hitem, hcommand.1]
          split_ifs with hseen
          · simp [hseen]
          · simp [hsome, hcommand.2]
        · have hnot : commandItem id event = none := by simp [commandItem, hitem, heq]
          split_ifs <;> simp [hnot, Ne.symm heq]
    · simp only [Consumer.remember, hitem, if_neg hcommand]
      simp only [not_and, not_not] at hcommand
      refine (or_iff_left ?_).symm
      rintro ⟨item', hsome, hne⟩
      obtain ⟨hitem', htype, -⟩ := commandItem_eq_some hsome
      obtain rfl : item = item' := Option.some.inj (hitem.symm.trans hitem')
      exact hne (hcommand htype)

theorem eventLines_item (full : Bool) (hitem : event.item = some item)
    (htype : item.type = itemCommandExecution) (hevent : event.type.isItem = true) :
    eventLines full (rendered event) = shownLines full (event.type, item.toItemEvent) := by
  have hformat : formatEvent (rendered event) = formatItem event.type item.toItemEvent :=
    format_item hevent hitem
  have hread : (rendered event).item = some item.toItemEvent := by rw [rendered, hitem]; rfl
  simp only [eventLines, hformat, hread, htype, if_true, shownLines, hevent]
  rw [formatItem_command _ htype, markLines]

theorem appended_lines (tab : TabID) (lines : List GoString) :
    (if lines ≠ [] then [Op.appendLines tab lines] else []).flatMap appendedLines = lines := by
  split_ifs with hne
  · simp [appendedLines]
  · rw [not_not.mp hne]
    rfl

/-- In a round with an event of a command, only the last section appends lines. -/
theorem appended_round (tab : TabID) (full : Bool) (hid : id ≠ []) {r : Received}
    (h : commandItem id r.event = some item) (hevent : r.event.type.isItem = true) :
    (c.round tab full r).2.flatMap appendedLines = shownLines full (r.event.type,
      if id ∈ c.seenCommandIDs then { item.toItemEvent with command := [] }
      else item.toItemEvent) := by
  obtain ⟨hitem, htype, -⟩ := commandItem_eq_some h
  have hagent : itemCommandExecution ≠ itemAgentMessage := by decide
  have hworked : (!c.workedInserted && decide (r.event.type = .itemCompleted) &&
      r.event.item.any (decide <| ·.type = itemAgentMessage)) = false := by
    simp [hitem, htype, hagent]
  obtain ⟨hsame, hshown⟩ := remember_item (c := c) hid h
  have hlines : eventLines full (rendered (c.remember r.event).2) = shownLines full
      (r.event.type, if id ∈ c.seenCommandIDs then { item.toItemEvent with command := [] }
        else item.toItemEvent) := by
    rw [eventLines_item full hshown _ (hsame ▸ hevent), hsame]
    · split_ifs <;> rfl
    · split_ifs <;> exact htype
  simp only [Consumer.round, hworked, Bool.or_false, Bool.false_eq_true, if_false, nil_append,
    flatMap_append, hlines]
  have hsession : (if r.event.threadID ≠ [] then [Op.setSessionID tab r.event.threadID]
      else []).flatMap appendedLines = [] := by
    split_ifs <;> rfl
  rw [hsession, nil_append]
  split
  · next hturn _ => simp [hturn, EventType.isItem] at hevent
  · exact appended_lines tab _

theorem mem_seen_round (tab : TabID) (full : Bool) (hid : id ≠ []) (r : Received) :
    id ∈ (c.round tab full r).1.seenCommandIDs ↔ id ∈ c.seenCommandIDs ∨
      ∃ item, commandItem id r.event = some item ∧ item.command ≠ [] :=
  mem_seen_remember hid

end Item

theorem contributed_cons (tab : TabID) (full : Bool) (id : GoString) (c : Consumer) (r : Received)
    (stream : List Received) :
    contributed tab full id c (r :: stream) =
      (if r.event.type.isItem && (commandItem id r.event).isSome then
        (c.round tab full r).2.flatMap appendedLines else []) ++
      contributed tab full id (c.round tab full r).1 stream := by
  rw [contributed, consumeEvents, zip_cons_cons, filter_cons]
  split_ifs
  · rw [flatMap_cons]
    rfl
  · rfl

theorem itemEvents_cons (id : GoString) (r : Received) (stream : List Received) :
    itemEvents id (r :: stream) =
      ((commandItem id r.event).map fun item => (r.event.type, item.toItemEvent)).toList ++
        itemEvents id stream := by
  rw [itemEvents, filterMap_cons]
  cases commandItem id r.event <;> rfl

/-- What the loop appends for a command depends on its own events only. -/
theorem contributed_eq (tab : TabID) (full : Bool) {id : GoString} (hid : id ≠ []) (c : Consumer)
    (stream : List Received) :
    contributed tab full id c stream =
      (hideRepeated (id ∈ c.seenCommandIDs) (itemEvents id stream)).flatMap (shownLines full) := by
  induction stream generalizing c with
  | nil => rfl
  | cons r stream ih =>
    have hseen := mem_seen_round (c := c) tab full hid r
    rw [contributed_cons, ih, itemEvents_cons]
    cases hitem : commandItem id r.event with
    | none =>
      have hsame : id ∈ (c.round tab full r).1.seenCommandIDs ↔ id ∈ c.seenCommandIDs := by
        simpa [hitem] using hseen
      simp [hsame]
    | some item =>
      have hnext : decide (id ∈ (c.round tab full r).1.seenCommandIDs) =
          (decide (id ∈ c.seenCommandIDs) || decide (item.command ≠ [])) := by
        rw [← Bool.decide_or, decide_eq_decide, hseen, hitem]
        simp
      rw [hnext, Option.map_some, Option.toList_some, singleton_append, hideRepeated,
        flatMap_cons]
      congr 1
      by_cases hevent : r.event.type.isItem = true
      · rw [hevent, Option.isSome_some, Bool.and_self, if_pos rfl,
          appended_round tab full hid hitem hevent]
        simp only [decide_eq_true_eq]
      · rw [Bool.eq_false_iff.mpr hevent, Bool.false_and, if_neg Bool.false_ne_true, shownLines,
          if_neg hevent]

def echo (command : GoString) : GoString := lit "$ " ++ command

def outputLines (item : Output.ItemEvent) : List GoString :=
  if item.aggregatedOutput ≠ [] then (trimNewlines item.aggregatedOutput).splitOn 0x0A else []

/-- The output repeats the command of its own event. -/
def startsWithEcho (item : Output.ItemEvent) : Bool :=
  item.command ≠ [] && (outputLines item).head? = some (echo item.command)

theorem formatCommand_eq (item : Output.ItemEvent) (type : EventType) :
    formatCommand item type =
      (if item.command ≠ [] then [echo item.command] else []) ++
      (if startsWithEcho item then (outputLines item).tail else outputLines item) ++
      exitLines type item.exitCode := by
  refine (formatCommand_exitCode item type item.exitCode).trans ?_
  congr 1
  by_cases hcommand : item.command = []
  · by_cases hout : item.aggregatedOutput = [] <;>
      simp [formatCommand, startsWithEcho, outputLines, hcommand, hout]
  · by_cases hout : item.aggregatedOutput = [] <;>
      simp [formatCommand, startsWithEcho, outputLines, hcommand, hout, echo]

variable {command : GoString}

theorem echo_inj {command' : GoString} : echo command = echo command' ↔ command = command' :=
  append_right_inj _

theorem echo_notMem_exitLines (command : GoString) (type : EventType) (exitCode : Option ℤ) :
    echo command ∉ exitLines type exitCode := by
  have hne : ∀ text, echo command ≠ lit "exit code: " ++ text := by
    intro text h
    have hhead : (echo command).head? = (lit "exit code: " ++ text).head? := by rw [h]
    rw [echo, head?_append_of_ne_nil _ (by decide), head?_append_of_ne_nil _ (by decide)]
      at hhead
    exact absurd hhead (by decide)
  unfold exitLines
  split
  · exact fun hmem => hne _ (mem_singleton.mp hmem)
  · exact not_mem_nil

theorem count_formatCommand (hcommand : command ≠ []) (item : Output.ItemEvent) (type : EventType) :
    (formatCommand item type).count (echo command) +
        (item.command = command && startsWithEcho item).toNat =
      (decide (item.command = command)).toNat + (outputLines item).count (echo command) := by
  have hexit := count_eq_zero_of_not_mem (echo_notMem_exitLines command type item.exitCode)
  have hline : (if item.command ≠ [] then [echo item.command] else []).count (echo command) =
      (decide (item.command = command)).toNat := by
    by_cases hsame : item.command = command
    · simp [hsame, hcommand]
    · have hne : echo item.command ≠ echo command := fun h => hsame (echo_inj.mp h)
      split_ifs <;> simp [hsame, hne]
  rw [formatCommand_eq, count_append, count_append, hexit, Nat.add_zero, hline]
  by_cases hstarts : startsWithEcho item = true
  · -- the line of the command stands for the first line of the output
    have hhead := hstarts
    simp only [startsWithEcho, Bool.and_eq_true, decide_eq_true_eq] at hhead
    obtain ⟨rest, hrest⟩ := head?_eq_some_iff.mp hhead.2
    rw [if_pos hstarts, hstarts, hrest, tail_cons, count_cons, Bool.and_true]
    simp only [beq_iff_eq, echo_inj]
    split_ifs with hsame <;> simp [hsame, Nat.add_assoc]
  · simp [hstarts]

theorem count_shownLines (command : GoString) (event : EventType × Output.ItemEvent) :
    (shownLines true event).count (commandMarker :: echo command) =
      if event.1.isItem then (formatCommand event.2 event.1).count (echo command) else 0 := by
  rw [shownLines]
  split_ifs
  · rw [trimCommandLines, if_pos rfl, markLines]
    exact count_map_of_injective _ _ cons_injective _
  · rfl

/-- The event in which the loop leaves the command. -/
def firstCommand (events : List (EventType × Output.ItemEvent)) :
    Option (EventType × Output.ItemEvent) :=
  events.find? (·.2.command ≠ [])

/-- The loop leaves the command in an event that the renderer shows. -/
def shows (command : GoString) (events : List (EventType × Output.ItemEvent)) : Bool :=
  (firstCommand events).any fun event => event.1.isItem && event.2.command = command

/-- That event repeats the command at the beginning of its output, where the renderer drops it. -/
def drops (command : GoString) (events : List (EventType × Output.ItemEvent)) : Bool :=
  (firstCommand events).any fun event =>
    event.1.isItem && (event.2.command = command && startsWithEcho event.2)

/-- How often the line of the command is a line of the outputs. -/
def outputEchoes (command : GoString) (events : List (EventType × Output.ItemEvent)) : ℕ :=
  ((events.filter (·.1.isItem)).flatMap (outputLines ·.2)).count (echo command)

theorem outputEchoes_cons (command : GoString) (event : EventType × Output.ItemEvent)
    (events : List (EventType × Output.ItemEvent)) :
    outputEchoes command (event :: events) =
      (if event.1.isItem then (outputLines event.2).count (echo command) else 0) +
        outputEchoes command events := by
  rw [outputEchoes, filter_cons]
  split_ifs
  · rw [flatMap_cons, count_append]
    rfl
  · rw [Nat.zero_add]
    rfl

theorem count_hidden (hcommand : command ≠ []) (events : List (EventType × Output.ItemEvent)) :
    ((hideRepeated true events).flatMap (shownLines true)).count (commandMarker :: echo command) =
      outputEchoes command events := by
  induction events with
  | nil => rfl
  | cons event events ih =>
    obtain ⟨type, item⟩ := event
    have hevent := count_formatCommand hcommand { item with command := [] } type
    simp only [hcommand.symm, decide_false, Bool.false_and, Bool.toNat_false, Nat.zero_add,
      Nat.add_zero] at hevent
    rw [hideRepeated, flatMap_cons, count_append, Bool.true_or, ih, if_pos rfl,
      count_shownLines, outputEchoes_cons, hevent]
    rfl

theorem count_shown (hcommand : command ≠ []) (events : List (EventType × Output.ItemEvent)) :
    ((hideRepeated false events).flatMap (shownLines true)).count (commandMarker :: echo command) +
        (drops command events).toNat =
      (shows command events).toNat + outputEchoes command events := by
  induction events with
  | nil => rfl
  | cons event events ih =>
    obtain ⟨type, item⟩ := event
    have hevent := count_formatCommand hcommand item type
    rw [hideRepeated, flatMap_cons, count_append, if_neg Bool.false_ne_true,
      Bool.false_or, count_shownLines, outputEchoes_cons]
    by_cases hitem : item.command = []
    · have hfirst : firstCommand ((type, item) :: events) = firstCommand events := by
        simp [firstCommand, hitem]
      simp only [hitem, hcommand.symm, decide_false, Bool.false_and, Bool.toNat_false,
        Nat.zero_add, Nat.add_zero] at hevent
      rw [drops, shows, hfirst, ← drops, ← shows, hitem]
      simp only [ne_eq, not_true, decide_false, hevent]
      omega
    · have hfirst : firstCommand ((type, item) :: events) = some (type, item) := by
        simp [firstCommand, hitem]
      rw [drops, shows, hfirst, Option.any_some, Option.any_some, decide_eq_true hitem,
        count_hidden hcommand]
      cases htype : type.isItem with
      | true =>
        simp only [if_true, Bool.true_and]
        omega
      | false => simp

/-- How often the events of a command append its line, with the full output. -/
def timesShown (tab : TabID) (id : GoString) (stream : List Received) (command : GoString) : ℕ :=
  (contributed tab true id {} stream).count (commandMarker :: echo command)

/-- The line is appended once at most, and once if an event of the item carries the command. -/
def ShownOnce (tab : TabID) (id : GoString) (stream : List Received) (command : GoString) : Prop :=
  timesShown tab id stream command ≤ 1 ∧
    ((∃ event ∈ itemEvents id stream, event.2.command = command) →
      timesShown tab id stream command = 1)

/-- The first event that carries a command of the item is shown and carries this one, and no output
has the line again, except that the output of this event may begin with it. Otherwise the loop
leaves it to the outputs to have the line once. -/
def SentOnce (command : GoString) (events : List (EventType × Output.ItemEvent)) : Prop :=
  if shows command events then outputEchoes command events = (drops command events).toNat
  else outputEchoes command events ≤ 1 ∧
    ((∃ event ∈ events, event.2.command = command) → outputEchoes command events = 1)

instance (command : GoString) (events : List (EventType × Output.ItemEvent)) :
    Decidable (SentOnce command events) :=
  inferInstanceAs (Decidable (if shows command events then _ else _))

variable {events : List (EventType × Output.ItemEvent)}

theorem carried_of_shows (h : shows command events = true) :
    ∃ event ∈ events, event.2.command = command := by
  rw [shows, Option.any_eq_true] at h
  obtain ⟨event, hfirst, h⟩ := h
  simp only [Bool.and_eq_true, decide_eq_true_eq] at h
  exact ⟨event, mem_of_find?_eq_some hfirst, h.2⟩

theorem shows_of_drops (h : drops command events = true) : shows command events = true := by
  rw [drops] at h
  rw [shows]
  cases hfirst : firstCommand events with
  | none => simp [hfirst] at h
  | some event =>
    simp only [hfirst, Option.any_some, Bool.and_eq_true] at h
    simp [h.1, h.2.1]

/-- A command is shown once exactly if the stream says so of its item. -/
theorem shownOnce_iff (tab : TabID) {id command : GoString} (hid : id ≠ [])
    (hcommand : command ≠ []) (stream : List Received) :
    ShownOnce tab id stream command ↔ SentOnce command (itemEvents id stream) := by
  have hcount := count_shown hcommand (itemEvents id stream)
  have htimes : timesShown tab id stream command =
      ((hideRepeated false (itemEvents id stream)).flatMap (shownLines true)).count
        (commandMarker :: echo command) := by
    rw [timesShown, contributed_eq tab true hid]
    rfl
  rw [← htimes] at hcount
  rw [ShownOnce, SentOnce]
  split_ifs with hshows
  · rw [hshows, Bool.toNat_true] at hcount
    have hcarried := carried_of_shows hshows
    constructor
    · intro honce
      have hone := honce.2 hcarried
      omega
    · intro hechoes
      exact ⟨by omega, fun _ => by omega⟩
  · have hdrops : drops command (itemEvents id stream) = false :=
      Bool.eq_false_iff.mpr fun h => hshows (shows_of_drops h)
    rw [Bool.eq_false_iff.mpr hshows, hdrops, Bool.toNat_false, Nat.zero_add,
      Nat.add_zero] at hcount
    rw [hcount]

def lsItem (command output : GoString) (exitCode : Option ℤ) : ItemEvent where
  id := lit "cmd-1"
  type := itemCommandExecution
  command := command
  aggregatedOutput := output
  exitCode := exitCode

/-- The events of `ls`: it is started, and done with an output. -/
def lsStream (started output : GoString) : List Received :=
  [⟨0, { type := .itemStarted, item := some (lsItem started [] none) }⟩,
    ⟨10 ^ 9, { type := .itemCompleted, item := some (lsItem (lit "ls") output (some 0)) }⟩]

theorem shownOnce_ls :
    ShownOnce [] (lit "cmd-1") (lsStream (lit "ls") (lit "README.md")) (lit "ls") ∧
      ShownOnce [] (lit "cmd-1") (lsStream [] (lit "$ ls\nREADME.md")) (lit "ls") :=
  ⟨(shownOnce_iff [] (by decide) (by decide) _).mpr (by decide),
    (shownOnce_iff [] (by decide) (by decide) _).mpr (by decide)⟩

/-- The output of the last event begins with the command, which the loop has emptied. -/
theorem command_shown_twice :
    contributed [] true (lit "cmd-1") {} (lsStream (lit "ls") (lit "$ ls\nREADME.md")) =
        [commandMarker :: lit "$ ls", commandMarker :: lit "$ ls",
          commandMarker :: lit "README.md", commandMarker :: lit "exit code: 0"] ∧
      ¬ ShownOnce [] (lit "cmd-1") (lsStream (lit "ls") (lit "$ ls\nREADME.md")) (lit "ls") := by
  refine ⟨by decide, fun h => ?_⟩
  have htwice : timesShown [] (lit "cmd-1") (lsStream (lit "ls") (lit "$ ls\nREADME.md"))
      (lit "ls") = 2 := by
    decide
  have hone := h.1
  omega

/-- How many lines the renderer makes of an event. -/
def lineCount (event : EventType × Output.ItemEvent) : ℕ :=
  if event.1.isItem then
    (decide (event.2.command ≠ [])).toNat +
      ((outputLines event.2).length - (startsWithEcho event.2).toNat) +
      (exitLines event.1 event.2.exitCode).length
  else 0

/-- The lines of the events of a command, after the loop has emptied the repeated commands. -/
def lineCounts (id : GoString) (stream : List Received) : List ℕ :=
  (hideRepeated false (itemEvents id stream)).map lineCount

theorem length_shownLines (event : EventType × Output.ItemEvent) :
    (shownLines false event).length = min maxCommandLinesTerse (lineCount event) := by
  rw [shownLines, lineCount]
  split_ifs
  · rw [trimCommandLines, if_neg Bool.false_ne_true, length_take, markLines, length_map,
      formatCommand_eq, length_append, length_append]
    congr 3
    · split_ifs with hcommand <;> simp [hcommand]
    · split_ifs with hstarts <;> simp [hstarts]
  · rfl

section Limit
variable (limit : ℕ)

theorem min_sum_le_sum_min (counts : List ℕ) :
    min limit counts.sum ≤ (counts.map (min limit)).sum := by
  induction counts with
  | nil => simp
  | cons n counts ih =>
    rw [sum_cons, map_cons, sum_cons]
    omega

theorem sum_min_le_sum (counts : List ℕ) : (counts.map (min limit)).sum ≤ counts.sum := by
  simpa using sum_le_sum (l := counts) (g := id) fun n _ => min_le_right limit n

theorem sum_min_le_mul (counts : List ℕ) :
    (counts.map (min limit)).sum ≤ limit * (counts.filter (0 < ·)).length := by
  induction counts with
  | nil => simp
  | cons n counts ih =>
    rw [map_cons, sum_cons, filter_cons]
    split_ifs with hn
    · rw [length_cons, Nat.mul_succ]
      omega
    · simp only [decide_eq_true_eq] at hn
      omega

variable {limit}

theorem lt_sum_min {counts : List ℕ} (hlimit : 0 < limit) (hsum : limit < counts.sum)
    (htwo : 1 < (counts.filter (0 < ·)).length) : limit < (counts.map (min limit)).sum := by
  induction counts with
  | nil => simp at htwo
  | cons n counts ih =>
    rw [sum_cons] at hsum
    rw [map_cons, sum_cons]
    by_cases hn : 0 < n
    · have hrest : 0 < (counts.filter (0 < ·)).length := by
        simpa [filter_cons, hn] using htwo
      obtain ⟨m, hm⟩ := exists_mem_of_length_pos hrest
      obtain ⟨hmem, hpos⟩ := mem_filter.mp hm
      have hle := le_sum_of_mem hmem
      have hmin := min_sum_le_sum_min limit counts
      simp only [decide_eq_true_eq] at hpos
      omega
    · have hrest := ih (by omega) (by simpa [filter_cons, hn] using htwo)
      omega

/-- Limiting each number bounds the sum only if the sum was small, or a single number. -/
theorem sum_min_le_iff (hlimit : 0 < limit) (counts : List ℕ) :
    (counts.map (min limit)).sum ≤ limit ↔
      counts.sum ≤ limit ∨ (counts.filter (0 < ·)).length ≤ 1 := by
  constructor
  · intro h
    by_contra hnot
    rw [not_or, not_le, not_le] at hnot
    exact absurd (lt_sum_min hlimit hnot.1 hnot.2) (not_lt.mpr h)
  · rintro (hsum | hsingle)
    · exact (sum_min_le_sum limit counts).trans hsum
    · calc (counts.map (min limit)).sum
        _ ≤ limit * (counts.filter (0 < ·)).length := sum_min_le_mul limit counts
        _ ≤ limit * 1 := Nat.mul_le_mul_left _ hsingle
        _ = limit := Nat.mul_one _

end Limit

/-- The limit of the terse mode holds for a command exactly if its events have not more lines
together, or only one of them has lines. -/
theorem terse_limit_iff (tab : TabID) {id : GoString} (hid : id ≠ []) (stream : List Received) :
    (contributed tab false id {} stream).length ≤ maxCommandLinesTerse ↔
      (lineCounts id stream).sum ≤ maxCommandLinesTerse ∨
        ((lineCounts id stream).filter (0 < ·)).length ≤ 1 := by
  rw [← sum_min_le_iff (by decide), contributed_eq tab false hid, length_flatMap, lineCounts,
    map_map]
  have hlines : (fun event => (shownLines false event).length) =
      min maxCommandLinesTerse ∘ lineCount :=
    funext length_shownLines
  rw [← hlines]
  rfl

/-- A command of one event, and one whose two events have few lines. -/
theorem terse_limit_ls :
    (contributed [] false (lit "cmd-1") {} (lsStream [] (lit "1\n2\n3\n4\n5\n6"))).length ≤ 5 ∧
      (contributed [] false (lit "cmd-1") {} (lsStream (lit "ls") (lit "1\n2\n3"))).length ≤ 5 :=
  ⟨(terse_limit_iff [] (by decide) _).mpr (by decide),
    (terse_limit_iff [] (by decide) _).mpr (by decide)⟩

/-- The start of the command is one line, and its end has five more. -/
theorem terse_limit_exceeded :
    contributed [] false (lit "cmd-1") {} (lsStream (lit "ls") (lit "1\n2\n3\n4\n5\n6")) =
        [lit "$ ls", lit "1", lit "2", lit "3", lit "4", lit "5"].map (commandMarker :: ·) ∧
      ¬ (contributed [] false (lit "cmd-1") {}
        (lsStream (lit "ls") (lit "1\n2\n3\n4\n5\n6"))).length ≤ maxCommandLinesTerse := by
  decide

end Centaurx.ConsumeEvents
