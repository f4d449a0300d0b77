import Centaurx.Output.Producers
import Centaurx.Schema
import Mathlib.Data.List.Basic

namespace Centaurx.RunnerGrpc
open Go Output List Function

def itemMcpToolCall : ItemType := lit "mcp_tool_call"
def itemError : ItemType := lit "error"

/-- An item with the fields that no renderer reads. -/
structure ItemEvent extends Output.ItemEvent where
  id : GoString := []
  status : GoString := []
  raw : GoString := []

/-- What the JSONL decoder returns. -/
structure ExecEvent where
  type : EventType
  threadID : SessionID := []
  usage : Option TurnUsage := none
  item : Option ItemEvent := none
  /-- The message of the error. -/
  error : Option GoString := none
  message : GoString := []
  raw : GoString := []

/-- `FormatEvent`, which reads a part of the event. -/
def ExecEvent.format (event : ExecEvent) : List GoString :=
  formatEvent ⟨event.type, event.message, event.error, event.item.map ItemEvent.toItemEvent⟩

namespace PB

inductive EventType
  | unspecified | threadStarted | turnStarted | turnCompleted | turnFailed
  | itemStarted | itemUpdated | itemCompleted | error

inductive ItemType
  | unspecified | agentMessage | reasoning | commandExecution | fileChange | mcpToolCall
  | webSearch | todoList | error

structure TurnUsage where
  inputTokens : Int32
  cachedInputTokens : Int32
  outputTokens : Int32

structure FileChange where
  path : GoString
  kind : GoString

structure TodoItem where
  text : GoString
  completed : Bool

structure ItemEvent where
  id : GoString
  type : ItemType
  text : GoString
  command : GoString
  aggregatedOutput : GoString
  exitCode : Option Int32
  status : GoString
  changes : List FileChange
  query : GoString
  items : List TodoItem
  raw : GoString

structure ExecEvent where
  type : EventType
  threadID : GoString
  usage : Option TurnUsage
  item : Option ItemEvent
  error : Option GoString
  message : GoString
  raw : GoString

end PB

def toPBEventType : EventType → PB.EventType
  | .threadStarted => .threadStarted
  | .turnStarted => .turnStarted
  | .turnCompleted => .turnCompleted
  | .turnFailed => .turnFailed
  | .itemStarted => .itemStarted
  | .itemUpdated => .itemUpdated
  | .itemCompleted => .itemCompleted
  | .error => .error
  | .other _ => .unspecified

def fromPBEventType : PB.EventType → EventType
  | .threadStarted => .threadStarted
  | .turnStarted => .turnStarted
  | .turnCompleted => .turnCompleted
  | .turnFailed => .turnFailed
  | .itemStarted => .itemStarted
  | .itemUpdated => .itemUpdated
  | .itemCompleted => .itemCompleted
  | .error => .error
  | .unspecified => .other []

def toPBItemType (value : ItemType) : PB.ItemType :=
  if value = itemAgentMessage then .agentMessage
  else if value = itemReasoning then .reasoning
  else if value = itemCommandExecution then .commandExecution
  else if value = itemFileChange then .fileChange
  else if value = itemMcpToolCall then .mcpToolCall
  else if value = itemWebSearch then .webSearch
  else if value = itemTodoList then .todoList
  else if value = itemError then .error
  else .unspecified

def fromPBItemType : PB.ItemType → ItemType
  | .agentMessage => itemAgentMessage
  | .reasoning => itemReasoning
  | .commandExecution => itemCommandExecution
  | .fileChange => itemFileChange
  | .mcpToolCall => itemMcpToolCall
  | .webSearch => itemWebSearch
  | .todoList => itemTodoList
  | .error => itemError
  | .unspecified => []

def toPBItemEvent (item : ItemEvent) : PB.ItemEvent where
  id := item.id
  type := toPBItemType item.type
  text := item.text
  command := item.command
  aggregatedOutput := item.aggregatedOutput
  exitCode := item.exitCode.map Int32.ofInt
  status := item.status
  changes := item.changes.map fun change => ⟨change.path, change.kind⟩
  query := item.query
  items := item.items.map fun entry => ⟨entry.text, entry.completed⟩
  raw := item.raw

def fromPBItemEvent (item : PB.ItemEvent) : ItemEvent where
  id := item.id
  type := fromPBItemType item.type
  text := item.text
  command := item.command
  aggregatedOutput := item.aggregatedOutput
  exitCode := item.exitCode.map Int32.toInt
  status := item.status
  changes := item.changes.map fun change => ⟨change.path, change.kind⟩
  query := item.query
  items := item.items.map fun entry => ⟨entry.text, entry.completed⟩
  raw := item.raw

def toPBUsage (usage : TurnUsage) : PB.TurnUsage where
  inputTokens := .ofInt usage.inputTokens
  cachedInputTokens := .ofInt usage.cachedInputTokens
  outputTokens := .ofInt usage.outputTokens

def fromPBUsage (usage : PB.TurnUsage) : TurnUsage where
  inputTokens := usage.inputTokens.toInt
  cachedInputTokens := usage.cachedInputTokens.toInt
  outputTokens := usage.outputTokens.toInt

def toPBExecEvent (event : ExecEvent) : PB.ExecEvent where
  type := toPBEventType event.type
  threadID := event.threadID
  usage := event.usage.map toPBUsage
  item := event.item.map toPBItemEvent
  error := event.error
  message := event.message
  raw := event.raw

def fromPBExecEvent (event : PB.ExecEvent) : ExecEvent where
  type := fromPBEventType event.type
  threadID := event.threadID
  usage := event.usage.map fromPBUsage
  item := event.item.map fromPBItemEvent
  error := event.error
  message := event.message
  raw := event.raw

/-- What the client of the runner gets. -/
def transported (event : ExecEvent) : ExecEvent := fromPBExecEvent (toPBExecEvent event)

/-- The names of item types that have a value of their own, or are absent. -/
def Named (type : ItemType) : Prop :=
  type ∈ [itemAgentMessage, itemReasoning, itemCommandExecution, itemFileChange, itemMcpToolCall,
    itemWebSearch, itemTodoList, itemError, []]

instance (type : ItemType) : Decidable (Named type) := inferInstanceAs (Decidable (_ ∈ _))

theorem fromPBItemType_mem (value : PB.ItemType) : Named (fromPBItemType value) := by
  cases value <;> decide

theorem fromPB_toPBItemType {type : ItemType} (h : Named type) :
    fromPBItemType (toPBItemType type) = type := by
  simp only [Named, mem_cons, not_mem_nil, or_false] at h
  rcases h with rfl | rfl | rfl | rfl | rfl | rfl | rfl | rfl | rfl <;> decide

theorem fromPB_toPBItemType_eq_iff {type : ItemType} :
    fromPBItemType (toPBItemType type) = type ↔ Named type :=
  ⟨fun h => h ▸ fromPBItemType_mem _, fromPB_toPBItemType⟩

/-- The numbers that an `int32` holds. -/
def Fits (n : ℤ) : Prop := -2 ^ 31 ≤ n ∧ n < 2 ^ 31

instance (n : ℤ) : Decidable (Fits n) := inferInstanceAs (Decidable (_ ∧ _))

theorem toInt_ofInt_eq_iff {n : ℤ} : (Int32.ofInt n).toInt = n ↔ Fits n := by
  rw [Int32.toInt_ofInt, Fits]
  -- a number that comes back is one that `bmod` returns, and those are the ones that fit
  refine ⟨fun h => ?_, fun h => Int.bmod_eq_of_le (by simpa using h.1) (by simpa using h.2)⟩
  have hle := Int.le_bmod (x := n) (m := Int32.size) (by decide)
  have hlt := Int.bmod_lt (x := n) (m := Int32.size) (by decide)
  rw [h] at hle hlt
  exact ⟨by simpa using hle, by simpa using hlt⟩

def UsageFits (usage : TurnUsage) : Prop :=
  Fits usage.inputTokens ∧ Fits usage.cachedInputTokens ∧ Fits usage.outputTokens

instance (usage : TurnUsage) : Decidable (UsageFits usage) := inferInstanceAs (Decidable (_ ∧ _))

theorem fromPB_toPBUsage_eq_iff {usage : TurnUsage} :
    fromPBUsage (toPBUsage usage) = usage ↔ UsageFits usage := by
  obtain ⟨input, cached, output⟩ := usage
  simp only [fromPBUsage, toPBUsage, TurnUsage.mk.injEq, toInt_ofInt_eq_iff, UsageFits]

theorem lit_injective : Function.Injective lit := by
  intro s t h
  simp only [lit, String.toUTF8_eq_toByteArray] at h
  exact String.toByteArray_inj.mp (ByteArray.ext (Array.toList_inj.mp h))

theorem toList_toString {n : ℤ} : (toString n).toList =
    if n < 0 then '-' :: Nat.toDigits 10 n.natAbs else Nat.toDigits 10 n.natAbs := by
  cases n with
  | ofNat n => simp [toString, Int.repr, Nat.repr_eq_ofList_toDigits]
  | negSucc n => simp [toString, Int.repr, Nat.repr_eq_ofList_toDigits]

theorem toString_inj {m n : ℤ} (h : toString m = toString n) : m = n := by
  have hdigits : ∀ a b : ℕ, Nat.toDigits 10 a = Nat.toDigits 10 b → a = b := fun a b hab => by
    rw [← Nat.ofDigitChars_ten_toDigits (n := a), hab, Nat.ofDigitChars_ten_toDigits]
  have hminus : ∀ a b : ℕ, '-' :: Nat.toDigits 10 a ≠ Nat.toDigits 10 b := fun a b hab => by
    have := Nat.isDigit_of_mem_toDigits (b := 10) (by decide) (by decide) (hab ▸ mem_cons_self)
    revert this
    decide
  have hlist := congrArg String.toList h
  rw [toList_toString, toList_toString] at hlist
  split_ifs at hlist
  · have := hdigits _ _ (cons.inj hlist).2
    omega
  · exact absurd hlist (hminus _ _)
  · exact absurd hlist.symm (hminus _ _)
  · have := hdigits _ _ hlist
    omega

theorem exitLine_inj {m n : ℤ} :
    lit "exit code: " ++ lit (toString m) = lit "exit code: " ++ lit (toString n) ↔ m = n := by
  rw [append_cancel_left_eq, lit_injective.eq_iff]
  exact ⟨toString_inj, congrArg _⟩

/-- The last line of a command that has exited. -/
def exitLines (eventType : EventType) (exitCode : Option ℤ) : List GoString :=
  match eventType, exitCode with
  | .itemCompleted, some code => [lit "exit code: " ++ lit (toString code)]
  | _, _ => []

theorem exitLines_map_eq_iff (eventType : EventType) (exitCode : Option ℤ) :
    exitLines eventType ((exitCode.map Int32.ofInt).map Int32.toInt) =
        exitLines eventType exitCode ↔
      (eventType = .itemCompleted → ∀ code ∈ exitCode, Fits code) := by
  cases exitCode with
  | none => simp
  | some code =>
    cases eventType with
    | itemCompleted =>
      simp only [exitLines, Option.map_some, cons.injEq, and_true, exitLine_inj,
        toInt_ofInt_eq_iff, Option.mem_def, Option.some.injEq, forall_const, forall_eq']
    | _ => simp [exitLines]

theorem formatCommand_exitCode (item : Output.ItemEvent) (eventType : EventType)
    (exitCode : Option ℤ) :
    formatCommand { item with exitCode := exitCode } eventType =
      formatCommand { item with exitCode := none } eventType ++ exitLines eventType exitCode := by
  cases exitCode with
  | none | some code => cases eventType <;> simp [formatCommand, exitLines]

theorem formatItem_command (item : Output.ItemEvent) (h : item.type = itemCommandExecution)
    (eventType : EventType) :
    formatItem eventType item = (formatCommand item eventType).map (commandMarker :: ·) := by
  have hagent : itemCommandExecution ≠ itemAgentMessage := by decide
  have hreason : itemCommandExecution ≠ itemReasoning := by decide
  simp only [formatItem, h, if_neg hagent, if_neg hreason, if_true, markLines]

theorem formatItem_exitCode_eq_iff (eventType : EventType) (item : Output.ItemEvent)
    (exitCode : Option ℤ) :
    formatItem eventType { item with exitCode := exitCode } = formatItem eventType item ↔
      (item.type = itemCommandExecution →
        exitLines eventType exitCode = exitLines eventType item.exitCode) := by
  by_cases h : item.type = itemCommandExecution
  · -- all lines get the same marker, so they can be compared without it
    have hinj : Function.Injective fun line : GoString => commandMarker :: line :=
      cons_injective
    have hself := formatCommand_exitCode item eventType item.exitCode
    rw [formatItem_command item h, formatItem_command { item with exitCode := exitCode } h,
      (map_injective_iff.mpr hinj).eq_iff, formatCommand_exitCode,
      show formatCommand item eventType = _ from hself, append_cancel_left_eq]
    simp [h]
  · simp only [h, false_imp_iff, iff_true]
    simp only [formatItem, h, if_false]
    rfl

/-- What the user sees, and the fields that the service reads, are the same in both events. -/
structure SeenAlike (e' e : ExecEvent) : Prop where
  format : e'.format = e.format
  threadID : e'.threadID = e.threadID
  usage : e'.usage = e.usage
  item : (e'.item.map fun item => (item.id, item.type, item.command)) =
    e.item.map fun item => (item.id, item.type, item.command)

/-- The token counts fit, the type of the item has a name or is absent, and so does the exit
code of a command if it is shown. -/
def Carried (e : ExecEvent) : Prop :=
  (∀ usage ∈ e.usage, UsageFits usage) ∧ ∀ item ∈ e.item, Named item.type ∧
    (item.type = itemCommandExecution → e.type = .itemCompleted →
      ∀ code ∈ item.exitCode, Fits code)

theorem toItemEvent_transported {item : ItemEvent} (h : Named item.type) :
    (fromPBItemEvent (toPBItemEvent item)).toItemEvent =
      { item.toItemEvent with
        exitCode := (item.exitCode.map Int32.ofInt).map Int32.toInt } := by
  simp [fromPBItemEvent, toPBItemEvent, fromPB_toPBItemType h, comp_def]

theorem isItem_iff {type : EventType} : type.isItem = true ↔
    type = .itemStarted ∨ type = .itemUpdated ∨ type = .itemCompleted := by
  cases type <;> simp [EventType.isItem]

theorem format_transported_of_not_isItem {e : ExecEvent} (h : e.type.isItem = false) :
    (transported e).format = e.format := by
  -- an unknown event type and the unspecified one are both shown as no line at all
  obtain ⟨type, _, _, _, _, _, _⟩ := e
  cases type <;> first | rfl | cases h

theorem format_item {e : ExecEvent} (h : e.type.isItem = true) {item : ItemEvent}
    (hitem : e.item = some item) : e.format = formatItem e.type item.toItemEvent := by
  obtain ⟨type, _, _, _, _, _, _⟩ := e
  obtain rfl := hitem
  cases type <;> first | rfl | cases h

/-- The lines of an item with a name are the same if its exit code fits, or is not shown. -/
theorem format_transported_eq_iff {e : ExecEvent} {item : ItemEvent} (hitem : e.item = some item)
    (hnamed : Named item.type) :
    (transported e).format = e.format ↔
      (item.type = itemCommandExecution → e.type = .itemCompleted →
        ∀ code ∈ item.exitCode, Fits code) := by
  cases h : e.type.isItem with
  | false =>
    simp only [format_transported_of_not_isItem h, true_iff]
    intro _ htype
    rw [htype] at h
    cases h
  | true =>
    have htype : (transported e).type = e.type := by
      rcases isItem_iff.mp h with h | h | h <;> simp [transported, fromPBExecEvent, toPBExecEvent,
        h, toPBEventType, fromPBEventType]
    have hitem' : (transported e).item = some (fromPBItemEvent (toPBItemEvent item)) := by
      simp [transported, fromPBExecEvent, toPBExecEvent, hitem]
    rw [format_item h hitem, format_item (htype ▸ h) hitem', htype,
      toItemEvent_transported hnamed, formatItem_exitCode_eq_iff, exitLines_map_eq_iff]

/-- **Transport does not change what the user sees**, exactly if the names and the numbers that
are seen fit into the messages. -/
theorem transported_seenAlike_iff (e : ExecEvent) :
    SeenAlike (transported e) e ↔ Carried e := by
  have husage : (transported e).usage = e.usage ↔ ∀ usage ∈ e.usage, UsageFits usage := by
    cases h : e.usage with
    | none => simp [transported, fromPBExecEvent, toPBExecEvent, h]
    | some usage =>
      simp [transported, fromPBExecEvent, toPBExecEvent, h, fromPB_toPBUsage_eq_iff]
  cases hitem : e.item with
  | none =>
    have hitem' : (transported e).item = none := by
      simp [transported, fromPBExecEvent, toPBExecEvent, hitem]
    refine ⟨fun h => ⟨husage.mp h.usage, by simp [hitem]⟩, fun h => ⟨?_, rfl, husage.mpr h.1, ?_⟩⟩
    · obtain ⟨type, _, _, _, _, _, _⟩ := e
      obtain rfl := hitem
      cases type <;> rfl
    · rw [hitem, hitem']
  | some item =>
    have hitem' : (transported e).item = some (fromPBItemEvent (toPBItemEvent item)) := by
      simp [transported, fromPBExecEvent, toPBExecEvent, hitem]
    have hfields : ((transported e).item.map fun item => (item.id, item.type, item.command)) =
        (e.item.map fun item => (item.id, item.type, item.command)) ↔ Named item.type := by
      rw [hitem, hitem', ← fromPB_toPBItemType_eq_iff]
      simp [fromPBItemEvent, toPBItemEvent]
    constructor
    · intro h
      have hnamed := hfields.mp h.item
      refine ⟨husage.mp h.usage, fun i hi => ?_⟩
      obtain rfl : item = i := by simpa [hitem] using hi
      exact ⟨hnamed, (format_transported_eq_iff hitem hnamed).mp h.format⟩
    · intro h
      obtain ⟨hnamed, hcode⟩ := h.2 item hitem
      exact ⟨(format_transported_eq_iff hitem hnamed).mpr hcode, rfl, husage.mpr h.1,
        hfields.mpr hnamed⟩

/-- Codex reports an item of a type that the runner does not know. -/
def unknownItem : ExecEvent :=
  { type := .itemCompleted, item := some { type := lit "foo" } }

/-- The user sees another line than without a runner. -/
theorem transported_unknownItem :
    unknownItem.format = [lit "foo event"] ∧
      (transported unknownItem).format = [lit "item event"] ∧
      ¬SeenAlike (transported unknownItem) unknownItem := by
  have hbefore : unknownItem.format = [lit "foo event"] := by decide
  have hafter : (transported unknownItem).format = [lit "item event"] := by decide
  refine ⟨hbefore, hafter, fun h => ?_⟩
  exact absurd (hafter.symm.trans (h.format.trans hbefore)) (by decide)

end Centaurx.RunnerGrpc
