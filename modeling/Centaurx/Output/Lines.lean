import Centaurx.Lib.Utf16
import Centaurx.Lib.Words

namespace Centaurx.Output
open Go List Function

def stderrMarker : UInt8 := 0x1F
def agentMarker : UInt8 := 0x1C
def reasoningMarker : UInt8 := 0x1D
def commandMarker : UInt8 := 0x1A
def workedForMarker : UInt8 := 0x1E
def helpMarker : UInt8 := 0x16
def aboutVersionMarker : UInt8 := 0x17
def aboutCopyrightMarker : UInt8 := 0x18
def aboutLinkMarker : UInt8 := 0x19

inductive LineKind
  | lineNormal | lineStderr | lineError | lineMeta | lineAgent | lineReasoning | lineCommand
  | lineHelp | lineAboutVersion | lineAboutCopyright | lineAboutLink | lineWorked
  deriving DecidableEq

structure LineInfo (α : Type) where
  text : List α
  kind : LineKind
  deriving DecidableEq

section Classify
variable {α : Type} [DecidableEq α]

/-- The kind that a text has by itself: errors first, then the report of a finished command. -/
def textKind (errors finished : List (List α)) (text : List α) : LineKind :=
  if errors.any (·.isPrefixOf text) then .lineError
  else if finished.any (·.isPrefixOf text) then .lineMeta
  else .lineNormal

/-- The markers are tried in turn. The one for stderr comes last, and an error on stderr is
an error. -/
def classifyBy (markers : List (α × LineKind)) (stderr : α) (errors finished : List (List α))
    (line : List α) : LineInfo α :=
  match markers.find? (fun m => line.head? = some m.1) with
  | some m => ⟨line.tail, m.2⟩
  | none =>
    let text := if line.head? = some stderr then line.tail else line
    match textKind errors finished text with
    | .lineNormal => ⟨text, if line.head? = some stderr then .lineStderr else .lineNormal⟩
    | kind => ⟨text, kind⟩

end Classify

def errorTexts : List GoString := [lit "error:", lit "command failed:", lit "command error:"]
def finishedTexts : List GoString := [lit "--- command finished"]

/-- `classifyLine` of the SSH server. -/
def classifyLine (raw : GoString) : LineInfo UInt8 :=
  classifyBy
    [(workedForMarker, .lineWorked), (agentMarker, .lineAgent), (reasoningMarker, .lineReasoning),
      (commandMarker, .lineCommand), (helpMarker, .lineHelp),
      (aboutVersionMarker, .lineAboutVersion), (aboutCopyrightMarker, .lineAboutCopyright),
      (aboutLinkMarker, .lineAboutLink)]
    stderrMarker errorTexts finishedTexts raw

/-- `parseLine` of the browser. -/
def parseLine (line : List ℕ) : LineInfo ℕ :=
  classifyBy
    [(0x1E, .lineWorked), (0x16, .lineHelp), (0x17, .lineAboutVersion),
      (0x18, .lineAboutCopyright), (0x19, .lineAboutLink), (0x1C, .lineAgent),
      (0x1D, .lineReasoning), (0x1A, .lineCommand)]
    0x1F (errorTexts.map (·.map UInt8.toNat)) (finishedTexts.map (·.map UInt8.toNat)) line

/-- Who writes a line. What is written without a marker is plain. -/
inductive Producer
  | plain | stderr | agent | reasoning | command | help
  | aboutVersion | aboutCopyright | aboutLink | worked
  deriving DecidableEq

def Producer.marker : Producer → Option UInt8
  | .plain => none
  | .stderr => some stderrMarker
  | .agent => some agentMarker
  | .reasoning => some reasoningMarker
  | .command => some commandMarker
  | .help => some helpMarker
  | .aboutVersion => some aboutVersionMarker
  | .aboutCopyright => some aboutCopyrightMarker
  | .aboutLink => some aboutLinkMarker
  | .worked => some workedForMarker

/-- The kind that a line of a producer is meant to have. -/
def Producer.kind (text : GoString) : Producer → LineKind
  | .plain => textKind errorTexts finishedTexts text
  | .stderr =>
    match textKind errorTexts finishedTexts text with
    | .lineNormal => .lineStderr
    | kind => kind
  | .agent => .lineAgent
  | .reasoning => .lineReasoning
  | .command => .lineCommand
  | .help => .lineHelp
  | .aboutVersion => .lineAboutVersion
  | .aboutCopyright => .lineAboutCopyright
  | .aboutLink => .lineAboutLink
  | .worked => .lineWorked

/-- A text with its producer. -/
structure Written where
  producer : Producer
  text : GoString
  deriving DecidableEq

def Written.line (w : Written) : GoString := w.producer.marker.toList ++ w.text

def Written.info (w : Written) : LineInfo UInt8 := ⟨w.text, w.producer.kind w.text⟩

/-- The markers are the bytes from `0x16` to `0x1F` but `0x1B`. -/
def isMarker (b : UInt8) : Bool := between 0x16 0x1F b && b ≠ 0x1B

/-- The text begins with a byte that is a marker. -/
def startsWithMarker (text : GoString) : Bool := text.head?.any isMarker

theorem isMarker_iff {b : UInt8} : isMarker b = true ↔
    b ∈ [stderrMarker, agentMarker, reasoningMarker, commandMarker, workedForMarker, helpMarker,
      aboutVersionMarker, aboutCopyrightMarker, aboutLinkMarker] := by
  rw [isMarker, Bool.and_eq_true, between_iff, decide_eq_true_eq]
  simp only [mem_cons, not_mem_nil, or_false, ← UInt8.toNat_inj, ne_eq, stderrMarker,
    agentMarker, reasoningMarker, commandMarker, workedForMarker, helpMarker, aboutVersionMarker,
    aboutCopyrightMarker, aboutLinkMarker, UInt8.reduceToNat]
  omega

section Classify
variable {α : Type} [DecidableEq α] {markers : List (α × LineKind)} {stderr : α}
  {errors finished : List (List α)} {line : List α}

theorem classifyBy_unmarked (hm : ∀ m ∈ markers, line.head? ≠ some m.1)
    (hs : line.head? ≠ some stderr) :
    classifyBy markers stderr errors finished line = ⟨line, textKind errors finished line⟩ := by
  have hnone : markers.find? (fun m => line.head? = some m.1) = none := by
    simpa [find?_eq_none] using hm
  rw [classifyBy, hnone]
  simp only [if_neg hs]
  split
  · rename_i h
    rw [h]
  · rfl

theorem classifyBy_stderr (hm : ∀ m ∈ markers, m.1 ≠ stderr) (text : List α) :
    classifyBy markers stderr errors finished (stderr :: text) =
      ⟨text, match textKind errors finished text with
        | .lineNormal => .lineStderr
        | kind => kind⟩ := by
  have hnone : markers.find? (fun m => (stderr :: text).head? = some m.1) = none := by
    rw [find?_eq_none]
    intro m h
    simpa using (hm m h).symm
  rw [classifyBy, hnone]
  simp only [head?_cons, if_true, tail_cons]
  cases textKind errors finished text <;> rfl

end Classify

theorem isMarker_ascii {b : UInt8} (h : isMarker b = true) : b < 0x80 := by
  rw [isMarker_iff] at h
  revert b
  decide

theorem head?_ne_of_not_startsWithMarker {text : GoString} (h : startsWithMarker text = false)
    {b : UInt8} (hb : isMarker b = true) : text.head? ≠ some b := by
  intro hh
  rw [startsWithMarker, hh, Option.any_some, hb] at h
  exact absurd h (by decide)

theorem classifyLine_plain {text : GoString} (h : startsWithMarker text = false) :
    classifyLine text = ⟨text, textKind errorTexts finishedTexts text⟩ := by
  refine classifyBy_unmarked ?_ (head?_ne_of_not_startsWithMarker h (by decide))
  intro m hm
  apply head?_ne_of_not_startsWithMarker h
  revert m
  decide

theorem classifyLine_text_ne {text : GoString} (h : startsWithMarker text = true) :
    (classifyLine text).text ≠ text := by
  cases text with
  | nil => exact absurd h (by decide)
  | cons b t =>
    have hb : isMarker b = true := h
    have htail : (classifyLine (b :: t)).text = t := by
      rw [isMarker_iff] at hb
      simp only [mem_cons, not_mem_nil, or_false] at hb
      rcases hb with rfl | rfl | rfl | rfl | rfl | rfl | rfl | rfl | rfl
      · rw [classifyLine, classifyBy_stderr (by decide)]
      all_goals rfl
    rw [htail]
    exact fun h => by simpa using congrArg length h

/-- The line of a producer is read back exactly if the text does not bring a marker of its
own; behind a marker it may. -/
theorem classifyLine_line (w : Written) :
    classifyLine w.line = w.info ↔ (w.producer = .plain → startsWithMarker w.text = false) := by
  obtain ⟨producer, text⟩ := w
  cases producer with
  | plain =>
    refine ⟨fun h _ => ?_, fun h => classifyLine_plain (h rfl)⟩
    cases hm : startsWithMarker text with
    | false => rfl
    | true => exact absurd (congrArg LineInfo.text h) (classifyLine_text_ne hm)
  | stderr => exact iff_of_true (classifyBy_stderr (by decide) text) (by simp)
  | agent | reasoning | command | help | aboutVersion | aboutCopyright | aboutLink | worked =>
    exact iff_of_true rfl (by simp)

theorem textKind_units (text : GoString) :
    textKind (errorTexts.map (·.map UInt8.toNat)) (finishedTexts.map (·.map UInt8.toNat))
      (units text) = textKind errorTexts finishedTexts text := by
  have hany : ∀ texts : List GoString, (∀ t ∈ texts, ∀ b ∈ t, b < 0x80) →
      (texts.map (·.map UInt8.toNat)).any (·.isPrefixOf (units text)) =
        texts.any (·.isPrefixOf text) := by
    intro texts h
    rw [any_map, Bool.eq_iff_iff, any_eq_true, any_eq_true]
    refine exists_congr fun t => and_congr_right fun ht => ?_
    rw [comp_apply, isPrefixOf_units (h t ht)]
  rw [textKind, textKind, hany errorTexts (by decide), hany finishedTexts (by decide)]

/-- Transport and classification commute. -/
theorem parseLine_units (line : GoString) :
    parseLine (units line) = ⟨units (classifyLine line).text, (classifyLine line).kind⟩ := by
  cases hm : startsWithMarker line with
  | false =>
    have hne : ∀ b, isMarker b = true → (units line).head? ≠ some b.toNat := fun b hb h =>
      head?_ne_of_not_startsWithMarker hm hb
        ((units_head?_eq (isMarker_ascii hb) line).mp h)
    rw [classifyLine_plain hm, ← textKind_units]
    refine classifyBy_unmarked ?_ (hne 0x1F (by decide))
    simp only [mem_cons, not_mem_nil, or_false, forall_eq_or_imp, forall_eq]
    exact ⟨hne 0x1E (by decide), hne 0x16 (by decide), hne 0x17 (by decide), hne 0x18 (by decide),
      hne 0x19 (by decide), hne 0x1C (by decide), hne 0x1D (by decide), hne 0x1A (by decide)⟩
  | true =>
    cases line with
    | nil => exact absurd hm (by decide)
    | cons b t =>
      have hb : isMarker b = true := hm
      rw [isMarker_iff] at hb
      simp only [mem_cons, not_mem_nil, or_false] at hb
      rcases hb with rfl | rfl | rfl | rfl | rfl | rfl | rfl | rfl | rfl
      · rw [units_ascii_cons (by decide), classifyLine, classifyBy_stderr (by decide), parseLine]
        rw [show stderrMarker.toNat = 0x1F from rfl, classifyBy_stderr (by decide), textKind_units]
      all_goals
        rw [units_ascii_cons (by decide)]
        rfl

end Centaurx.Output
