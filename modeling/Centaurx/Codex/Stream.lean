import Centaurx.Lib.Bufio
import Centaurx.RunnerGrpc.Convert

namespace Centaurx.Codex
open Go Bufio Output RunnerGrpc List

/-- What `json.Unmarshal` makes of a line: the members of an object, and an event. -/
structure Json where
  object : GoString → Except GoString (GoString → Option GoString)
  event : GoString → Except GoString RunnerGrpc.ExecEvent

def decodeEvent (json : Json) (line : GoString) : Except GoString RunnerGrpc.ExecEvent :=
  match json.object line with
  | .error err => .error err
  | .ok raw =>
    match json.event line with
    | .error err => .error err
    | .ok event =>
      match raw (lit "item"), event.item with
      | some itemRaw, some item =>
        .ok { event with raw := line, item := some { item with raw := itemRaw } }
      | _, _ => .ok { event with raw := line }

def errorEvent (message : GoString) : RunnerGrpc.ExecEvent := { type := .error, message := message }

inductive StreamError
  | eof
  /-- The context is done. -/
  | context (err : GoString)
  | decode (line err : GoString)

structure JsonlStream where
  reader : Reader
  /-- How many times the context was asked. -/
  asked : ℕ := 0

def newJSONLStream (source : Source) : JsonlStream where
  reader := { source := source }

theorem readBytes_lt {b : Reader} (h : b.readBytes.1 ≠ []) :
    b.readBytes.2.2.ahead.length < b.ahead.length := by
  have hpos := length_pos_of_ne_nil h
  rw [← (Reader.readBytes_append b).1, length_append]
  omega

section

variable (json : Json) (ctx : ℕ → Option GoString)

/-- `Next` of the lines; the context gives its answers in order. -/
def JsonlStream.next (s : JsonlStream) :
    Except StreamError RunnerGrpc.ExecEvent × JsonlStream :=
  match ctx s.asked with
  | some err => (.error (.context err), { s with asked := s.asked + 1 })
  | none =>
    let line := s.reader.readBytes.1
    let s' : JsonlStream := ⟨s.reader.readBytes.2.2, s.asked + 1⟩
    if s.reader.readBytes.2.1 = true ∧ line = [] then (.error .eof, s')
    else if trimSpace line = [] then
      if heof : s.reader.readBytes.2.1 = true then (.error .eof, s')
      else
        have := readBytes_lt ((Reader.readBytes_append s.reader).2 (Bool.eq_false_iff.mpr heof))
        JsonlStream.next s'
    else
      match decodeEvent json (trimSpace line) with
      | .error err => (.error (.decode (trimSpace line) err), s')
      | .ok event => (.ok event, s')
termination_by s.reader.ahead.length

/-- The stream can be asked again. -/
def goesOn : Except StreamError RunnerGrpc.ExecEvent → Bool
  | .ok _ | .error (.decode ..) => true
  | .error .eof | .error (.context _) => false

theorem JsonlStream.next_lt (s : JsonlStream) (h : goesOn (s.next json ctx).1 = true) :
    (s.next json ctx).2.reader.ahead.length < s.reader.ahead.length := by
  fun_induction JsonlStream.next json ctx s with
  | case1 | case2 | case3 => cases h
  | case4 s hctx line s' hend hblank heof hlt ih => exact (ih h).trans hlt
  | case5 s hctx line s' hend hblank err hdecode | case6 s hctx line s' hend hblank event hdecode =>
    exact readBytes_lt fun hnil => hblank (by rw [show line = [] from hnil]; rfl)

/-- The events that are sent, and the error of the stream. -/
def readJSON (s : JsonlStream) : List RunnerGrpc.ExecEvent × Option StreamError :=
  match h : (s.next json ctx).1 with
  | .ok event =>
    have := s.next_lt json ctx (by rw [h]; rfl)
    (event :: (readJSON (s.next json ctx).2).1, (readJSON (s.next json ctx).2).2)
  | .error (.decode line err) =>
    have := s.next_lt json ctx (by rw [h]; rfl)
    if trimSpace line ≠ [] then
      (errorEvent (trimSpace line) :: (readJSON (s.next json ctx).2).1,
        (readJSON (s.next json ctx).2).2)
    else ([], some (.decode line err))
  | .error .eof => ([], none)
  | .error (.context _) => ([], none)
termination_by s.reader.ahead.length

end

/-- The `Scanner` for messages, which is that for the output of commands as well. -/
def newScanner (source : Source) : Scanner where
  source := source
  limit := 1024 * 1024

/-- The events that are sent, and the error of the stream. -/
def readStderr (source : Source) : List RunnerGrpc.ExecEvent × Option ScanError :=
  (((newScanner source).texts.1.filter (· ≠ [])).map errorEvent,
    -- `Err` of a `Scanner` is nil at the end of the file
    (newScanner source).texts.2.err.filter (· ≠ .eof))

/-- The lines that are not blank, without white space around them. -/
def texts (data : GoString) : List GoString := ((lines data).map trimSpace).filter (· ≠ [])

theorem texts_eq (data : GoString) : texts data =
    if trimSpace (firstLine data) = [] then texts (afterLine data)
    else trimSpace (firstLine data) :: texts (afterLine data) := by
  by_cases hne : data = []
  · rw [hne]
    rfl
  · rw [texts, lines_eq hne, map_cons, filter_cons]
    by_cases hblank : trimSpace (firstLine data) = []
    · rw [if_neg (by simp [hblank]), if_pos hblank, texts]
    · rw [if_pos (by simp [hblank]), if_neg hblank, texts]

theorem readBytes_line (b : Reader) : b.readBytes.2.2.ahead = afterLine b.ahead ∧
    trimSpace b.readBytes.1 = trimSpace (firstLine b.ahead) ∧
    (b.readBytes.2.1 = true → afterLine b.ahead = []) := by
  have hgets := Reader.readBytes_spec b
  generalize b.readBytes = result at hgets
  cases hgets with
  | line b' hmem hahead =>
    exact ⟨hahead, trimSpace_append_newline _, fun heof => by cases heof⟩
  | eof b' hno hahead =>
    obtain ⟨hfirst, hafter⟩ := line_of_notMem hno
    exact ⟨by rw [hahead, hafter], by rw [hfirst], fun _ => hafter⟩

/-- How a call of `Next` can end, by the lines that are left. -/
inductive Nexts (json : Json) (todo : List GoString) :
    Except StreamError RunnerGrpc.ExecEvent × JsonlStream → Prop
  | eof (s : JsonlStream) (hend : todo = []) : Nexts json todo (.error .eof, s)
  | ok (text : GoString) (event : RunnerGrpc.ExecEvent) (s : JsonlStream)
      (htodo : todo = text :: texts s.reader.ahead) (hdecode : decodeEvent json text = .ok event) :
      Nexts json todo (.ok event, s)
  | failed (text err : GoString) (s : JsonlStream) (htodo : todo = text :: texts s.reader.ahead)
      (htrim : trimSpace text = text) (hne : text ≠ [])
      (hdecode : decodeEvent json text = .error err) :
      Nexts json todo (.error (.decode text err), s)

theorem next_spec (json : Json) (s : JsonlStream) :
    Nexts json (texts s.reader.ahead) (s.next json fun _ => none) := by
  fun_induction JsonlStream.next json (fun _ => none) s with
  | case1 s err hctx => cases hctx
  | case2 s hctx line s' hend =>
    obtain ⟨-, htrim, hafter⟩ := readBytes_line s.reader
    have hblank : trimSpace (firstLine s.reader.ahead) = [] := by
      rw [← htrim, show s.reader.readBytes.1 = [] from hend.2]
      rfl
    exact .eof _ (by rw [texts_eq, if_pos hblank, hafter hend.1]; rfl)
  | case3 s hctx line s' hend hblank heof =>
    obtain ⟨-, htrim, hafter⟩ := readBytes_line s.reader
    exact .eof _ (by rw [texts_eq, if_pos (htrim.symm.trans hblank), hafter heof]; rfl)
  | case4 s hctx line s' hend hblank heof hlt ih =>
    obtain ⟨hahead, htrim, -⟩ := readBytes_line s.reader
    rwa [texts_eq, if_pos (htrim.symm.trans hblank), ← hahead]
  | case5 s hctx line s' hend hblank err hdecode =>
    obtain ⟨hahead, htrim, -⟩ := readBytes_line s.reader
    refine .failed _ _ _ ?_ (trimSpace_trimSpace _) hblank hdecode
    rw [texts_eq, if_neg fun hnil => hblank (htrim.trans hnil), ← htrim, ← hahead]
  | case6 s hctx line s' hend hblank event hdecode =>
    obtain ⟨hahead, htrim, -⟩ := readBytes_line s.reader
    refine .ok _ _ _ ?_ hdecode
    rw [texts_eq, if_neg fun hnil => hblank (htrim.trans hnil), ← htrim, ← hahead]

/-- The event of a line: what it decodes to, or an error with its text. -/
def lineEvent (json : Json) (text : GoString) : RunnerGrpc.ExecEvent :=
  match decodeEvent json text with
  | .ok event => event
  | .error _ => errorEvent text

theorem readJSON_spec (json : Json) (s : JsonlStream) :
    readJSON json (fun _ => none) s = ((texts s.reader.ahead).map (lineEvent json), none) := by
  have hnexts := next_spec json s
  fun_induction readJSON json (fun _ => none) s with
  | case1 s event hnext hlt ih =>
    specialize ih (next_spec json _)
    generalize s.next json (fun _ => none) = result at hnext hnexts ih
    cases hnexts with
    | eof | failed => cases hnext
    | ok text event' s' htodo hdecode =>
      cases hnext
      rw [ih, htodo, map_cons, lineEvent, hdecode]
  | case2 s line err hnext hlt hne ih =>
    specialize ih (next_spec json _)
    generalize s.next json (fun _ => none) = result at hnext hnexts ih
    cases hnexts with
    | eof | ok => cases hnext
    | failed text err' s' htodo htrim hne' hdecode =>
      cases hnext
      rw [ih, htodo, map_cons, lineEvent, hdecode, htrim]
  | case3 s line err hnext hlt hblank =>
    generalize s.next json (fun _ => none) = result at hnext hnexts
    cases hnexts with
    | eof | ok => cases hnext
    | failed text err' s' htodo htrim hne' hdecode =>
      cases hnext
      exact absurd (by rwa [htrim]) hblank
  | case4 s hnext =>
    generalize s.next json (fun _ => none) = result at hnext hnexts
    cases hnexts with
    | ok | failed => cases hnext
    | eof s' hend => rw [hend, map_nil]
  | case5 s err hnext =>
    generalize s.next json (fun _ => none) = result at hnext hnexts
    cases hnexts <;> cases hnext

/-- Every line of the standard output that is not blank becomes one event, in whatever pieces the
output arrives, and no error is left at its end. -/
theorem readJSON_lines (json : Json) (chunks : List Chunk) :
    readJSON json (fun _ => none) (newJSONLStream ⟨chunks⟩) =
      ((((lines (chunks.flatMap Chunk.bytes)).map trimSpace).filter (· ≠ [])).map fun line =>
        match decodeEvent json line with
        | .ok event => event
        | .error _ => { type := .error, message := line }, none) :=
  readJSON_spec json (newJSONLStream ⟨chunks⟩)

end Centaurx.Codex
