import Centaurx.Codex.Stream
import Centaurx.RunnerGrpc.Protocol

namespace Centaurx.RunnerGrpc
open Go Bufio Codex List

/-- The outputs of a stream. -/
def readCommandStream (kind : PB.StreamKind) (source : Source) : List PB.CommandOutput :=
  (newScanner source).texts.1.map (PB.CommandOutput.mk kind)

/-- What a scanner never reads. -/
def unread (source : Source) : GoString := (newScanner source).texts.2.source.bytes

theorem newScanner_ok (source : Source) : (newScanner source).Ok :=
  ⟨fun herr => (by cases herr), Nat.zero_le _, fun heof => (by cases heof)⟩

theorem newScanner_texts (source : Source) :
    (newScanner source).texts.1 =
        ((lines source.bytes).takeWhile (·.length < 1024 * 1024)).map dropCR ∧
      if ∀ line ∈ lines source.bytes, line.length < 1024 * 1024 then
        (newScanner source).texts.2.err = some .eof ∧ unread source = []
      else (newScanner source).texts.2.err = some .tooLong := by
  have hlimit : (newScanner source).limit = 1024 * 1024 := rfl
  have hspec := Scanner.texts_spec (newScanner_ok source) (by rw [hlimit]; decide)
  rw [hlimit] at hspec
  exact hspec

theorem short_of_takeWhile {ls : List GoString} {n : ℕ} {f g : GoString → PB.CommandOutput}
    (h : (ls.takeWhile (·.length < n)).map f = ls.map g) : ∀ line ∈ ls, line.length < n := by
  have hlen := congrArg length h
  rw [length_map, length_map] at hlen
  have hall := ( takeWhile_prefix _).eq_of_length hlen
  simpa using takeWhile_eq_self_iff.mp hall

/-- Every line is sent, with its text, and the stream is read to its end, if and only if every line
is shorter than the limit. The same is so for the messages of codex, where empty lines are left
out. -/
theorem lines_complete_iff (kind : PB.StreamKind) (chunks : List Chunk) :
    (readCommandStream kind ⟨chunks⟩ =
        (lines (chunks.flatMap Chunk.bytes)).map (fun line => ⟨kind, dropCR line⟩) ∧
      unread ⟨chunks⟩ = [] ↔
        ∀ line ∈ lines (chunks.flatMap Chunk.bytes), line.length < 1024 * 1024) ∧
    ((readStderr ⟨chunks⟩).1 = (((lines (chunks.flatMap Chunk.bytes)).map dropCR).filter
          (· ≠ [])).map errorEvent ∧
      (readStderr ⟨chunks⟩).2 = none ∧ unread ⟨chunks⟩ = [] ↔
        ∀ line ∈ lines (chunks.flatMap Chunk.bytes), line.length < 1024 * 1024) := by
  obtain ⟨htexts, hend⟩ := newScanner_texts ⟨chunks⟩
  have hbytes : (Source.mk chunks).bytes = chunks.flatMap Chunk.bytes := rfl
  rw [hbytes] at htexts hend
  by_cases hshort : ∀ line ∈ lines (chunks.flatMap Chunk.bytes), line.length < 1024 * 1024
  · have hall : (lines (chunks.flatMap Chunk.bytes)).takeWhile (·.length < 1024 * 1024) =
        lines (chunks.flatMap Chunk.bytes) :=
      takeWhile_eq_self_iff.mpr (by simpa using hshort)
    rw [if_pos hshort] at hend
    rw [hall] at htexts
    refine ⟨iff_of_true ⟨?_, hend.2⟩ hshort, iff_of_true ⟨?_, ?_, hend.2⟩ hshort⟩
    · rw [readCommandStream, htexts, map_map]
      rfl
    · rw [readStderr, htexts]
    · rw [readStderr, hend.1]
      rfl
  · rw [if_neg hshort] at hend
    refine ⟨iff_of_false (fun h => hshort ?_) hshort, iff_of_false (fun h => ?_) hshort⟩
    · have houtputs := h.1
      rw [readCommandStream, htexts, map_map] at houtputs
      exact short_of_takeWhile houtputs
    · have herr := h.2.1
      rw [readStderr, hend] at herr
      cases herr

/-- A line of some length, and another one. -/
def longLine (n : ℕ) : Chunk where
  bytes := replicate n 0x78 ++ newline :: lit "end\n"
  ne := append_ne_nil_of_right_ne_nil _ (cons_ne_nil _ _)

theorem line_longLine (n : ℕ) : firstLine (longLine n).bytes = replicate n 0x78 ∧
    afterLine (longLine n).bytes = lit "end\n" := by
  have hno : newline ∉ replicate n (0x78 : UInt8) := fun hmem =>
    absurd (eq_of_mem_replicate hmem) (by decide)
  have hempty : firstLine (newline :: lit "end\n") = [] := rfl
  refine ⟨?_, afterLine_append_of_notMem hno _⟩
  rw [longLine, firstLine_append_of_notMem hno, hempty, append_nil]

theorem texts_longLine {n : ℕ} (h : (newScanner ⟨[longLine n]⟩).limit = n) :
    (newScanner ⟨[longLine n]⟩).texts.1 = [] ∧
      (newScanner ⟨[longLine n]⟩).texts.2.err = some .tooLong ∧
      unread ⟨[longLine n]⟩ = lit "\nend\n" := by
  have hahead : (newScanner ⟨[longLine n]⟩).ahead = (longLine n).bytes := append_nil _
  have hlong : (newScanner ⟨[longLine n]⟩).limit ≤
      (firstLine (newScanner ⟨[longLine n]⟩).ahead).length := by
    rw [h, hahead, (line_longLine n).1, length_replicate]
  obtain ⟨htexts, herr, hsource⟩ := Scanner.texts_of_long (newScanner_ok _) hlong
    (by rw [hahead]; exact (longLine n).ne)
  refine ⟨htexts, herr, ?_⟩
  rw [unread, hsource, h, hahead, longLine, drop_left' length_replicate]
  rfl

/-- Neither of the two lines is sent, and the second one is not even read. -/
theorem long_line_lost : (lines (longLine (1024 * 1024)).bytes).length = 2 ∧
    readCommandStream .stdout ⟨[longLine (1024 * 1024)]⟩ = [] ∧
    readStderr ⟨[longLine (1024 * 1024)]⟩ = ([], some .tooLong) ∧
    unread ⟨[longLine (1024 * 1024)]⟩ = lit "\nend\n" := by
  obtain ⟨htexts, herr, hunread⟩ := texts_longLine (n := 1024 * 1024) rfl
  refine ⟨?_, ?_, ?_, hunread⟩
  · rw [lines_eq (longLine _).ne, (line_longLine _).2]
    rfl
  · rw [readCommandStream, htexts, map_nil]
  · rw [readStderr, htexts, herr]
    rfl

end Centaurx.RunnerGrpc
