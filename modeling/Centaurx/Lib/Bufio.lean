import Centaurx.Lib.GoString
import Mathlib.Tactic

namespace Centaurx.Bufio
open Go List

def newline : UInt8 := 0x0A

/-- The lines of a text. The last one may lack its newline, and is not empty then. -/
def lines (s : GoString) : List GoString :=
  if (s.splitOn newline).getLast? = some [] then (s.splitOn newline).dropLast
  else s.splitOn newline

def firstLine (s : GoString) : GoString := s.takeWhile (· ≠ newline)

/-- What is behind the first line and its newline. -/
def afterLine (s : GoString) : GoString := (s.dropWhile (· ≠ newline)).tail

@[simp] theorem lines_nil : lines [] = [] := rfl

theorem newline_notMem_firstLine (s : GoString) : newline ∉ firstLine s := by
  intro h
  simpa using mem_takeWhile_imp h

theorem line_cases (s : GoString) :
    (newline ∉ s ∧ firstLine s = s ∧ afterLine s = []) ∨
      s = firstLine s ++ newline :: afterLine s := by
  have hsplit : firstLine s ++ s.dropWhile (· ≠ newline) = s := takeWhile_append_dropWhile
  cases hrest : s.dropWhile (· ≠ newline) with
  | nil =>
    rw [hrest, append_nil] at hsplit
    refine .inl ⟨?_, hsplit, by rw [afterLine, hrest]; rfl⟩
    rw [← hsplit]
    exact newline_notMem_firstLine s
  | cons b rest =>
    have hb : b = newline := by
      have hhead := head?_dropWhile_not (· ≠ newline) s
      rw [hrest] at hhead
      simpa using hhead
    refine .inr ?_
    rw [afterLine, hrest, tail_cons, ← hb]
    rw [hrest] at hsplit
    exact hsplit.symm

theorem line_of_notMem {s : GoString} (h : newline ∉ s) : firstLine s = s ∧ afterLine s = [] := by
  rcases line_cases s with ⟨-, hs⟩ | hs
  · exact hs
  · rw [hs] at h
    exact absurd (mem_append_right _ mem_cons_self) h

theorem line_of_mem {s : GoString} (h : newline ∈ s) :
    s = firstLine s ++ newline :: afterLine s := by
  rcases line_cases s with ⟨hno, -⟩ | hs
  · exact absurd h hno
  · exact hs

theorem lines_eq {s : GoString} (hne : s ≠ []) : lines s = firstLine s :: lines (afterLine s) := by
  rcases line_cases s with ⟨hno, hfirst, hafter⟩ | hs
  · rw [hfirst, hafter, lines, splitOn_eq_singleton hno, if_neg (by simp [hne]), lines_nil]
  · have hsplit : s.splitOn newline = firstLine s :: (afterLine s).splitOn newline := by
      conv_lhs => rw [hs]
      rw [splitOn_append_cons_self, splitOn_eq_singleton (newline_notMem_firstLine s)]
      rfl
    have hparts : (afterLine s).splitOn newline ≠ [] := splitOn_ne_nil _ _
    rw [lines, hsplit, getLast?_cons_of_ne_nil hparts, dropLast_cons_of_ne_nil hparts,
      lines]
    split_ifs <;> rfl

variable {data : GoString}

theorem firstLine_append_of_notMem (h : newline ∉ data) (more : GoString) :
    firstLine (data ++ more) = data ++ firstLine more := by
  refine takeWhile_append_of_pos fun b hb => ?_
  simpa using ne_of_mem_of_not_mem hb h

theorem afterLine_append_of_notMem (h : newline ∉ data) (more : GoString) :
    afterLine (data ++ more) = afterLine more := by
  rw [afterLine, dropWhile_append_of_pos fun b hb => ?_]
  · rfl
  · simpa using ne_of_mem_of_not_mem hb h

theorem line_append_of_mem (h : newline ∈ data) (more : GoString) :
    firstLine (data ++ more) = firstLine data ∧
      afterLine (data ++ more) = afterLine data ++ more := by
  have hfirst := newline_notMem_firstLine data
  have hsplit : data ++ more = firstLine data ++ newline :: (afterLine data ++ more) := by
    conv_lhs => rw [line_of_mem h]
    rw [append_assoc, cons_append]
  rw [hsplit, firstLine_append_of_notMem hfirst, afterLine_append_of_notMem hfirst]
  exact ⟨append_nil _, rfl⟩

theorem length_afterLine_lt {s : GoString} (hne : s ≠ []) : (afterLine s).length < s.length := by
  rcases line_cases s with ⟨-, -, hafter⟩ | hs
  · rw [hafter]
    exact length_pos_of_ne_nil hne
  · have hlen := congrArg length hs
    rw [length_append, length_cons] at hlen
    omega

/-- `bytes.IndexByte` for a newline. -/
def indexByte (data : GoString) : Option ℕ := data.findIdx? (· = newline)

theorem notMem_of_indexByte (h : indexByte data = none) : newline ∉ data := by
  intro hmem
  simpa using findIdx?_eq_none_iff.mp h newline hmem

theorem line_of_indexByte {i : ℕ} (h : indexByte data = some i) :
    newline ∈ data ∧ data.take i = firstLine data ∧ data.drop (i + 1) = afterLine data := by
  obtain ⟨hlt, hi⟩ := findIdx?_eq_some_iff_findIdx_eq.mp h
  have hnot : (fun b : UInt8 => !decide (b ≠ newline)) = fun b => decide (b = newline) := by
    funext b
    simp
  refine ⟨?_, ?_, ?_⟩
  · by_contra hno
    rw [findIdx_eq_length_of_false fun b hb => ?_] at hi
    · omega
    · simpa using ne_of_mem_of_not_mem hb hno
  · rw [firstLine, takeWhile_eq_take_findIdx_not, hnot, hi]
  · rw [afterLine, dropWhile_eq_drop_findIdx_not, hnot, hi, tail_drop]

/-- What one read returns at most. -/
structure Chunk where
  bytes : GoString
  ne : bytes ≠ []

/-- What a reader still gives, piece by piece, and the end of the file behind it. -/
structure Source where
  chunks : List Chunk

namespace Source

def bytes (r : Source) : GoString := r.chunks.flatMap Chunk.bytes

/-- A read into so much space. -/
def read (space : ℕ) (r : Source) : Option (GoString × Source) :=
  match r.chunks with
  | [] => none
  | c :: cs =>
    if h : c.bytes.length ≤ space then some (c.bytes, ⟨cs⟩)
    else some (c.bytes.take space,
      ⟨⟨c.bytes.drop space, fun hnil => h (drop_eq_nil_iff.mp hnil)⟩ :: cs⟩)

variable {r r' : Source} {space : ℕ} {got : GoString}

theorem bytes_of_read_none (h : r.read space = none) : r.bytes = [] := by
  obtain ⟨chunks⟩ := r
  cases chunks with
  | nil => rfl
  | cons c cs =>
    simp only [read] at h
    split_ifs at h

theorem length_le_of_read (h : r.read space = some (got, r')) : got.length ≤ space := by
  obtain ⟨chunks⟩ := r
  cases chunks with
  | nil => cases h
  | cons c cs =>
    simp only [read] at h
    split_ifs at h with hfits
    · cases h
      exact hfits
    · cases h
      exact length_take_le _ _

theorem bytes_of_read_some (h : r.read space = some (got, r')) (hspace : 0 < space) :
    got ≠ [] ∧ r.bytes = got ++ r'.bytes := by
  obtain ⟨chunks⟩ := r
  cases chunks with
  | nil => cases h
  | cons c cs =>
    simp only [read] at h
    split_ifs at h with hfits
    · cases h
      exact ⟨c.ne, flatMap_cons⟩
    · cases h
      refine ⟨fun hnil => ?_, ?_⟩
      · rcases take_eq_nil_iff.mp hnil with hzero | hempty
        · omega
        · exact c.ne hempty
      · simp only [bytes, flatMap_cons]
        rw [← append_assoc, take_append_drop]

end Source

def dropCR (line : GoString) : GoString :=
  if line.getLast? = some 0x0D then line.dropLast else line

/-- `ScanLines`: how far to advance, and the line. -/
def scanLines (data : GoString) (atEOF : Bool) : Option (ℕ × GoString) :=
  if atEOF ∧ data = [] then none
  else
    match indexByte data with
    | some i => some (i + 1, dropCR (data.take i))
    | none => if atEOF then some (data.length, dropCR data) else none

inductive ScanError
  | eof
  | tooLong
  deriving DecidableEq

/-- A `Scanner` with the data in its buffer that is not used yet. The buffer grows up to a limit. -/
structure Scanner where
  source : Source
  limit : ℕ
  data : GoString := []
  err : Option ScanError := none

namespace Scanner

variable (s : Scanner)

def advance (n : ℕ) : Scanner := { s with data := s.data.drop n }

def read : Scanner :=
  match s.source.read (s.limit - s.data.length) with
  | none => { s with err := some .eof }
  | some (got, rest) => { s with source := rest, data := s.data ++ got }

/-- What is still to come. -/
def ahead : GoString := s.data ++ s.source.bytes

/-- How many times a scanner can read at most. -/
def left : ℕ := s.source.bytes.length + if s.err = none then 1 else 0

variable {s} {s' : Scanner}

theorem read_cases (hroom : ¬s.limit ≤ s.data.length) :
    (s.source.bytes = [] ∧ s.read = { s with err := some .eof }) ∨
      ∃ got rest, got ≠ [] ∧ s.data.length + got.length ≤ s.limit ∧
        s.source.bytes = got ++ rest.bytes ∧
        s.read = { s with source := rest, data := s.data ++ got } := by
  cases hread : s.source.read (s.limit - s.data.length) with
  | none => exact .inl ⟨Source.bytes_of_read_none hread, by rw [read, hread]⟩
  | some r =>
    obtain ⟨got, rest⟩ := r
    obtain ⟨hgot, hbytes⟩ := Source.bytes_of_read_some hread (by omega)
    have hlen := Source.length_le_of_read hread
    exact .inr ⟨got, rest, hgot, by omega, hbytes, by rw [read, hread]⟩

theorem read_left_lt (hroom : ¬s.limit ≤ s.data.length) (herr : s.err = none) :
    s.read.left < s.left := by
  rcases read_cases hroom with ⟨hend, hread⟩ | ⟨got, rest, hgot, -, hbytes, hread⟩
  · simp [hread, left, hend, herr]
  · have hpos := length_pos_of_ne_nil hgot
    simp only [hread, left, hbytes, length_append]
    omega

theorem read_ahead (hroom : ¬s.limit ≤ s.data.length) : s.read.ahead = s.ahead := by
  rcases read_cases hroom with ⟨-, hread⟩ | ⟨got, rest, -, -, hbytes, hread⟩
  · rw [hread]
    rfl
  · simp only [hread, ahead, hbytes, append_assoc]

theorem read_limit (s : Scanner) : s.read.limit = s.limit := by
  rw [read]
  split <;> rfl

/-- `Scan`, with the text of the token. -/
def scan (s : Scanner) : Option GoString × Scanner :=
  match scanLines s.data (s.err ≠ none) with
  | some (n, token) => (some token, s.advance n)
  | none =>
    if herr : s.err = none then
      if hfull : s.limit ≤ s.data.length then (none, { s with err := some .tooLong })
      else
        have := read_left_lt hfull herr
        s.read.scan
    else (none, { s with data := [] })
termination_by s.left

theorem scanLines_some {data : GoString} {atEOF : Bool} {n : ℕ} {token : GoString}
    (h : scanLines data atEOF = some (n, token)) :
    data ≠ [] ∧ token = dropCR (firstLine data) ∧ data.drop n = afterLine data ∧
      (newline ∈ data ∨ atEOF = true) := by
  rw [scanLines] at h
  by_cases hend : atEOF = true ∧ data = []
  · rw [if_pos hend] at h
    cases h
  rw [if_neg hend] at h
  cases hidx : indexByte data with
  | some i =>
    rw [hidx] at h
    obtain ⟨rfl, rfl⟩ := Prod.mk.inj (Option.some.inj h)
    obtain ⟨hmem, hfirst, hafter⟩ := line_of_indexByte hidx
    exact ⟨ne_nil_of_mem hmem, by rw [hfirst], hafter, .inl hmem⟩
  | none =>
    rw [hidx] at h
    dsimp only at h
    have heof : atEOF = true := by
      by_contra heof
      rw [if_neg heof] at h
      cases h
    rw [if_pos heof] at h
    obtain ⟨rfl, rfl⟩ := Prod.mk.inj (Option.some.inj h)
    obtain ⟨hfirst, hafter⟩ := line_of_notMem (notMem_of_indexByte hidx)
    exact ⟨fun hnil => hend ⟨heof, hnil⟩, by rw [hfirst], by rw [hafter, drop_length],
      .inr heof⟩

theorem scanLines_none {data : GoString} {atEOF : Bool} (h : scanLines data atEOF = none) :
    newline ∉ data ∧ (atEOF = true → data = []) := by
  rw [scanLines] at h
  by_cases hend : atEOF = true ∧ data = []
  · rw [hend.2]
    exact ⟨not_mem_nil, fun _ => rfl⟩
  rw [if_neg hend] at h
  cases hidx : indexByte data with
  | some i =>
    rw [hidx] at h
    cases h
  | none =>
    refine ⟨notMem_of_indexByte hidx, fun heof => ?_⟩
    rw [hidx] at h
    dsimp only at h
    rw [if_pos heof] at h
    cases h

/-- Nothing has gone wrong so far. -/
structure Ok (s : Scanner) : Prop where
  short : s.err ≠ some .tooLong
  fits : s.data.length ≤ s.limit
  ended : s.err = some .eof → s.source.bytes = [] ∧ s.data.length < s.limit

theorem Ok.err_eq (h : s.Ok) (hne : s.err ≠ none) : s.err = some .eof := by
  cases herr : s.err with
  | none => exact absurd herr hne
  | some err =>
    cases err with
    | eof => rfl
    | tooLong => exact absurd herr h.short

theorem Ok.read (herr : s.err = none) (hroom : ¬s.limit ≤ s.data.length) : s.read.Ok := by
  rcases read_cases hroom with ⟨hend, hread⟩ | ⟨got, rest, -, hlen, -, hread⟩
  · rw [hread]
    exact ⟨nofun, by dsimp only; omega, fun _ => ⟨hend, by dsimp only; omega⟩⟩
  · rw [hread]
    refine ⟨by simp [herr], by simpa using hlen, fun heof => ?_⟩
    rw [show s.err = some .eof from heof] at herr
    cases herr

/-- How a call of `Scan` can end, by what was to come before it. -/
inductive Scans (limit : ℕ) (ahead : GoString) : Option GoString × Scanner → Prop
  | line (s' : Scanner) (hne : ahead ≠ []) (hshort : (firstLine ahead).length < limit)
      (hok : s'.Ok) (hlimit : s'.limit = limit) (hahead : s'.ahead = afterLine ahead) :
      Scans limit ahead (some (dropCR (firstLine ahead)), s')
  | tooLong (s' : Scanner) (hlong : limit ≤ (firstLine ahead).length)
      (herr : s'.err = some .tooLong) (hsource : s'.source.bytes = ahead.drop limit) :
      Scans limit ahead (none, s')
  | eof (s' : Scanner) (hend : ahead = []) (herr : s'.err = some .eof)
      (hsource : s'.source.bytes = []) : Scans limit ahead (none, s')

theorem scans_advance (h : s.Ok) {n : ℕ} {token : GoString}
    (hlines : scanLines s.data (s.err ≠ none) = some (n, token)) :
    Scans s.limit s.ahead (some token, s.advance n) := by
  obtain ⟨hne, rfl, hdrop, hend⟩ := scanLines_some hlines
  have hsize := h.fits
  have hle : (s.advance n).data.length ≤ s.data.length := (drop_sublist _ _).length_le
  have hok : (s.advance n).Ok :=
    ⟨h.short, hle.trans h.fits, fun heof =>
      ⟨(h.ended heof).1, hle.trans_lt (h.ended heof).2⟩⟩
  have hahead : s.ahead ≠ [] := append_ne_nil_of_left_ne_nil hne _
  have hnext : (s.advance n).ahead = afterLine s.data ++ s.source.bytes := by
    rw [← hdrop]
    rfl
  rcases hend with hmem | heof
  · obtain ⟨hfirst, hafter⟩ := line_append_of_mem hmem s.source.bytes
    have hlen := congrArg length (line_of_mem hmem)
    rw [length_append, length_cons] at hlen
    rw [← hfirst]
    exact .line _ hahead (by rw [ahead, hfirst]; omega) hok rfl (hnext.trans hafter.symm)
  · obtain ⟨hsource, hlt⟩ := h.ended (h.err_eq (of_decide_eq_true heof))
    have hall : s.ahead = s.data := by rw [ahead, hsource, append_nil]
    have hfirst : (firstLine s.data).length ≤ s.data.length := (takeWhile_sublist _).length_le
    rw [hsource, append_nil] at hnext
    rw [← hall]
    exact .line _ hahead (by rw [hall]; omega) hok rfl (by rw [hnext, hall])

theorem scan_spec (h : s.Ok) : Scans s.limit s.ahead s.scan := by
  fun_induction scan s with
  | case1 s n token hlines => exact scans_advance h hlines
  | case2 s hlines herr hfull =>
    obtain ⟨hno, -⟩ := scanLines_none hlines
    have hlen := h.fits.antisymm hfull
    refine .tooLong _ ?_ rfl ?_
    · rw [ahead, firstLine_append_of_notMem hno, length_append]
      omega
    · rw [ahead, ← hlen, drop_left]
  | case3 s hlines herr hfull hlt ih =>
    rw [← read_ahead hfull, ← read_limit s]
    exact ih (.read herr hfull)
  | case4 s hlines herr =>
    obtain ⟨-, hnil⟩ := scanLines_none hlines
    have heof := h.err_eq herr
    have hsource := (h.ended heof).1
    refine .eof _ ?_ heof hsource
    rw [ahead, hnil (decide_eq_true herr), hsource]
    rfl

theorem scan_ahead_lt {token : GoString} (h : s.scan = (some token, s')) :
    s'.ahead.length < s.ahead.length := by
  fun_induction scan s with
  | case1 s n token' hlines =>
    obtain ⟨hne, -, hdrop, -⟩ := scanLines_some hlines
    have hlt := length_afterLine_lt hne
    cases h
    simp only [ahead, advance, hdrop, length_append]
    omega
  | case2 => cases h
  | case3 s hlines herr hfull hlt ih =>
    rw [← read_ahead hfull]
    exact ih h
  | case4 => cases h

/-- The texts of a loop `for scanner.Scan()`, and the scanner after it. -/
def texts (s : Scanner) : List GoString × Scanner :=
  match h : s.scan with
  | (none, s') => ([], s')
  | (some text, s') =>
    have := scan_ahead_lt h
    (text :: s'.texts.1, s'.texts.2)
termination_by s.ahead.length

theorem texts_of_long (h : s.Ok) (hlong : s.limit ≤ (firstLine s.ahead).length)
    (hne : s.ahead ≠ []) : s.texts.1 = [] ∧ s.texts.2.err = some .tooLong ∧
      s.texts.2.source.bytes = s.ahead.drop s.limit := by
  have hscans := scan_spec h
  fun_cases texts s with
  | case1 s' hscan =>
    rw [hscan] at hscans
    cases hscans with
    | tooLong _ _ herr hsource => exact ⟨rfl, herr, hsource⟩
    | eof _ hend => exact absurd hend hne
  | case2 text s' hscan hlt =>
    rw [hscan] at hscans
    cases hscans with
    | line _ _ hshort => omega

/-- The loop gets the lines up to the first one that is too long. -/
theorem texts_spec (h : s.Ok) (hpos : 0 < s.limit) :
    s.texts.1 = ((lines s.ahead).takeWhile (·.length < s.limit)).map dropCR ∧
      if ∀ line ∈ lines s.ahead, line.length < s.limit then
        s.texts.2.err = some .eof ∧ s.texts.2.source.bytes = []
      else s.texts.2.err = some .tooLong := by
  fun_induction texts s with
  | case1 s s' hscan =>
    have hscans := scan_spec h
    rw [hscan] at hscans
    cases hscans with
    | tooLong _ hlong herr hsource =>
      have hne : s.ahead ≠ [] := fun hnil => by
        rw [hnil] at hlong
        exact absurd hlong (Nat.not_le_of_lt hpos)
      have hno : ¬∀ line ∈ lines s.ahead, line.length < s.limit := fun hall => by
        have hfirst := hall (firstLine s.ahead) (by rw [lines_eq hne]; exact mem_cons_self)
        omega
      rw [if_neg hno, lines_eq hne, takeWhile_cons_of_neg (by simpa using hlong)]
      exact ⟨rfl, herr⟩
    | eof _ hend herr hsource =>
      rw [hend, lines_nil, if_pos fun line hline => absurd hline not_mem_nil]
      exact ⟨rfl, herr, hsource⟩
  | case2 s text s' hscan hlt ih =>
    have hscans := scan_spec h
    rw [hscan] at hscans
    cases hscans with
    | line _ hne hshort hok hlimit hahead =>
      obtain ⟨htexts, hend⟩ := ih hok (hlimit ▸ hpos)
      rw [hahead, hlimit] at htexts hend
      have hall : (∀ line ∈ lines s.ahead, line.length < s.limit) ↔
          ∀ line ∈ lines (afterLine s.ahead), line.length < s.limit := by
        rw [lines_eq hne, forall_mem_cons]
        exact and_iff_right hshort
      rw [if_congr hall rfl rfl, lines_eq hne,
        takeWhile_cons_of_pos (by simpa using hshort), map_cons, htexts]
      exact ⟨rfl, hend⟩

end Scanner

/-- A `Reader` with the data in its buffer that is not used yet. -/
structure Reader where
  source : Source
  data : GoString := []

namespace Reader

/-- What is still to come. -/
def ahead (b : Reader) : GoString := b.data ++ b.source.bytes

/-- The loop of `ReadBytes`: read until there is a newline. -/
def readFrom : List Chunk → GoString → GoString × Bool × Reader
  | [], data =>
    match indexByte data with
    | some i => (data.take (i + 1), false, ⟨⟨[]⟩, data.drop (i + 1)⟩)
    | none => (data, true, ⟨⟨[]⟩, []⟩)
  | c :: cs, data =>
    match indexByte data with
    | some i => (data.take (i + 1), false, ⟨⟨c :: cs⟩, data.drop (i + 1)⟩)
    | none => readFrom cs (data ++ c.bytes)

/-- `ReadBytes` for a newline: the bytes, and whether they end because of the end of the file. -/
def readBytes (b : Reader) : GoString × Bool × Reader := readFrom b.source.chunks b.data

/-- How a call of `ReadBytes` can end, by what was to come before it. -/
inductive Gets (ahead : GoString) : GoString × Bool × Reader → Prop
  | line (b' : Reader) (hmem : newline ∈ ahead) (hahead : b'.ahead = afterLine ahead) :
      Gets ahead (firstLine ahead ++ [newline], false, b')
  | eof (b' : Reader) (hno : newline ∉ ahead) (hahead : b'.ahead = []) :
    Gets ahead (ahead, true, b')

theorem gets_line {data : GoString} {i : ℕ} (h : indexByte data = some i) (source : Source) :
    Gets (data ++ source.bytes) (data.take (i + 1), false, ⟨source, data.drop (i + 1)⟩) := by
  obtain ⟨hmem, -, hdrop⟩ := line_of_indexByte h
  obtain ⟨hfirst, hafter⟩ := line_append_of_mem hmem source.bytes
  have htext : data.take (i + 1) ++ afterLine data =
      firstLine (data ++ source.bytes) ++ [newline] ++ afterLine data := by
    rw [← hdrop, take_append_drop, hdrop, hfirst, append_assoc]
    exact line_of_mem hmem
  rw [append_cancel_right htext]
  exact .line _ (mem_append_left _ hmem) (by rw [ahead, hdrop, hafter])

theorem readFrom_spec (cs : List Chunk) (data : GoString) :
    Gets (data ++ Source.bytes ⟨cs⟩) (readFrom cs data) := by
  fun_induction readFrom cs data with
  | case1 data i h => exact gets_line h ⟨[]⟩
  | case2 data h =>
    have hall : data ++ Source.bytes ⟨[]⟩ = data := append_nil _
    rw [hall]
    exact .eof _ (notMem_of_indexByte h) rfl
  | case3 c cs data i h => exact gets_line h ⟨c :: cs⟩
  | case4 c cs data h ih =>
    rw [append_assoc] at ih
    exact ih

theorem readBytes_spec (b : Reader) : Gets b.ahead b.readBytes := readFrom_spec _ _

theorem readBytes_append (b : Reader) :
    b.readBytes.1 ++ b.readBytes.2.2.ahead = b.ahead ∧
      (b.readBytes.2.1 = false → b.readBytes.1 ≠ []) := by
  have hgets := readBytes_spec b
  generalize b.readBytes = result at hgets
  cases hgets with
  | line b' hmem hahead =>
    refine ⟨?_, fun _ => append_ne_nil_of_right_ne_nil _ (cons_ne_nil _ _)⟩
    rw [hahead, append_assoc]
    exact (line_of_mem hmem).symm
  | eof b' hno hahead => exact ⟨by rw [hahead, append_nil], fun heof => by cases heof⟩

end Reader

end Centaurx.Bufio
