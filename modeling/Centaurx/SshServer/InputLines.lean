import Centaurx.SshServer.RowWidth

namespace Centaurx.SshServer
open Go List

/-- What the loop of `renderInputLines` does not change. -/
structure InputShape where
  prefixVisible : GoString
  prefixWidth : ℕ
  indentWidth : ℕ
  availableFirst : ℕ
  availableOther : ℕ

def inputShape (prompt : GoString) (width : ℕ) : InputShape :=
  let prefixVisible :=
    if visibleWidth prompt > width then trimANSIToWidth prompt width else prompt
  let prefixWidth := visibleWidth prefixVisible
  let indentWidth := prefixWidth
  { prefixVisible, prefixWidth, indentWidth,
    availableFirst := if width - prefixWidth < 1 then 1 else width - prefixWidth
    availableOther := if width - indentWidth < 1 then 1 else width - indentWidth }

structure InputLoop where
  lines : List GoString := []
  lineRunes : List ℕ := []
  row : ℕ := 0
  col : ℕ := 0
  cursorRow : ℕ := 1
  cursorCol : ℕ
  cursorSet : Bool := false
  currentAvailable : ℕ

namespace InputLoop

variable (sh : InputShape) (st : InputLoop)

def start : InputLoop :=
  { cursorCol := sh.prefixWidth + 1, currentAvailable := sh.availableFirst }

def flushLine : InputLoop :=
  let prefixStr := if st.row > 0 then replicate sh.indentWidth 0x20 else sh.prefixVisible
  { st with
    lines := st.lines ++ [prefixStr ++ ofRunes st.lineRunes]
    row := st.row + 1
    lineRunes := []
    col := 0
    currentAvailable := sh.availableOther }

def setCursor : InputLoop :=
  let pfx := if st.row > 0 then sh.indentWidth else sh.prefixWidth
  { st with cursorRow := st.row + 1, cursorCol := pfx + st.col + 1, cursorSet := true }

def push (r : ℕ) : InputLoop := { st with lineRunes := st.lineRunes ++ [r], col := st.col + 1 }

/-- The round for the rune `r` at index `i`. -/
def round (cursor : ℕ) (x : ℕ × ℕ) : InputLoop :=
  let (r, i) := x
  let st := if st.cursorSet = false ∧ i = cursor then st.setCursor sh else st
  if r = 0x0A then st.flushLine sh
  else
    let st := if st.col ≥ st.currentAvailable then st.flushLine sh else st
    st.push r

end InputLoop

structure InputLines where
  lines : List GoString
  cursorRow : ℕ
  cursorCol : ℕ

def renderInputLines (prompt input : GoString) (cursor width : ℕ) : InputLines :=
  let inputRunes := toRunes input
  let cursor := min cursor inputRunes.length
  let width := if width = 0 then visibleWidth prompt + inputRunes.length + 1 else width
  let sh := inputShape prompt width
  let st := inputRunes.zipIdx.foldl (InputLoop.round sh · cursor ·) (.start sh)
  let st := if st.cursorSet = false ∧ cursor = inputRunes.length then st.setCursor sh else st
  let st := st.flushLine sh
  let cursorCol := if st.cursorCol < 1 then 1 else st.cursorCol
  ⟨st.lines, st.cursorRow, if cursorCol > width then width else cursorCol⟩

/-- The rows that a line of `n` runes needs. -/
def wrappedRows (avail n : ℕ) : ℕ := max 1 ((n + avail - 1) / avail)

/-- The rows that a text needs. -/
def inputRows (avail : ℕ) (rs : List ℕ) : ℕ :=
  ((rs.splitOn 0x0A).map fun l => wrappedRows avail l.length).sum

/-- The rows that a text needs behind `col` runes of the current row. -/
def rowsFrom (avail col : ℕ) (rs : List ℕ) : ℕ :=
  wrappedRows avail (col + ((rs.splitOn 0x0A).headD []).length) +
    (((rs.splitOn 0x0A).tail).map fun l => wrappedRows avail l.length).sum

theorem wrappedRows_of_le {avail n : ℕ} (h : n ≤ avail) : wrappedRows avail n = 1 := by
  have hdiv : (n + avail - 1) / avail ≤ 1 := by
    rcases Nat.eq_zero_or_pos avail with rfl | hpos
    · simp
    · exact Nat.lt_succ_iff.mp (Nat.div_lt_of_lt_mul (by omega))
  exact max_eq_left hdiv

theorem wrappedRows_add {avail n : ℕ} (hpos : 0 < avail) (hn : 0 < n) :
    wrappedRows avail (avail + n) = 1 + wrappedRows avail n := by
  have hsplit : avail + n + avail - 1 = (n + avail - 1) + avail := by omega
  have hone : 1 ≤ (n + avail - 1) / avail := (Nat.one_le_div_iff hpos).mpr (by omega)
  rw [wrappedRows, wrappedRows, hsplit, Nat.add_div_right _ hpos]
  omega

theorem splitOn_newline (rs : List ℕ) : (0x0A :: rs).splitOn 0x0A = [] :: rs.splitOn 0x0A := by
  simp [splitOn, splitOnP_cons_eq_if_modifyHead]

theorem splitOn_cons {r : ℕ} (hr : r ≠ 0x0A) (rs : List ℕ) :
    (r :: rs).splitOn 0x0A = (rs.splitOn 0x0A).modifyHead (cons r) := by
  simp [splitOn, splitOnP_cons_eq_if_modifyHead, hr]

variable {avail col : ℕ}

theorem inputRows_eq (rs : List ℕ) : inputRows avail rs = rowsFrom avail 0 rs := by
  obtain ⟨l, ls, h⟩ := exists_cons_of_ne_nil (splitOn_ne_nil 0x0A rs)
  simp [inputRows, rowsFrom, h]

theorem rowsFrom_nil (h : col ≤ avail) : rowsFrom avail col [] = 1 := by
  simp [rowsFrom, wrappedRows_of_le h]

theorem rowsFrom_newline (h : col ≤ avail) (rs : List ℕ) :
    rowsFrom avail col (0x0A :: rs) = 1 + rowsFrom avail 0 rs := by
  rw [← inputRows_eq, rowsFrom, splitOn_newline]
  simp [wrappedRows_of_le h, inputRows]

theorem rowsFrom_cons {r : ℕ} (hr : r ≠ 0x0A) (rs : List ℕ) :
    rowsFrom avail col (r :: rs) = rowsFrom avail (col + 1) rs := by
  obtain ⟨l, ls, h⟩ := exists_cons_of_ne_nil (splitOn_ne_nil 0x0A rs)
  rw [rowsFrom, rowsFrom, splitOn_cons hr, h]
  simp only [modifyHead_cons, headD_cons, length_cons, tail_cons]
  rw [Nat.add_right_comm, Nat.add_assoc]

theorem rowsFrom_full (hpos : 0 < avail) {r : ℕ} (hr : r ≠ 0x0A) (rs : List ℕ) :
    rowsFrom avail avail (r :: rs) = 1 + rowsFrom avail 1 rs := by
  rw [rowsFrom_cons hr, rowsFrom, rowsFrom, Nat.add_assoc avail 1, wrappedRows_add hpos (by omega),
    Nat.add_assoc]

/-- In every row there is the same room for the text. -/
structure InputShape.Ok (avail : ℕ) (sh : InputShape) : Prop where
  indentWidth_eq : sh.indentWidth = sh.prefixWidth
  first_eq : sh.availableFirst = avail
  other_eq : sh.availableOther = avail
  pos : 0 < avail

def InputShape.lead (sh : InputShape) (row : ℕ) : GoString :=
  if row > 0 then replicate sh.indentWidth 0x20 else sh.prefixVisible

/-- The lines are rows of the text, without its newlines and what stands in `rest`. -/
def InputShape.Shows (sh : InputShape) (avail : ℕ) (read rest : List ℕ) (lines : List GoString) :
    Prop :=
  ∃ rows : List (List ℕ), lines = rows.mapIdx (fun i row => sh.lead i ++ ofRunes row) ∧
    (∀ row ∈ rows, row.length ≤ avail ∧ row <:+: read) ∧
    rows.flatten ++ rest = read.filter (· ≠ 0x0A)

namespace InputLoop

variable {sh : InputShape} {st : InputLoop} {read : List ℕ}

/-- The state of the loop when `read` was read. -/
structure Inv (sh : InputShape) (avail : ℕ) (read : List ℕ) (st : InputLoop) : Prop where
  available : st.currentAvailable = avail
  col_eq : st.col = st.lineRunes.length
  col_le : st.col ≤ avail
  row_eq : st.row = st.lines.length
  current : st.lineRunes <:+ read
  shows : sh.Shows avail read st.lineRunes st.lines
  cursor_pos : 1 ≤ st.cursorRow
  cursor_le : st.cursorRow ≤ st.row + 1

theorem Inv.start (hsh : sh.Ok avail) : Inv sh avail [] (start sh) :=
  ⟨hsh.first_eq, rfl, Nat.zero_le _, rfl, suffix_rfl, ⟨[], rfl, by simp, rfl⟩, le_rfl, le_rfl⟩

theorem Inv.setCursor (h : Inv sh avail read st) : Inv sh avail read (st.setCursor sh) :=
  { h with cursor_pos := Nat.succ_pos _, cursor_le := le_rfl }

theorem Inv.setCursor_if (h : Inv sh avail read st) (here : Prop) [Decidable here] :
    Inv sh avail read (if here then st.setCursor sh else st) ∧
      (if here then st.setCursor sh else st).lines = st.lines ∧
      (if here then st.setCursor sh else st).col = st.col := by
  split_ifs
  · exact ⟨h.setCursor, rfl, rfl⟩
  · exact ⟨h, rfl, rfl⟩

theorem Inv.flushLine (hsh : sh.Ok avail) (h : Inv sh avail read st) :
    Inv sh avail read (st.flushLine sh) := by
  obtain ⟨rows, hlines, hrows, hflat⟩ := h.shows
  have hlen : st.row = rows.length := by rw [h.row_eq, hlines, length_mapIdx]
  refine ⟨hsh.other_eq, rfl, Nat.zero_le _, ?_, nil_suffix, ⟨rows ++ [st.lineRunes], ?_, ?_, ?_⟩,
    h.cursor_pos, h.cursor_le.trans (Nat.le_succ _)⟩
  · simp [InputLoop.flushLine, h.row_eq]
  · simp [InputLoop.flushLine, mapIdx_append, InputShape.lead, hlines, hlen]
  · rw [forall_mem_append, forall_mem_singleton]
    exact ⟨hrows, h.col_eq ▸ h.col_le, h.current.isInfix⟩
  · simpa [InputLoop.flushLine] using hflat

theorem Inv.newline (h : Inv sh avail read st) (hnone : st.lineRunes = []) :
    Inv sh avail (read ++ [0x0A]) st := by
  obtain ⟨rows, hlines, hrows, hflat⟩ := h.shows
  refine { h with current := hnone ▸ nil_suffix, shows := ⟨rows, hlines, fun row hrow => ?_, ?_⟩ }
  · exact ⟨(hrows row hrow).1, (hrows row hrow).2.trans (prefix_append _ _).isInfix⟩
  · simpa using hflat

theorem Inv.push (h : Inv sh avail read st) (hroom : st.col < avail) {r : ℕ} (hline : r ≠ 0x0A) :
    Inv sh avail (read ++ [r]) (st.push r) := by
  obtain ⟨rows, hlines, hrows, hflat⟩ := h.shows
  refine ⟨h.available, ?_, hroom, h.row_eq, ?_, ⟨rows, hlines, fun row hrow => ?_, ?_⟩,
    h.cursor_pos, h.cursor_le⟩
  · simp [InputLoop.push, h.col_eq]
  · obtain ⟨before, hbefore⟩ := h.current
    exact ⟨before, by simp [InputLoop.push, ← hbefore]⟩
  · exact ⟨(hrows row hrow).1, (hrows row hrow).2.trans (prefix_append _ _).isInfix⟩
  · rw [filter_append, ← hflat]
    simp [InputLoop.push, hline]

/-- One round keeps the invariant, and leaves the number of rows as it was foreseen. -/
theorem Inv.round (hsh : sh.Ok avail) (h : Inv sh avail read st) (cursor i r : ℕ)
    (rest : List ℕ) :
    Inv sh avail (read ++ [r]) (st.round sh cursor (r, i)) ∧
      (st.round sh cursor (r, i)).lines.length +
          rowsFrom avail (st.round sh cursor (r, i)).col rest =
        st.lines.length + rowsFrom avail st.col (r :: rest) := by
  obtain ⟨h', hlines, hcol⟩ := h.setCursor_if (st.cursorSet = false ∧ i = cursor)
  simp only [InputLoop.round]
  rw [← hlines, ← hcol]
  generalize (if st.cursorSet = false ∧ i = cursor then st.setCursor sh else st) = st' at h' ⊢
  by_cases hline : r = 0x0A
  · subst hline
    rw [if_pos rfl, rowsFrom_newline h'.col_le]
    refine ⟨(h'.flushLine hsh).newline rfl, ?_⟩
    simp only [InputLoop.flushLine, length_append, length_singleton]
    omega
  · rw [if_neg hline]
    split_ifs with hfull
    · have hcol' : st'.col = avail := le_antisymm h'.col_le (h'.available ▸ hfull)
      refine ⟨(h'.flushLine hsh).push hsh.pos hline, ?_⟩
      rw [hcol', rowsFrom_full hsh.pos hline]
      simp only [InputLoop.flushLine, InputLoop.push, length_append, length_singleton,
        Nat.zero_add]
      omega
    · refine ⟨h'.push (h'.available ▸ Nat.lt_of_not_ge hfull) hline, ?_⟩
      rw [rowsFrom_cons hline]
      rfl

theorem Inv.rounds (hsh : sh.Ok avail) (cursor : ℕ) (rest : List ℕ) (h : Inv sh avail read st)
    (i : ℕ) :
    Inv sh avail (read ++ rest) ((rest.zipIdx i).foldl (InputLoop.round sh · cursor ·) st) ∧
      ((rest.zipIdx i).foldl (InputLoop.round sh · cursor ·) st).lines.length + 1 =
        st.lines.length + rowsFrom avail st.col rest := by
  -- on what is left to read; the last row is still open
  induction rest generalizing read st i with
  | nil => exact ⟨by simpa using h, by simp [rowsFrom_nil h.col_le]⟩
  | cons r rest ih =>
    obtain ⟨hstep, hrows⟩ := h.round hsh cursor i r rest
    obtain ⟨hend, hlast⟩ := ih hstep (i + 1)
    rw [zipIdx_cons, foldl_cons]
    rw [append_assoc, singleton_append] at hend
    exact ⟨hend, hlast.trans hrows⟩

end InputLoop

theorem inputShape_ok (prompt : GoString) (width : ℕ) :
    (inputShape prompt width).Ok (max 1 (width - visibleWidth prompt)) ∧
      (inputShape prompt width).prefixWidth = min width (visibleWidth prompt) := by
  have hwidth : (inputShape prompt width).prefixWidth = min width (visibleWidth prompt) := by
    simp only [inputShape]
    split_ifs with hwide
    · exact visibleWidth_trimANSIToWidth prompt width
    · omega
  have havail : (if width - (inputShape prompt width).prefixWidth < 1 then 1
      else width - (inputShape prompt width).prefixWidth) =
        max 1 (width - visibleWidth prompt) := by
    rw [hwidth]
    split_ifs <;> omega
  exact ⟨⟨rfl, havail, havail, by omega⟩, hwidth⟩

/-- What is known of the input lines. -/
structure InputLines.Ok (prompt : GoString) (rs : List ℕ) (width : ℕ) (shown : InputLines) :
    Prop where
  rows_eq : shown.lines.length = inputRows (max 1 (width - visibleWidth prompt)) rs
  shows : (inputShape prompt width).Shows (max 1 (width - visibleWidth prompt)) rs [] shown.lines
  cursorRow_pos : 1 ≤ shown.cursorRow
  cursorRow_le : shown.cursorRow ≤ shown.lines.length
  cursorCol_pos : 1 ≤ shown.cursorCol
  cursorCol_le : shown.cursorCol ≤ width

theorem renderInputLines_ok (prompt input : GoString) (cursor : ℕ) {width : ℕ} (hpos : 0 < width) :
    (renderInputLines prompt input cursor width).Ok prompt (toRunes input) width := by
  obtain ⟨hsh, -⟩ := inputShape_ok prompt width
  obtain ⟨hinv, hrows⟩ := (InputLoop.Inv.start hsh).rounds hsh
    (min cursor (toRunes input).length) (toRunes input) 0
  rw [renderInputLines]
  simp only [if_neg (show ¬width = 0 by omega)]
  generalize (toRunes input).zipIdx.foldl _ _ = st at hinv hrows ⊢
  obtain ⟨hset, hlines, -⟩ := hinv.setCursor_if
    (st.cursorSet = false ∧ min cursor (toRunes input).length = (toRunes input).length)
  generalize (if st.cursorSet = false ∧ min cursor (toRunes input).length = (toRunes input).length
    then st.setCursor (inputShape prompt width) else st) = st' at hset hlines ⊢
  have hend := hset.flushLine hsh
  have hlength : (st'.flushLine (inputShape prompt width)).lines.length = st'.lines.length + 1 := by
    simp [InputLoop.flushLine]
  refine ⟨?_, hend.shows, hend.cursor_pos, ?_, ?_, ?_⟩
  · rw [hlength, hlines, hrows, inputRows_eq]
    exact Nat.zero_add _
  · rw [hlength, ← hset.row_eq]
    exact hset.cursor_le
  all_goals
    dsimp only
    split_ifs <;> omega

section Widths
variable {prompt : GoString} {rs : List ℕ} {width : ℕ} {shown : InputLines}

theorem visibleWidth_lead (prompt : GoString) (width i : ℕ) :
    visibleWidth ((inputShape prompt width).lead i) = min width (visibleWidth prompt) := by
  rw [← (inputShape_ok prompt width).2, InputShape.lead]
  split_ifs
  · exact visibleWidth_blanks _
  · rfl

/-- The rows fit if the prompt leaves a column for the text, or nothing of it is seen. -/
theorem InputLines.Ok.width_le (h : shown.Ok prompt rs width) (hrs : ∀ r ∈ rs, Scalar r)
    (hsplit : Unsplit rs) (hprompt : prompt.getLast? ≠ some esc)
    (hnarrow : visibleWidth prompt < width ∨ ∀ r ∈ rs, r = 0x0A ∨ r = 0x1B) :
    ∀ line ∈ shown.lines, visibleWidth line ≤ width := by
  obtain ⟨rows, hlines, hrows, hflat⟩ := h.shows
  intro line hline
  rw [hlines] at hline
  obtain ⟨i, hi, rfl⟩ := mem_mapIdx.mp hline
  obtain ⟨hlen, hin⟩ := hrows _ (getElem_mem hi)
  have hlead := visibleWidth_lead prompt width i
  generalize hrow : rows[i] = row at hlen hin ⊢
  by_cases hroom : visibleWidth prompt < width
  · have hend : ((inputShape prompt width).lead i).getLast? ≠ some esc := by
      simp only [InputShape.lead, inputShape, if_neg hroom.le.not_gt]
      split_ifs
      · exact fun hlast => esc_not_mem_blanks _ (mem_of_getLast? hlast)
      · exact hprompt
    have hsplit := hsplit.infix hin
    have := visibleWidth_ofRunes_le (fun r hr => hrs r (hin.subset hr)) hsplit hend
    omega
  · -- a row has one rune at most, which is not seen
    have hall := hnarrow.resolve_left hroom
    have hesc : ofRunes row = [] ∨ ofRunes row = [esc] := by
      match row, hlen with
      | [], _ => exact .inl rfl
      | [r], _ =>
        have hmem : r ∈ rows.flatten ++ [] := by
          rw [append_nil, mem_flatten]
          exact ⟨[r], hrow ▸ getElem_mem hi, mem_singleton_self r⟩
        rw [hflat, mem_filter] at hmem
        have hr := (hall r hmem.1).resolve_left (by simpa using hmem.2)
        rw [hr]
        exact .inr rfl
      | _ :: _ :: _, hlen => simp at hlen; omega
    rcases hesc with hesc | hesc <;> rw [hesc]
    · rw [append_nil]
      omega
    · exact (visibleWidth_append_esc _).trans (by omega)

/-- A prompt that fills the row leaves a column too many. -/
theorem InputLines.Ok.narrow (h : shown.Ok prompt rs width) (hrs : ∀ r ∈ rs, Scalar r)
    (hprompt : Tidy prompt) (hle : ∀ line ∈ shown.lines, visibleWidth line ≤ width) :
    visibleWidth prompt < width ∨ ∀ r ∈ rs, r = 0x0A ∨ r = 0x1B := by
  obtain ⟨rows, hlines, hrows, hflat⟩ := h.shows
  by_contra hnot
  push Not at hnot
  obtain ⟨hfull, r, hr, hline, hesc⟩ := hnot
  have hmem : r ∈ rows.flatten ++ [] := by
    rw [hflat, mem_filter]
    exact ⟨hr, by simpa using hline⟩
  rw [append_nil, mem_flatten] at hmem
  obtain ⟨row, hrow, hin⟩ := hmem
  obtain ⟨i, hi, rfl⟩ := mem_iff_getElem.mp hrow
  have hone : rows[i] = [r] := by
    obtain ⟨hlen, -⟩ := hrows _ hrow
    obtain ⟨a, ha⟩ := length_eq_one_iff.mp
      (le_antisymm (hlen.trans (by omega)) (length_pos_of_mem hin))
    rw [ha] at hin ⊢
    rw [mem_singleton.mp hin]
  have hlead : Tidy ((inputShape prompt width).lead i) := by
    rw [InputShape.lead, inputShape]
    dsimp only
    split_ifs with hfirst hwide
    · exact (part_blanks _).tidy
    · exact (part_blanks _).tidy
    · exact (hprompt.trim width).1
    · exact hprompt
  have hwide := hle _ (hlines ▸ mem_mapIdx.mpr ⟨i, hi, rfl⟩)
  rw [hone, hlead.visibleWidth_append (boundary_ofRunes _), visibleWidth_lead,
    visibleWidth_ofRunes (forall_mem_singleton.mpr ⟨hrs r hr, hesc⟩), length_singleton] at hwide
  omega

end Widths

end Centaurx.SshServer
