import Centaurx.SshServer.InputLines

namespace Centaurx.SshServer
open Go List

/-- The rows above the line that follows the text, and how far that line is. -/
def placeIn (avail : ℕ) (before : List ℕ) : ℕ × ℕ :=
  before.foldl (fun p r => if r = 0x0A then (p.1 + wrappedRows avail p.2, 0) else (p.1, p.2 + 1))
    (0, 0)

/-- The cell after a text, in rows of `avail` columns. -/
def cell (avail : ℕ) (before : List ℕ) : ℕ × ℕ :=
  ((placeIn avail before).1 + (placeIn avail before).2 / avail, (placeIn avail before).2 % avail)

/-- The row and the column of a cell on the screen, behind a margin. -/
def screenPlace (margin : ℕ) (c : ℕ × ℕ) : ℕ × ℕ := (c.1 + 1, margin + c.2 + 1)

/-- The rune stands at the row and column: the row is a piece of the text behind the prompt, or
behind as many blanks, and every rune of it has a column. -/
def DrawnAt (prompt : GoString) (text : List ℕ) (lines : List GoString) (place : ℕ × ℕ) (r : ℕ) :
    Prop :=
  ∃ lead row, lead = (if place.1 > 1 then replicate (visibleWidth prompt) 0x20 else prompt) ∧
    row <:+: text ∧ lines[place.1 - 1]? = some (lead ++ ofRunes row) ∧
    visibleWidth prompt < place.2 ∧ row[place.2 - visibleWidth prompt - 1]? = some r

/-- The rune is the one that is seen at the row and column. -/
def SeenAt (lines : List GoString) (place : ℕ × ℕ) (r : ℕ) : Prop :=
  ∃ line, lines[place.1 - 1]? = some line ∧ (visibleRunes line)[place.2 - 1]? = some r

theorem DrawnAt.seen {prompt : GoString} {text : List ℕ} {lines : List GoString}
    {place : ℕ × ℕ} {r : ℕ} (h : DrawnAt prompt text lines place r) (hprompt : Tidy prompt)
    (htext : ∀ r ∈ text, Scalar r ∧ r ≠ 0x1B) : SeenAt lines place r := by
  obtain ⟨lead, row, hlead, hrow, hline, hlt, hr⟩ := h
  have hspec : Tidy lead ∧ visibleWidth lead = visibleWidth prompt := by
    rw [hlead]
    split_ifs
    · exact ⟨(part_blanks _).tidy, visibleWidth_blanks _⟩
    · exact ⟨hprompt, rfl⟩
  refine ⟨_, hline, ?_⟩
  rw [hspec.1.visibleRunes_append (boundary_ofRunes row),
    visibleRunes_ofRunes fun r hr => htext r (hrow.subset hr), getElem?_append_right
      (by rw [length_visibleRunes, hspec.2]; omega), length_visibleRunes, hspec.2, ← hr]
  congr 1
  omega

variable {avail row col : ℕ} {before read : List ℕ}

theorem placeIn_newline (before : List ℕ) :
    placeIn avail (before ++ [0x0A]) =
      ((placeIn avail before).1 + wrappedRows avail (placeIn avail before).2, 0) := by
  rw [placeIn, foldl_append]
  rfl

theorem placeIn_push {r : ℕ} (hr : r ≠ 0x0A) (before : List ℕ) :
    placeIn avail (before ++ [r]) =
      ((placeIn avail before).1, (placeIn avail before).2 + 1) := by
  rw [placeIn, foldl_append, foldl_cons, foldl_nil, if_neg hr]
  rfl

/-- The loop stands in a row behind `col` runes of it. Only the first row of a line can be empty. -/
def StandsAt (avail : ℕ) (before : List ℕ) (row col : ℕ) : Prop :=
  ∃ q, row = (placeIn avail before).1 + q ∧ (placeIn avail before).2 = avail * q + col ∧
    col ≤ avail ∧ (0 < q → 0 < col)

theorem wrappedRows_eq (hpos : 0 < avail) {q : ℕ} (hle : col ≤ avail) (hcol : 0 < q → 0 < col) :
    wrappedRows avail (avail * q + col) = q + 1 := by
  induction q with
  | zero => rw [Nat.mul_zero, Nat.zero_add, wrappedRows_of_le hle]
  | succ q ih =>
    have hcol' := hcol (Nat.succ_pos q)
    rw [Nat.mul_succ, Nat.add_right_comm, Nat.add_comm, wrappedRows_add hpos (by omega),
      ih fun _ => hcol', Nat.add_comm]

namespace StandsAt

theorem newline (hpos : 0 < avail) (h : StandsAt avail read row col) :
    StandsAt avail (read ++ [0x0A]) (row + 1) 0 := by
  obtain ⟨q, hrow, hoffset, hle, hcol⟩ := h
  refine ⟨0, ?_, ?_, Nat.zero_le _, by simp⟩
  · rw [placeIn_newline, hoffset, wrappedRows_eq hpos hle hcol]
    omega
  · rw [placeIn_newline, Nat.mul_zero]

theorem push (h : StandsAt avail read row col) (hroom : col < avail) {r : ℕ} (hr : r ≠ 0x0A) :
    StandsAt avail (read ++ [r]) row (col + 1) := by
  obtain ⟨q, hrow, hoffset, -, -⟩ := h
  refine ⟨q, ?_, ?_, hroom, fun _ => Nat.succ_pos col⟩
  · rw [placeIn_push hr, hrow]
  · rw [placeIn_push hr, hoffset, Nat.add_assoc]

/-- Behind a full row a new one begins. -/
theorem wrap (hpos : 0 < avail) (h : StandsAt avail read row avail) {r : ℕ} (hr : r ≠ 0x0A) :
    StandsAt avail (read ++ [r]) (row + 1) 1 := by
  obtain ⟨q, hrow, hoffset, -, -⟩ := h
  refine ⟨q + 1, ?_, ?_, hpos, fun _ => Nat.one_pos⟩
  · rw [placeIn_push hr, hrow, Nat.add_assoc]
  · rw [placeIn_push hr, hoffset, Nat.mul_succ]

theorem cell_eq (h : StandsAt avail read row col) (hroom : col < avail) :
    cell avail read = (row, col) := by
  obtain ⟨q, hrow, hoffset, -, -⟩ := h
  have hdiv : (placeIn avail read).2 / avail = q ∧ (placeIn avail read).2 % avail = col :=
    (Nat.div_mod_unique (by omega)).mpr ⟨by rw [hoffset, Nat.add_comm], hroom⟩
  rw [cell, hdiv.1, hdiv.2, hrow]

theorem cell_full (hpos : 0 < avail) (h : StandsAt avail read row avail) :
    cell avail read = (row + 1, 0) := by
  obtain ⟨q, hrow, hoffset, -, -⟩ := h
  have hdiv : (placeIn avail read).2 / avail = q + 1 ∧ (placeIn avail read).2 % avail = 0 :=
    (Nat.div_mod_unique hpos).mpr ⟨by rw [hoffset, Nat.mul_succ, Nat.zero_add], hpos⟩
  rw [cell, hdiv.1, hdiv.2, hrow, Nat.add_assoc]

theorem full_iff (hpos : 0 < avail) (h : StandsAt avail read row col) :
    col = avail ↔ 0 < (placeIn avail read).2 ∧ (placeIn avail read).2 % avail = 0 := by
  obtain ⟨q, -, hoffset, hle, hcol⟩ := h
  rw [hoffset, Nat.mul_add_mod]
  constructor
  · rintro rfl
    exact ⟨by omega, Nat.mod_self col⟩
  · rintro ⟨hsome, hmod⟩
    rcases Nat.eq_or_lt_of_le hle with heq | hlt
    · exact heq
    · rw [Nat.mod_eq_of_lt hlt] at hmod
      subst hmod
      rcases Nat.eq_zero_or_pos q with rfl | hq
      · simp at hsome
      · exact absurd (hcol hq) (lt_irrefl 0)

/-- In a full row the column is cut off at the edge, and the cell is in the next row. -/
theorem screenPlace_iff (hpos : 0 < avail) (h : StandsAt avail read row col) (margin : ℕ) :
    (row + 1, min (margin + col + 1) (margin + avail)) = screenPlace margin (cell avail read) ↔
      ¬(0 < (placeIn avail read).2 ∧ (placeIn avail read).2 % avail = 0) := by
  have hle : col ≤ avail := by
    obtain ⟨-, -, -, hle, -⟩ := h
    exact hle
  rw [← h.full_iff hpos]
  by_cases hfull : col = avail
  · rw [hfull] at h
    rw [h.cell_full hpos]
    refine iff_of_false (fun heq => ?_) (not_not.mpr hfull)
    have hrows : row + 1 = row + 1 + 1 := congrArg Prod.fst heq
    omega
  · rw [h.cell_eq (by omega), Nat.min_eq_left (by omega)]
    exact iff_of_true rfl hfull

end StandsAt

namespace InputLoop

variable {sh : InputShape} {st : InputLoop}

theorem getElem?_append_of_some {α : Type} {l : List α} {i : ℕ} {x : α} (h : l[i]? = some x)
    (m : List α) : (l ++ m)[i]? = some x := by
  obtain ⟨hi, -⟩ := List.getElem?_eq_some_iff.mp h
  rw [getElem?_append_left hi, h]

/-- The rune is in a cell: in a row that is complete, or in the current one. -/
def Holds (sh : InputShape) (all : List ℕ) (st : InputLoop) (c : ℕ × ℕ) (r : ℕ) : Prop :=
  (∃ row, row <:+: all ∧ st.lines[c.1]? = some (sh.lead c.1 ++ ofRunes row) ∧
      row[c.2]? = some r) ∨
    (c.1 = st.row ∧ st.lineRunes[c.2]? = some r)

variable {r : ℕ} {all rest : List ℕ}

theorem Holds.line (hinv : Inv sh avail read st) (hall : all = read ++ rest) {c : ℕ × ℕ}
    (h : Holds sh all st c r) :
    ∃ row, row <:+: all ∧ (st.flushLine sh).lines[c.1]? = some (sh.lead c.1 ++ ofRunes row) ∧
      row[c.2]? = some r := by
  rcases h with ⟨row, hin, hline, hr⟩ | ⟨hrow, hr⟩
  · exact ⟨row, hin, getElem?_append_of_some hline _, hr⟩
  · refine ⟨st.lineRunes, ?_, ?_, hr⟩
    · exact hall ▸ hinv.current.isInfix.trans (prefix_append read rest).isInfix
    · simp [InputLoop.flushLine, InputShape.lead, hrow, hinv.row_eq]

theorem Holds.push {c : ℕ × ℕ} (h : Holds sh all st c r) (r' : ℕ) :
    Holds sh all (st.push r') c r := by
  rcases h with hline | ⟨hrow, hr⟩
  · exact .inl hline
  · exact .inr ⟨hrow, getElem?_append_of_some hr _⟩

theorem holds_pushed (hcol : st.col = st.lineRunes.length) (r : ℕ) :
    Holds sh all (st.push r) (st.row, st.col) r := by
  right
  refine ⟨rfl, ?_⟩
  rw [hcol]
  exact getElem?_concat_length

/-- Where everything is when `read` was read: the loop, the runes, and the cursor if it is set. -/
structure Placed (sh : InputShape) (avail cursor : ℕ) (all read : List ℕ) (st : InputLoop) :
    Prop where
  inv : Inv sh avail read st
  stands : StandsAt avail read st.row st.col
  holds : ∀ i r, read[i]? = some r → r ≠ 0x0A → Holds sh all st (cell avail (read.take i)) r
  set : st.cursorSet = true → ∃ row col, StandsAt avail (all.take cursor) row col ∧
    st.cursorRow = row + 1 ∧ st.cursorCol = sh.prefixWidth + col + 1
  unset : st.cursorSet = false → read.length ≤ cursor

variable {cursor : ℕ}

theorem Placed.start (hsh : sh.Ok avail) : Placed sh avail cursor all [] (start sh) where
  inv := .start hsh
  stands := ⟨0, rfl, by simp [placeIn, InputLoop.start], Nat.zero_le _, by simp⟩
  holds := by simp
  set := by simp [InputLoop.start]
  unset _ := Nat.zero_le _

theorem Placed.setCursor (hsh : sh.Ok avail) (hall : all = read ++ rest)
    (h : Placed sh avail cursor all read st) (hhere : read.length = cursor) :
    Placed sh avail cursor all read (st.setCursor sh) where
  inv := h.inv.setCursor
  stands := h.stands
  holds := h.holds
  set _ := by
    refine ⟨st.row, st.col, ?_, rfl, ?_⟩
    · rw [hall, ← hhere, take_left]
      exact h.stands
    · simp only [InputLoop.setCursor, hsh.indentWidth_eq, ite_self]
  unset hset := by simp [InputLoop.setCursor] at hset

theorem holds_append {st' : InputLoop}
    (hold : ∀ i x, read[i]? = some x → x ≠ 0x0A →
      Holds sh all st' (cell avail (read.take i)) x)
    (hnew : r ≠ 0x0A → Holds sh all st' (cell avail read) r) :
    ∀ i x, (read ++ [r])[i]? = some x → x ≠ 0x0A →
      Holds sh all st' (cell avail ((read ++ [r]).take i)) x := by
  intro i x hx hline
  rcases Nat.lt_trichotomy i read.length with hlt | heq | hgt
  · rw [getElem?_append_left hlt] at hx
    rw [take_append_of_le_length hlt.le]
    exact hold i x hx hline
  · subst heq
    rw [getElem?_concat_length] at hx
    obtain rfl := Option.some.inj hx
    rw [take_left]
    exact hnew hline
  · rw [getElem?_eq_none (by simp; omega)] at hx
    cases hx

theorem Placed.setCursor_if (hsh : sh.Ok avail) (hall : all = read ++ rest)
    (h : Placed sh avail cursor all read st) :
    ∃ st', (if st.cursorSet = false ∧ read.length = cursor then st.setCursor sh else st) = st' ∧
      Placed sh avail cursor all read st' ∧ (st'.cursorSet = false → read.length < cursor) := by
  refine ⟨_, rfl, ?_⟩
  split_ifs with hhere
  · exact ⟨h.setCursor hsh hall hhere.2, fun hset => by simp [InputLoop.setCursor] at hset⟩
  · refine ⟨h, fun hset => ?_⟩
    have hne : read.length ≠ cursor := fun heq => hhere ⟨hset, heq⟩
    have hle := h.unset hset
    omega

theorem Placed.round (hsh : sh.Ok avail) (hall : all = read ++ r :: rest)
    (h : Placed sh avail cursor all read st) :
    Placed sh avail cursor all (read ++ [r]) (st.round sh cursor (r, read.length)) := by
  have hinv := (h.inv.round hsh cursor read.length r rest).1
  obtain ⟨st', hst', h', hunset⟩ := h.setCursor_if hsh hall
  have hlater : st'.cursorSet = false → (read ++ [r]).length ≤ cursor := by
    intro hset
    have hlt := hunset hset
    rw [length_append, length_singleton]
    omega
  simp only [InputLoop.round, hst'] at hinv ⊢
  by_cases hline : r = 0x0A
  · rw [if_pos hline] at hinv ⊢
    refine ⟨hinv, ?_, ?_, h'.set, hlater⟩
    · rw [hline]
      exact h'.stands.newline hsh.pos
    · apply holds_append
      · intro i x hx hxline
        exact .inl ((h'.holds i x hx hxline).line h'.inv hall)
      · exact fun hne => absurd hline hne
  rw [if_neg hline] at hinv ⊢
  by_cases hfull : st'.col ≥ st'.currentAvailable
  · rw [if_pos hfull] at hinv ⊢
    have hcol : st'.col = avail := le_antisymm h'.inv.col_le (h'.inv.available ▸ hfull)
    have hstands := h'.stands
    rw [hcol] at hstands
    refine ⟨hinv, hstands.wrap hsh.pos hline, ?_, h'.set, hlater⟩
    apply holds_append
    · intro i x hx hxline
      exact Holds.push (.inl ((h'.holds i x hx hxline).line h'.inv hall)) r
    · intro _
      rw [hstands.cell_full hsh.pos]
      exact holds_pushed rfl r
  · rw [if_neg hfull] at hinv ⊢
    have hroom : st'.col < avail := h'.inv.available ▸ Nat.lt_of_not_ge hfull
    refine ⟨hinv, h'.stands.push hroom hline, ?_, h'.set, hlater⟩
    apply holds_append
    · intro i x hx hxline
      exact (h'.holds i x hx hxline).push r
    · intro _
      rw [h'.stands.cell_eq hroom]
      exact holds_pushed h'.inv.col_eq r

theorem Placed.rounds (hsh : sh.Ok avail) (hall : all = read ++ rest)
    (h : Placed sh avail cursor all read st) :
    Placed sh avail cursor all all
      ((rest.zipIdx read.length).foldl (InputLoop.round sh · cursor ·) st) := by
  induction rest generalizing read st with
  | nil =>
    rw [append_nil] at hall
    rw [← hall] at h ⊢
    exact h
  | cons r rest ih =>
    have hstep := h.round hsh hall
    have hnext := ih (by rw [hall, append_assoc, singleton_append]) hstep
    rw [length_append, length_singleton] at hnext
    rw [zipIdx_cons, foldl_cons]
    exact hnext

end InputLoop

/-- **The cursor.** Every character but a newline is drawn in its cell, and seen there unless an
escape sequence is in the way. The cursor is in the cell after the text before it, exactly if that
text does not end with a full row. -/
theorem cursor_cell_iff (prompt input : GoString) {width : ℕ} (hwidth : visibleWidth prompt < width)
    (cursor : ℕ) :
    let rs := toRunes input
    let avail := width - visibleWidth prompt
    let before := rs.take cursor
    let shown := renderInputLines prompt input cursor width
    (∀ i r, rs[i]? = some r → r ≠ 0x0A →
      let place := screenPlace (visibleWidth prompt) (cell avail (rs.take i))
      DrawnAt prompt rs shown.lines place r ∧
        (Tidy prompt → esc ∉ input → SeenAt shown.lines place r)) ∧
    ((shown.cursorRow, shown.cursorCol) =
        screenPlace (visibleWidth prompt) (cell avail before) ↔
      ¬(0 < (placeIn avail before).2 ∧ (placeIn avail before).2 % avail = 0)) := by
  intro rs avail before shown
  obtain ⟨hsh, hmargin⟩ := inputShape_ok prompt width
  rw [show max 1 (width - visibleWidth prompt) = avail by omega] at hsh
  rw [Nat.min_eq_right hwidth.le] at hmargin
  have hlead : ∀ i, (inputShape prompt width).lead i =
      if i > 0 then replicate (visibleWidth prompt) 0x20 else prompt := by
    intro i
    rw [InputShape.lead, hsh.indentWidth_eq, hmargin]
    simp only [inputShape, if_neg hwidth.le.not_gt]
  have hstart : InputLoop.Placed (inputShape prompt width) avail (min cursor rs.length) rs []
      (.start (inputShape prompt width)) := .start hsh
  have hplaced := hstart.rounds hsh (nil_append rs).symm
  have hbefore : rs.take (min cursor rs.length) = before :=
    take_eq_take_iff.mpr (by omega)
  simp only [shown, renderInputLines, if_neg (show ¬width = 0 by omega)]
  generalize rs.zipIdx.foldl _ _ = st at hplaced ⊢
  obtain ⟨st', hst', h', hunset⟩ := hplaced.setCursor_if hsh (append_nil rs).symm
  rw [if_congr (and_congr_right' eq_comm) rfl rfl, hst']
  have hset : st'.cursorSet = true := by
    by_contra hne
    have hlt := hunset (Bool.eq_false_iff.mpr hne)
    omega
  obtain ⟨row, col, hstands, hrow, hcol⟩ := h'.set hset
  rw [hbefore] at hstands
  rw [hmargin] at hcol
  constructor
  · intro i r hr hline
    obtain ⟨row, hrow, hlines, hrune⟩ :=
      (h'.holds i r hr hline).line h'.inv (append_nil rs).symm
    have hdrawn : DrawnAt prompt rs (st'.flushLine (inputShape prompt width)).lines
        (screenPlace (visibleWidth prompt) (cell avail (rs.take i))) r := by
      refine ⟨_, row, rfl, hrow, ?_, ?_, ?_⟩
      · simpa [screenPlace, hlead] using hlines
      · simp only [screenPlace]
        omega
      · rw [← hrune]
        congr 1
        simp only [screenPlace]
        omega
    exact ⟨hdrawn, fun hprompt hinput => hdrawn.seen hprompt (runes_ne_esc hinput)⟩
  · have hrow' : (st'.flushLine (inputShape prompt width)).cursorRow = row + 1 := hrow
    have hcol' : (st'.flushLine (inputShape prompt width)).cursorCol =
        visibleWidth prompt + col + 1 := hcol
    have hmin : (if visibleWidth prompt + col + 1 > width then width
        else visibleWidth prompt + col + 1) =
          min (visibleWidth prompt + col + 1) (visibleWidth prompt + avail) := by
      split_ifs <;> omega
    have hlow : ¬visibleWidth prompt + col + 1 < 1 := by omega
    rw [hrow', hcol', if_neg hlow, hmin]
    exact hstands.screenPlace_iff hsh.pos (visibleWidth prompt)

/-- A cursor in the second row of a wrapped line. -/
theorem cursor_cell_second_row :
    ((renderInputLines (lit "> ") (lit "abcde") 4 5).cursorRow,
      (renderInputLines (lit "> ") (lit "abcde") 4 5).cursorCol) = (2, 4) := by
  have h := cursor_cell_iff (lit "> ") (lit "abcde") (show visibleWidth (lit "> ") < 5 by decide) 4
  exact (h.2.mpr (by decide)).trans (by decide)

/-- In three columns, the cursor before `d` and the one after `abc` are put on the `c`. -/
theorem cursor_cell_full_row :
    (renderInputLines (lit "> ") (lit "abcd") 3 5).lines = [lit "> abc", lit "  d"] ∧
      ((renderInputLines (lit "> ") (lit "abcd") 3 5).cursorRow,
        (renderInputLines (lit "> ") (lit "abcd") 3 5).cursorCol) = (1, 5) ∧
      screenPlace 2 (cell 3 (toRunes (lit "abc"))) = (2, 3) ∧
      (renderInputLines (lit "> ") (lit "abc") 3 5).lines = [lit "> abc"] ∧
      ((renderInputLines (lit "> ") (lit "abc") 3 5).cursorRow,
        (renderInputLines (lit "> ") (lit "abc") 3 5).cursorCol) = (1, 5) := by
  decide

end Centaurx.SshServer
