import Centaurx.Markdown
import Centaurx.SshServer.Styles

namespace Centaurx.SshServer
open Go List

structure Token where
  text : List ℕ
  space : Bool
  deriving DecidableEq

def Token.flush (buf : List ℕ) (space : Bool) : List Token :=
  if buf = [] then [] else [⟨buf, space⟩]

/-- The loop of `tokenizeText`: runs of white space become runs of blanks. -/
def tokenizeFrom (inSpace : Bool) (buf : List ℕ) : List ℕ → List Token
  | [] => Token.flush buf inSpace
  | r :: rs =>
    if isSpace r then
      if inSpace then tokenizeFrom true (buf ++ [0x20]) rs
      else Token.flush buf false ++ tokenizeFrom true [0x20] rs
    else if inSpace then Token.flush buf true ++ tokenizeFrom false [r] rs
    else tokenizeFrom false (buf ++ [r]) rs

def tokenizeText (text : GoString) : List Token := tokenizeFrom false [] (toRunes text)

/-- The loop of `tokenizeMarkdown`: every space is a token. -/
def tokenizeMarkdownFrom (buf : List ℕ) : List ℕ → List Token
  | [] => Token.flush buf false
  | r :: rs =>
    if isSpace r then Token.flush buf false ++ ⟨[0x20], true⟩ :: tokenizeMarkdownFrom [] rs
    else tokenizeMarkdownFrom (buf ++ [r]) rs

def tokenizeMarkdown (text : GoString) : List Token := tokenizeMarkdownFrom [] (toRunes text)

/-- White space becomes a blank. -/
def squash (r : ℕ) : ℕ := if isSpace r then 0x20 else r

theorem isSpace_squash (r : ℕ) : isSpace (squash r) = isSpace r := by
  rw [squash]
  split_ifs with hr
  · rw [hr]
    rfl
  · rfl

theorem tokenizeFrom_cons (inSpace : Bool) (buf : List ℕ) (r : ℕ) (rs : List ℕ) :
    tokenizeFrom inSpace buf (r :: rs) =
      if isSpace r = inSpace then tokenizeFrom inSpace (buf ++ [squash r]) rs
      else Token.flush buf inSpace ++ tokenizeFrom (!inSpace) [squash r] rs := by
  rw [tokenizeFrom, squash]
  cases isSpace r <;> cases inSpace <;> rfl

theorem flush_text (buf : List ℕ) (space : Bool) :
    (Token.flush buf space).flatMap Token.text = buf := by
  rw [Token.flush]
  split
  · simp [*]
  · simp

theorem tokenizeFrom_text (inSpace : Bool) (buf rs : List ℕ) :
    (tokenizeFrom inSpace buf rs).flatMap Token.text = buf ++ rs.map squash := by
  induction rs generalizing inSpace buf with
  | nil => simp [tokenizeFrom, flush_text]
  | cons r rs ih =>
    rw [tokenizeFrom_cons, map_cons]
    split_ifs
    · rw [ih, append_assoc, singleton_append]
    · rw [flatMap_append, flush_text, ih, singleton_append]

theorem tokenizeText_text (text : GoString) :
    (tokenizeText text).flatMap Token.text = (toRunes text).map squash :=
  tokenizeFrom_text false [] _

theorem tokenizeMarkdown_text (text : GoString) :
    (tokenizeMarkdown text).flatMap Token.text = (toRunes text).map squash := by
  have h : ∀ rs buf, (tokenizeMarkdownFrom buf rs).flatMap Token.text = buf ++ rs.map squash := by
    intro rs
    induction rs with
    | nil => simp [tokenizeMarkdownFrom, flush_text]
    | cons r rs ih =>
      intro buf
      rw [tokenizeMarkdownFrom]
      split_ifs with h1
      · simp [ih, flush_text, squash, h1]
      · simp [ih, squash, h1]
  exact h _ []

theorem tokenizeFrom_space (inSpace : Bool) (buf rs : List ℕ)
    (hbuf : inSpace = true → ∀ r ∈ buf, r = 0x20) :
    ∀ tok ∈ tokenizeFrom inSpace buf rs, tok.space = true → ∀ r ∈ tok.text, r = 0x20 := by
  have hflush : ∀ (sp : Bool) (buf : List ℕ), (sp = true → ∀ r ∈ buf, r = 0x20) →
      ∀ tok ∈ Token.flush buf sp, tok.space = true → ∀ r ∈ tok.text, r = 0x20 := by
    intro sp buf h tok htok
    rw [Token.flush] at htok
    split_ifs at htok
    · simp at htok
    · obtain rfl := mem_singleton.mp htok
      exact h
  induction rs generalizing inSpace buf with
  | nil => exact hflush inSpace buf hbuf
  | cons r rs ih =>
    rw [tokenizeFrom]
    split_ifs with h1 h2 h2
    · refine ih true _ fun _ => ?_
      rw [forall_mem_append]
      exact ⟨hbuf h2, by simp⟩
    · rw [forall_mem_append]
      exact ⟨hflush false buf (by simp), ih true _ (by simp)⟩
    · rw [forall_mem_append]
      exact ⟨hflush true buf fun _ => hbuf h2, ih false _ (by simp)⟩
    · exact ih false _ (by simp)

theorem tokenizeMarkdown_space (text : GoString) :
    ∀ tok ∈ tokenizeMarkdown text, tok.space = true → tok.text = [0x20] := by
  have h : ∀ rs buf, ∀ tok ∈ tokenizeMarkdownFrom buf rs, tok.space = true → tok.text = [0x20] := by
    have hflush : ∀ buf, ∀ tok ∈ Token.flush buf false, tok.space = true → tok.text = [0x20] := by
      intro buf tok htok
      rw [Token.flush] at htok
      split_ifs at htok
      · simp at htok
      · obtain rfl := mem_singleton.mp htok
        simp
    intro rs
    induction rs with
    | nil => exact hflush
    | cons r rs ih =>
      intro buf
      rw [tokenizeMarkdownFrom]
      split_ifs
      · rw [forall_mem_append, forall_mem_cons]
        exact ⟨hflush buf, fun _ => rfl, ih []⟩
      · exact ih _
  exact h _ []

/-- The variables of the loops. -/
structure Wrap where
  lines : List (List Ink) := []
  b : List Ink := []
  visible : ℕ := 0
  currentStyle : Style := []
  suppressLeadingSpace : Bool := false

namespace Wrap

def put (st : Wrap) (text : List ℕ) : Wrap :=
  { st with b := st.b ++ [.text text], visible := st.visible + text.length }

def applyStyle (st : Wrap) (styleCode : Style) : Wrap :=
  if styleCode.code = st.currentStyle.code ∧ st.b ≠ [] then st
  else if styleCode = [] ∧ st.b = [] then { st with currentStyle := [] }
  else
    { st with
      b := st.b ++ .sgr ansiReset :: styleCode.map .sgr
      currentStyle := styleCode }

/-- The row is complete; `close` is written at its end. -/
def flush (st : Wrap) (close : List Ink) (wrapped : Bool) : Wrap :=
  if st.b = [] then st
  else { lines := st.lines ++ [st.b ++ close], suppressLeadingSpace := wrapped }

/-- Slices of a given length; the last one may be shorter. -/
def slicesN (width : ℕ) : ℕ → List ℕ → List (List ℕ)
  | 0, _ => []
  | _ + 1, [] => []
  | n + 1, r :: rs => (r :: rs).take width :: slicesN width n ((r :: rs).drop width)

/-- A slice of a word that is longer than a row. -/
def slice (close : List Ink) (write : Wrap → List ℕ → Wrap) (width : ℕ) (st : Wrap)
    (text : List ℕ) : Wrap :=
  let st := write st text
  if st.visible ≥ width then st.flush close true else st

def word (close : List Ink) (write : Wrap → List ℕ → Wrap) (width : ℕ) (st : Wrap)
    (text : List ℕ) : Wrap :=
  if text.length > width then
    let st := if st.visible > 0 then st.flush close true else st
    (slicesN width text.length text).foldl (slice close write width) st
  else
    let st := if st.visible + text.length > width ∧ st.visible > 0 then st.flush close true else st
    { write st text with suppressLeadingSpace := false }

end Wrap

/-- A token of plain text. -/
def plainToken (width : ℕ) (st : Wrap) (tok : Token) : Wrap :=
  if tok.text = [] then st
  else if tok.space then
    if st.visible = 0 ∧ st.suppressLeadingSpace then st
    else if st.visible + tok.text.length > width then st.flush [] true
    else st.put tok.text
  else st.word [] Wrap.put width tok.text

def writeStyled (styleCode : Style) (st : Wrap) (text : List ℕ) : Wrap :=
  (st.applyStyle styleCode).put text

/-- A token of a markdown span. -/
def markdownToken (styleCode : Style) (width : ℕ) (st : Wrap) (tok : Token) : Wrap :=
  if tok.text = [] then st
  else if tok.space then
    if st.visible = 0 ∧ st.suppressLeadingSpace then st
    else if st.visible + 1 > width then st.flush [.sgr ansiReset] true
    else { writeStyled styleCode st [0x20] with suppressLeadingSpace := false }
  else st.word [.sgr ansiReset] (writeStyled styleCode) width tok.text

namespace Wrap
variable {width : ℕ} {st : Wrap} {close : List Ink} {write : Wrap → List ℕ → Wrap}

/-- The text in all rows. -/
def text (st : Wrap) : List ℕ := st.lines.flatMap inkRunes ++ inkRunes st.b

/-- No row is wider than the terminal. -/
structure Ok (width : ℕ) (st : Wrap) : Prop where
  visible_eq : st.visible = (inkRunes st.b).length
  visible_le : st.visible ≤ width
  lines_le : ∀ row ∈ st.lines, (inkRunes row).length ≤ width

/-- A way to write text into the row. -/
structure Writes (write : Wrap → List ℕ → Wrap) : Prop where
  lines : ∀ st text, (write st text).lines = st.lines
  runes : ∀ st text, inkRunes (write st text).b = inkRunes st.b ++ text
  visible : ∀ st text, (write st text).visible = st.visible + text.length

theorem writes_put : Writes put := ⟨fun _ _ => rfl, fun _ _ => by simp [put], fun _ _ => rfl⟩

theorem applyStyle_spec (st : Wrap) (styleCode : Style) :
    (st.applyStyle styleCode).lines = st.lines ∧
      inkRunes (st.applyStyle styleCode).b = inkRunes st.b ∧
      (st.applyStyle styleCode).visible = st.visible := by
  rw [applyStyle]
  split_ifs
  · exact ⟨rfl, rfl, rfl⟩
  · exact ⟨rfl, rfl, rfl⟩
  · exact ⟨rfl, by simp, rfl⟩

theorem writes_styled (styleCode : Style) : Writes (writeStyled styleCode) := by
  refine ⟨fun st text => ?_, fun st text => ?_, fun st text => ?_⟩
  · exact (st.applyStyle_spec styleCode).1
  · rw [writeStyled, writes_put.runes, (st.applyStyle_spec styleCode).2.1]
  · rw [writeStyled, writes_put.visible, (st.applyStyle_spec styleCode).2.2]

theorem Writes.text (hw : Writes write) (st : Wrap) (t : List ℕ) :
    (write st t).text = st.text ++ t := by
  rw [Wrap.text, hw.lines, hw.runes, Wrap.text, append_assoc]

theorem Writes.ok (hw : Writes write) (hst : st.Ok width) {t : List ℕ}
    (hle : st.visible + t.length ≤ width) : (write st t).Ok width := by
  refine ⟨?_, ?_, ?_⟩
  · rw [hw.visible, hw.runes, length_append, hst.visible_eq]
  · rw [hw.visible]
    exact hle
  · rw [hw.lines]
    exact hst.lines_le

theorem text_flush (hc : inkRunes close = []) (st : Wrap) (wrapped : Bool) :
    (st.flush close wrapped).text = st.text := by
  rw [flush]
  split
  · rfl
  · simp only [text, flatMap_append, flatMap_singleton, inkRunes_append, hc,
      append_nil]
    exact append_nil _

theorem Ok.flush (hc : inkRunes close = []) (hst : st.Ok width) (wrapped : Bool) :
    (st.flush close wrapped).Ok width ∧ (st.flush close wrapped).visible = 0 := by
  rw [Wrap.flush]
  split
  · rename_i hb
    have h0 : st.visible = 0 := by
      rw [hst.visible_eq, hb]
      rfl
    exact ⟨hst, h0⟩
  · refine ⟨⟨rfl, by simp, ?_⟩, rfl⟩
    simp only [forall_mem_append, forall_mem_singleton, inkRunes_append, hc,
      append_nil]
    exact ⟨hst.lines_le, hst.visible_eq ▸ hst.visible_le⟩

theorem Ok.flush_if (hc : inkRunes close = []) (hst : st.Ok width) (c : Prop) [Decidable c] :
    (if c then st.flush close true else st).Ok width ∧
      (if c then st.flush close true else st).text = st.text := by
  split
  · exact ⟨(hst.flush hc true).1, text_flush hc st true⟩
  · exact ⟨hst, rfl⟩

theorem slices_ok (hw : Writes write) (hc : inkRunes close = []) (hpos : 0 < width) (n : ℕ)
    (t : List ℕ) (hn : t.length ≤ n) (hst : st.Ok width) (h0 : st.visible = 0) :
    ((slicesN width n t).foldl (slice close write width) st).Ok width ∧
      ((slicesN width n t).foldl (slice close write width) st).text = st.text ++ t := by
  induction n generalizing st t with
  | zero =>
    obtain rfl : t = [] := length_eq_zero_iff.mp (by omega)
    simpa [slicesN] using hst
  | succ n ih =>
    cases t with
    | nil => simpa [slicesN] using hst
    | cons r rs =>
      have hok := hw.ok hst (t := (r :: rs).take width) (by simp; omega)
      have htext := hw.text st ((r :: rs).take width)
      have hvis := hw.visible st ((r :: rs).take width)
      rw [h0, zero_add] at hvis
      rw [slicesN, foldl_cons, slice]
      split_ifs with hfull
      · obtain ⟨hok', h0'⟩ := hok.flush hc true
        obtain ⟨h1, h2⟩ := ih ((r :: rs).drop width) (by simp at hn ⊢; omega) hok' h0'
        refine ⟨h1, ?_⟩
        rw [h2, text_flush hc, htext, append_assoc, take_append_drop]
      · -- The last slice is the only one that does not fill its row.
        have hlen : (r :: rs).length ≤ width := by
          by_contra h
          rw [hvis, length_take] at hfull
          omega
        have hdrop : (r :: rs).drop width = [] := drop_eq_nil_of_le hlen
        rw [hdrop, take_of_length_le hlen] at *
        have hslices : slicesN width n [] = [] := by cases n <;> rfl
        rw [hslices]
        exact ⟨hok, htext⟩

theorem word_ok (hw : Writes write) (hc : inkRunes close = []) (hpos : 0 < width)
    (hst : st.Ok width) (t : List ℕ) :
    (st.word close write width t).Ok width ∧
      (st.word close write width t).text = st.text ++ t := by
  by_cases hlong : t.length > width
  · rw [word, if_pos hlong]
    have h0 : (if st.visible > 0 then st.flush close true else st).visible = 0 := by
      split_ifs
      · exact (hst.flush hc true).2
      · omega
    obtain ⟨hok, htext⟩ := hst.flush_if hc (st.visible > 0)
    obtain ⟨h1, h2⟩ := slices_ok hw hc hpos t.length t le_rfl hok h0
    exact ⟨h1, by rw [h2, htext]⟩
  · rw [word, if_neg hlong]
    obtain ⟨hok, htext⟩ := hst.flush_if hc (st.visible + t.length > width ∧ st.visible > 0)
    have hfits : (if st.visible + t.length > width ∧ st.visible > 0 then st.flush close true
        else st).visible + t.length ≤ width := by
      split_ifs
      · rw [(hst.flush hc true).2]
        omega
      · omega
    have h1 := hw.ok hok hfits
    refine ⟨⟨h1.visible_eq, h1.visible_le, h1.lines_le⟩, ?_⟩
    rw [← htext, ← hw.text]
    rfl

end Wrap

/-- The text `t` went into the rows, up to blanks that were dropped at the edges. -/
structure Fills (width : ℕ) (st st' : Wrap) (t : List ℕ) : Prop where
  ok : st'.Ok width
  kept : ∀ p : ℕ → Bool, p 0x20 = false → st'.text.filter p = (st.text ++ t).filter p
  origin : st'.text ⊆ st.text ++ t

namespace Fills
variable {width : ℕ} {st st₁ st₂ : Wrap} {t u : List ℕ}

theorem of_eq (hok : st₁.Ok width) (h : st₁.text = st.text ++ t) : Fills width st st₁ t :=
  ⟨hok, fun p _ => by rw [h], by rw [h]; exact List.Subset.refl _⟩

theorem of_blank (hok : st₁.Ok width) (h : st₁.text = st.text) (ht : ∀ r ∈ t, r = 0x20) :
    Fills width st st₁ t := by
  refine ⟨hok, fun p hp => ?_, by rw [h]; exact subset_append_left _ _⟩
  have h0 : t.filter p = [] := filter_eq_nil_iff.mpr fun r hr => by simp [ht r hr, hp]
  rw [h, filter_append, h0, append_nil]

theorem trans (h₁ : Fills width st st₁ t) (h₂ : Fills width st₁ st₂ u) :
    Fills width st st₂ (t ++ u) := by
  refine ⟨h₂.ok, fun p hp => ?_, ?_⟩
  · rw [h₂.kept p hp, filter_append, h₁.kept p hp, ← filter_append, append_assoc]
  · intro r hr
    rcases mem_append.mp (h₂.origin hr) with h | h
    · rcases mem_append.mp (h₁.origin h) with h | h
      · simp [h]
      · simp [h]
    · simp [h]

theorem foldl {α : Type} {f : Wrap → α → Wrap} {text : α → List ℕ} {xs : List α}
    (hf : ∀ st, st.Ok width → ∀ x ∈ xs, Fills width st (f st x) (text x)) (hst : st.Ok width) :
    Fills width st (xs.foldl f st) (xs.flatMap text) := by
  induction xs generalizing st with
  | nil => exact of_eq hst (by simp)
  | cons x xs ih =>
    have hx := hf st hst x (by simp)
    rw [foldl_cons, flatMap_cons]
    exact hx.trans (ih (fun st hst y hy => hf st hst y (by simp [hy])) hx.ok)

end Fills

theorem plainToken_fills {width : ℕ} {st : Wrap} (hpos : 0 < width) (hst : st.Ok width)
    {tok : Token} (hblank : tok.space = true → ∀ r ∈ tok.text, r = 0x20) :
    Fills width st (plainToken width st tok) tok.text := by
  rw [plainToken]
  split_ifs with h1 h2 h3 h4
  · exact .of_eq hst (by simp [h1])
  · exact .of_blank hst rfl (hblank h2)
  · exact .of_blank (hst.flush rfl true).1 (Wrap.text_flush rfl st true) (hblank h2)
  · exact .of_eq (Wrap.writes_put.ok hst (by omega)) (Wrap.writes_put.text st _)
  · obtain ⟨h5, h6⟩ :=
      Wrap.word_ok Wrap.writes_put (show inkRunes [] = [] from rfl) hpos hst tok.text
    exact .of_eq h5 h6

theorem markdownToken_fills {width : ℕ} {st : Wrap} {styleCode : Style} (hpos : 0 < width)
    (hst : st.Ok width) {tok : Token} (hblank : tok.space = true → tok.text = [0x20]) :
    Fills width st (markdownToken styleCode width st tok) tok.text := by
  have hw := Wrap.writes_styled styleCode
  rw [markdownToken]
  split_ifs with h1 h2 h3 h4
  · exact .of_eq hst (by simp [h1])
  · exact .of_blank hst rfl (by simp [hblank h2])
  · exact .of_blank (hst.flush rfl true).1 (Wrap.text_flush rfl st true) (by simp [hblank h2])
  · have h5 := hw.ok hst (t := [0x20]) (by simp; omega)
    refine .of_eq ⟨h5.visible_eq, h5.visible_le, h5.lines_le⟩ ?_
    rw [hblank h2, ← hw.text]
    rfl
  · obtain ⟨h5, h6⟩ :=
      Wrap.word_ok hw (show inkRunes [.sgr ansiReset] = [] from rfl) hpos hst tok.text
    exact .of_eq h5 h6

end Centaurx.SshServer
