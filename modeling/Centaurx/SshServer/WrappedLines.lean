import Centaurx.SshServer.Render
import Centaurx.SshServer.VisibleWidth
import Mathlib.Data.List.Chain

namespace Centaurx.SshServer
open Go List Function

/-- A token is a run of white space or of other runes. -/
structure Token.Ok (tok : Token) : Prop where
  ne_nil : tok.text ≠ []
  spaces : ∀ r ∈ tok.text, isSpace r = tok.space

/-- Runs of white space and words alternate. -/
def Alternate (toks : List Token) : Prop := toks.IsChain fun tok tok' => tok.space ≠ tok'.space

def Token.words (tok : Token) : List (List ℕ) := if tok.space then [] else [tok.text]

variable {buf : List ℕ}

theorem flush_ok {space : Bool} (hbuf : ∀ r ∈ buf, isSpace r = space) :
    ∀ tok ∈ Token.flush buf space, tok.Ok := by
  intro tok htok
  rw [Token.flush] at htok
  split_ifs at htok with hnil
  · simp at htok
  · obtain rfl := mem_singleton.mp htok
    exact ⟨hnil, hbuf⟩

theorem flush_words {space : Bool} (hbuf : ∀ r ∈ buf, isSpace r = space) :
    (Token.flush buf space).flatMap Token.words = wordsOf isSpace buf := by
  rw [Token.flush]
  split_ifs with hnil
  · rw [hnil, wordsOf_nil]
    rfl
  · cases space with
    | true =>
      rw [wordsOf_breaks hbuf]
      rfl
    | false =>
      rw [wordsOf_of_no_break hnil hbuf]
      rfl

theorem tokenizeFrom_ok {inSpace : Bool} (hbuf : ∀ r ∈ buf, isSpace r = inSpace) (rs : List ℕ) :
    ∀ tok ∈ tokenizeFrom inSpace buf rs, tok.Ok := by
  induction rs generalizing inSpace buf with
  | nil => exact flush_ok hbuf
  | cons r rs ih =>
    rw [tokenizeFrom_cons]
    split_ifs with hr
    · exact ih (forall_mem_append.mpr ⟨hbuf, by simpa [isSpace_squash] using hr⟩)
    · have hnext : isSpace (squash r) = !inSpace := (isSpace_squash r).trans (Bool.eq_not.mpr hr)
      rw [forall_mem_append]
      exact ⟨flush_ok hbuf, ih (forall_mem_singleton.mpr hnext)⟩

theorem tokenizeFrom_head (inSpace : Bool) (hne : buf ≠ []) (rs : List ℕ) :
    ∃ text toks, tokenizeFrom inSpace buf rs = ⟨text, inSpace⟩ :: toks := by
  induction rs generalizing buf with
  | nil => exact ⟨buf, [], by rw [tokenizeFrom, Token.flush, if_neg hne]⟩
  | cons r rs ih =>
    rw [tokenizeFrom_cons]
    split_ifs
    · exact ih (by simp)
    · exact ⟨buf, _, by rw [Token.flush, if_neg hne, singleton_append]⟩

theorem alternate_flush {space : Bool} {buf' : List ℕ} (hne : buf' ≠ []) {rs : List ℕ}
    (h : Alternate (tokenizeFrom (!space) buf' rs)) :
    Alternate (Token.flush buf space ++ tokenizeFrom (!space) buf' rs) := by
  obtain ⟨text, toks, htoks⟩ := tokenizeFrom_head (!space) hne rs
  rw [htoks] at h ⊢
  rw [Token.flush]
  split_ifs
  · exact h
  · exact isChain_cons_cons.mpr ⟨by simp, h⟩

theorem tokenizeFrom_alternate (inSpace : Bool) (buf rs : List ℕ) :
    Alternate (tokenizeFrom inSpace buf rs) := by
  induction rs generalizing inSpace buf with
  | nil =>
    rw [tokenizeFrom, Token.flush]
    split_ifs
    · exact isChain_nil
    · exact isChain_singleton _
  | cons r rs ih =>
    rw [tokenizeFrom_cons]
    split_ifs
    · exact ih inSpace _
    · exact alternate_flush (by simp) (ih (!inSpace) [squash r])

theorem wordsOf_squash (buf : List ℕ) (r : ℕ) (rs : List ℕ) :
    wordsOf isSpace (buf ++ squash r :: rs) = wordsOf isSpace (buf ++ r :: rs) := by
  by_cases hr : isSpace r = true
  · rw [wordsOf_append_cons ((isSpace_squash r).trans hr), wordsOf_append_cons hr]
  · rw [squash, if_neg hr]

/-- Where white space begins or ends, the words do. -/
theorem wordsOf_append_other {inSpace : Bool} (hbuf : ∀ r ∈ buf, isSpace r = inSpace) {r : ℕ}
    (hr : ¬isSpace r = inSpace) (rs : List ℕ) :
    wordsOf isSpace (buf ++ r :: rs) = wordsOf isSpace buf ++ wordsOf isSpace (r :: rs) := by
  cases inSpace with
  | true => rw [wordsOf_breaks_append hbuf, wordsOf_breaks hbuf, nil_append]
  | false =>
    rw [Bool.not_eq_false] at hr
    have hfirst := wordsOf_append_cons hr [] rs
    rw [nil_append, wordsOf_nil, nil_append] at hfirst
    rw [wordsOf_append_cons hr, hfirst]

theorem tokenizeFrom_words {inSpace : Bool} (hbuf : ∀ r ∈ buf, isSpace r = inSpace) (rs : List ℕ) :
    (tokenizeFrom inSpace buf rs).flatMap Token.words = wordsOf isSpace (buf ++ rs) := by
  induction rs generalizing inSpace buf with
  | nil => rw [tokenizeFrom, flush_words hbuf, append_nil]
  | cons r rs ih =>
    rw [tokenizeFrom_cons]
    split_ifs with hr
    · rw [ih (forall_mem_append.mpr ⟨hbuf, by simpa [isSpace_squash] using hr⟩),
        append_assoc, singleton_append, wordsOf_squash]
    · have hnext : isSpace (squash r) = !inSpace := (isSpace_squash r).trans (Bool.eq_not.mpr hr)
      rw [flatMap_append, flush_words hbuf, ih (forall_mem_singleton.mpr hnext),
        wordsOf_append_other hbuf hr]
      exact congrArg (wordsOf isSpace buf ++ ·) (wordsOf_squash [] r rs)

namespace Wrap

variable {width : ℕ} {st : Wrap}

/-- The words in all rows. -/
def words (st : Wrap) : List (List ℕ) :=
  (st.lines.flatMap fun row => wordsOf isSpace (inkRunes row)) ++ wordsOf isSpace (inkRunes st.b)

/-- The row is empty or ends with white space. -/
def Ready (st : Wrap) : Prop := ∀ r ∈ (inkRunes st.b).getLast?, isSpace r = true

/-- What becomes of a word. -/
def pieces (width : ℕ) (w : List ℕ) : List (List ℕ) :=
  if w.length ≤ width then [w] else slicesN width w.length w

theorem words_put (st : Wrap) (t : List ℕ) :
    (st.put t).words = (st.lines.flatMap fun row => wordsOf isSpace (inkRunes row)) ++
      wordsOf isSpace (inkRunes st.b ++ t) := by
  rw [words, writes_put.lines, writes_put.runes]

theorem words_flush (st : Wrap) (wrapped : Bool) : (st.flush [] wrapped).words = st.words := by
  rw [flush]
  split_ifs
  · rfl
  · simp only [words, flatMap_append, flatMap_singleton, append_nil]
    exact append_nil _

theorem runes_flush (st : Wrap) (close : List Ink) (wrapped : Bool) :
    inkRunes (st.flush close wrapped).b = [] := by
  rw [flush]
  split_ifs with hb
  · rw [hb]
    rfl
  · rfl

theorem ready_of_nil (h : inkRunes st.b = []) : st.Ready := by simp [Ready, h]

theorem Ready.put (h : st.Ready) {w : List ℕ} (hne : w ≠ []) (hw : ∀ r ∈ w, isSpace r = false) :
    (st.put w).words = st.words ++ [w] := by
  rw [words_put, wordsOf_append_word h hne hw, words, append_assoc]

theorem slices_words (hpos : 0 < width) (n : ℕ) (w : List ℕ) (hn : w.length ≤ n)
    (hw : ∀ r ∈ w, isSpace r = false) (hst : st.Ok width) (h0 : inkRunes st.b = []) :
    ((slicesN width n w).foldl (slice [] put width) st).words =
      st.words ++ slicesN width n w := by
  induction n generalizing st w with
  | zero => simp [slicesN]
  | succ n ih =>
    cases w with
    | nil => simp [slicesN]
    | cons r rs =>
      have hne : (r :: rs).take width ≠ [] := by simp [hpos.ne']
      have htake : ∀ x ∈ (r :: rs).take width, isSpace x = false := fun x hx =>
        hw x (mem_of_mem_take hx)
      have hput := (ready_of_nil h0).put hne htake
      have hvisible : st.visible = 0 := by rw [hst.visible_eq, h0, length_nil]
      have hok := writes_put.ok hst (t := (r :: rs).take width) (by simp; omega)
      rw [slicesN, foldl_cons, slice]
      split_ifs with hfull
      · have hdrop : ∀ x ∈ (r :: rs).drop width, isSpace x = false := fun x hx =>
          hw x (mem_of_mem_drop hx)
        rw [ih _ (by simp at hn ⊢; omega) hdrop (hok.flush rfl true).1 (runes_flush _ _ _),
          words_flush, hput, append_assoc, singleton_append]
      · -- The last slice is the only one that does not fill its row.
        have hlen : (r :: rs).length ≤ width := by
          by_contra h
          rw [writes_put.visible, hvisible, length_take] at hfull
          omega
        have hslices : slicesN width n [] = [] := by cases n <;> rfl
        rw [drop_eq_nil_of_le hlen, hslices]
        exact hput

theorem word_words (hpos : 0 < width) (hst : st.Ok width) (hready : st.Ready) {w : List ℕ}
    (hne : w ≠ []) (hw : ∀ r ∈ w, isSpace r = false) :
    (st.word [] put width w).words = st.words ++ pieces width w := by
  rw [word, pieces]
  by_cases hlong : w.length > width
  · rw [if_pos hlong, if_neg (Nat.not_le.mpr hlong)]
    by_cases hvisible : st.visible > 0
    · have hflush := hst.flush (show inkRunes [] = [] from rfl) true
      simp only [if_pos hvisible]
      rw [slices_words hpos _ w le_rfl hw hflush.1 (runes_flush _ _ _), words_flush]
    · have h0 : inkRunes st.b = [] := by
        rw [← length_eq_zero_iff, ← hst.visible_eq]
        omega
      simp only [if_neg hvisible]
      rw [slices_words hpos _ w le_rfl hw hst h0]
  · rw [if_neg hlong, if_pos (Nat.not_lt.mp hlong)]
    by_cases hfull : st.visible + w.length > width ∧ st.visible > 0
    · simp only [if_pos hfull]
      exact ((ready_of_nil (runes_flush _ _ _)).put hne hw).trans (by rw [words_flush])
    · simp only [if_neg hfull]
      exact hready.put hne hw

/-- White space makes no word, and the next word is kept apart. -/
theorem space_words (hst : st.Ok width) {tok : Token} (htok : tok.Ok) (hspace : tok.space = true) :
    (plainToken width st tok).words = st.words ∧ (plainToken width st tok).Ready := by
  have hbreaks : ∀ r ∈ tok.text, isSpace r = true := fun r hr => (htok.spaces r hr).trans hspace
  rw [plainToken, if_neg htok.ne_nil, if_pos hspace]
  split_ifs with hleading hfull
  · refine ⟨rfl, ready_of_nil ?_⟩
    rw [← length_eq_zero_iff, ← hst.visible_eq]
    exact hleading.1
  · exact ⟨words_flush st true, ready_of_nil (runes_flush _ _ _)⟩
  · constructor
    · rw [words_put, wordsOf_append_breaks hbreaks, words]
    · intro r hr
      rw [writes_put.runes, getLast?_append_of_ne_nil _ htok.ne_nil] at hr
      exact hbreaks r (mem_of_getLast? hr)

theorem foldl_words (hpos : 0 < width) {toks : List Token} (htoks : ∀ tok ∈ toks, tok.Ok)
    (hblank : ∀ tok ∈ toks, tok.space = true → ∀ r ∈ tok.text, r = 0x20)
    (halternate : Alternate toks) (hst : st.Ok width)
    (hready : ∀ tok ∈ toks.head?, tok.space = false → st.Ready) :
    (toks.foldl (plainToken width) st).words =
      st.words ++ (toks.flatMap Token.words).flatMap (pieces width) := by
  -- A word follows white space, which left the row ready for it.
  induction toks generalizing st with
  | nil => simp
  | cons tok toks ih =>
    rw [forall_mem_cons] at htoks hblank
    obtain ⟨hnext, htail⟩ := isChain_cons.mp halternate
    have hok := (plainToken_fills hpos hst hblank.1).ok
    rw [foldl_cons, flatMap_cons, flatMap_append]
    cases hspace : tok.space with
    | true =>
      obtain ⟨hwords, hready'⟩ := space_words hst htoks.1 hspace
      rw [ih htoks.2 hblank.2 htail hok fun _ _ _ => hready', hwords]
      simp [Token.words, hspace]
    | false =>
      have hstep : (plainToken width st tok).words = st.words ++ pieces width tok.text := by
        rw [plainToken, if_neg htoks.1.ne_nil, hspace, if_neg Bool.false_ne_true]
        exact word_words hpos hst (hready tok rfl hspace) htoks.1.ne_nil fun r hr =>
          (htoks.1.spaces r hr).trans hspace
      have hother : ∀ tok' ∈ toks.head?, tok'.space = false →
          (plainToken width st tok).Ready := by
        intro tok' htok' hspace'
        exact absurd (hspace.trans hspace'.symm) (hnext tok' htok')
      rw [ih htoks.2 hblank.2 htail hok hother, hstep]
      simp [Token.words, hspace]

end Wrap

theorem plainRows_words {width : ℕ} (hpos : 0 < width) (text : GoString) :
    ((plainRows text width).flatMap fun row => wordsOf isSpace (inkRunes row)) =
      (wordsOf isSpace (toRunes text)).flatMap (Wrap.pieces width) := by
  have hnil : ∀ r ∈ ([] : List ℕ), isSpace r = false := by simp
  have hfold := Wrap.foldl_words hpos (tokenizeFrom_ok hnil (toRunes text))
    (tokenizeFrom_space false [] (toRunes text) (by simp))
    (tokenizeFrom_alternate false [] (toRunes text)) (ok_start width)
    (fun _ _ _ => Wrap.ready_of_nil rfl)
  rw [tokenizeFrom_words hnil, nil_append, ← Wrap.words_flush _ false, Wrap.words,
    Wrap.runes_flush, wordsOf_nil, append_nil] at hfold
  exact hfold

theorem flatMap_orEmpty {α β : Type} {f : List α → List β} (hf : f [] = []) (rows : List (List α)) :
    (orEmpty rows).flatMap f = rows.flatMap f := by
  rw [orEmpty]
  split_ifs with h
  · rw [h, flatMap_singleton, hf, flatMap_nil]
  · rfl

theorem filter_squash (rs : List ℕ) :
    ((rs.map squash).filter fun r => !isSpace r) = rs.filter fun r => !isSpace r := by
  induction rs with
  | nil => rfl
  | cons r rs ih =>
    have hblank : isSpace 0x20 = true := by decide
    cases hr : isSpace r with
    | true => simp [squash, hr, hblank, ih]
    | false => simp [squash, hr, ih]

theorem RowsOf.shown {width : ℕ} {rows : List (List Ink)} {t : List ℕ}
    (h : RowsOf width rows (t.map squash)) {lines : List GoString} {f : GoString → List ℕ}
    (hlines : lines.map f = orEmpty (rows.map inkRunes)) :
    (∀ line ∈ lines, (f line).length ≤ width) ∧
      ((lines.flatMap f).filter fun r => !isSpace r) = t.filter fun r => !isSpace r := by
  constructor
  · have hle : ∀ rs ∈ lines.map f, rs.length ≤ width := by
      rw [hlines, orEmpty]
      split_ifs
      · simp
      · rw [forall_mem_map]
        exact h.width_le
    exact forall_mem_map.mp hle
  · have hflat := flatMap_orEmpty (f := id) rfl (rows.map inkRunes)
    rw [← hlines, flatMap_map, flatMap_map] at hflat
    rw [← filter_squash t]
    exact (congrArg _ hflat).trans (h.kept _ (by decide))

theorem toRunes_wrapPlainLines {width : ℕ} (hpos : 0 < width) (text : GoString) :
    (wrapPlainLines text width).map toRunes =
      orEmpty ((plainRows (sanitizeOutputLine text) width).map inkRunes) := by
  obtain ⟨-, hrunes⟩ := plainRows_spec hpos text
  rw [wrapPlainLines_eq hpos, plainPieces, orEmpty_map _ rfl, orEmpty_map _ rfl, map_map,
    map_map]
  congr 1
  apply map_congr_left
  intro row hrow
  simp [rowString, Piece.bytes, toRunes_ofRunes fun r hr => (hrunes row hrow r hr).1]

/-- **Plain wrapping.** No line is too wide, the runes that are no white space are all there, and
every word that fits into a line is a word of one line; longer ones are cut into slices. -/
theorem wrapPlainLines_words {width : ℕ} (hpos : 0 < width) (text : GoString) :
    (∀ line ∈ wrapPlainLines text width, (toRunes line).length ≤ width) ∧
    (((wrapPlainLines text width).flatMap toRunes).filter fun r => !isSpace r) =
      ((toRunes (sanitizeOutputLine text)).filter fun r => !isSpace r) ∧
    ((wrapPlainLines text width).flatMap fun line => wordsOf isSpace (toRunes line)) =
      (wordsOf isSpace (toRunes (sanitizeOutputLine text))).flatMap fun w =>
        if w.length ≤ width then [w] else Wrap.slicesN width w.length w := by
  have hlines := toRunes_wrapPlainLines hpos text
  obtain ⟨hrows, -⟩ := plainRows_spec hpos text
  obtain ⟨hle, hkept⟩ := hrows.shown hlines
  refine ⟨hle, ?_, ?_⟩
  · rw [hkept, toRunes_sanitizeOutputLine]
  · have hwords := plainRows_words hpos (sanitizeOutputLine text)
    rw [← flatMap_map, hlines, flatMap_orEmpty wordsOf_nil, flatMap_map, hwords]
    rfl

theorem wrapPlainLines_words_narrow :
    ((wrapPlainLines (lit "to be continued") 6).flatMap fun line =>
        wordsOf isSpace (toRunes line)) =
      [toRunes (lit "to"), toRunes (lit "be"), toRunes (lit "contin"), toRunes (lit "ued")] :=
  (wrapPlainLines_words (by decide) _).2.2.trans (by decide)

section Markdown
open Markdown
variable {width : ℕ} (hpos : 0 < width) (text : GoString) (style : MarkdownStyle)

include hpos

theorem renderMarkdownLines_rows :
    renderMarkdownLines text width style =
      orEmpty ((markdownRows (parseInline Marks.bytes (sanitizeOutputLine text)) width style).map
        fun row => rowString (writeOut (row ++ [.sgr ansiReset]))) := by
  rw [renderMarkdownLines_eq hpos, markdownPieces, orEmpty_map _ rfl, map_map]
  simp [comp_def, writeOut, Piece.map]

theorem visibleRunes_renderMarkdownLines :
    (renderMarkdownLines text width style).map visibleRunes =
      orEmpty ((markdownRows (parseInline Marks.bytes (sanitizeOutputLine text)) width style).map
        inkRunes) := by
  obtain ⟨-, hrunes⟩ := markdownRows_spec hpos text style
  rw [renderMarkdownLines_rows hpos, orEmpty_map _ rfl, map_map]
  congr 1
  apply map_congr_left
  intro row hrow
  have hreset : inkRunes (row ++ [.sgr ansiReset]) = inkRunes row := by
    rw [inkRunes_append]
    exact append_nil _
  have hprinted : ∀ r ∈ inkRunes (row ++ [.sgr ansiReset]), Scalar r ∧ r ≠ 0x1B := by
    rw [hreset]
    exact hrunes row hrow
  exact (visibleRunes_rowString hprinted).trans hreset

/-- **Markdown wrapping.** No line is too wide, every line that is not empty ends with a reset, and
the runes of the spans that are no white space are all seen, in order. -/
theorem renderMarkdownLines_shows :
    (∀ line ∈ renderMarkdownLines text width style,
      visibleWidth line ≤ width ∧ (line ≠ [] → ansiReset.code <:+ line)) ∧
    (((renderMarkdownLines text width style).flatMap visibleRunes).filter fun r => !isSpace r) =
      (((parseInline Marks.bytes (sanitizeOutputLine text)).flatMap fun span =>
        toRunes span.text).filter fun r => !isSpace r) := by
  obtain ⟨hrows, -⟩ := markdownRows_spec hpos text style
  obtain ⟨hle, hkept⟩ := hrows.shown (visibleRunes_renderMarkdownLines hpos text style)
  constructor
  · intro line hline
    constructor
    · rw [← length_visibleRunes]
      exact hle line hline
    · intro hne
      rw [renderMarkdownLines_rows hpos, orEmpty] at hline
      split_ifs at hline
      · exact absurd (mem_singleton.mp hline) hne
      · obtain ⟨row, -, rfl⟩ := mem_map.mp hline
        refine ⟨rowString (writeOut row), ?_⟩
        simp [rowString, writeOut, Piece.map, Piece.bytes]
  · rw [hkept, spans_runes]

end Markdown

theorem renderMarkdownLines_shows_bold :
    renderMarkdownLines (lit "a **b**") 2 {} =
        [lit "a " ++ ansiReset.code ++ ansiReset.code,
          ansiReset.code ++ ansiBold.code ++ lit "b" ++ ansiReset.code ++ ansiReset.code] ∧
      (((renderMarkdownLines (lit "a **b**") 2 {}).flatMap visibleRunes).filter fun r =>
        !isSpace r) = [0x61, 0x62] :=
  ⟨by decide, (renderMarkdownLines_shows (by decide) _ _).2.trans (by decide)⟩

end Centaurx.SshServer
