import Centaurx.Lib.Utf16

namespace Centaurx.Markdown
open List

inductive Mark
  | escape | tick | star
  deriving DecidableEq

/-- The characters of the markup in an alphabet. -/
structure Marks (α : Type) where
  char : Mark → α
  inj : Function.Injective char

def byteOf : Mark → UInt8
  | .escape => 0x5C
  | .tick => 0x60
  | .star => 0x2A

theorem byteOf_injective : Function.Injective byteOf := by
  intro j k h
  cases j <;> cases k <;> first | rfl | exact absurd h (by decide)

theorem toNat_byteOf_injective : Function.Injective fun k => (byteOf k).toNat :=
  fun _ _ h => byteOf_injective (UInt8.toNat_inj.mp h)

def Marks.bytes : Marks UInt8 := ⟨byteOf, byteOf_injective⟩

/-- As runes, and as UTF-16 code units. -/
def Marks.codes : Marks ℕ := ⟨fun k => (byteOf k).toNat, toNat_byteOf_injective⟩

structure Span (α : Type) where
  text : List α
  bold : Bool
  italic : Bool
  code : Bool
  deriving DecidableEq

/-- The variables of the loop. -/
structure State (α : Type) where
  spans : List (Span α) := []
  buf : List α := []
  bold : Bool := false
  italic : Bool := false
  code : Bool := false
  deriving DecidableEq

open State

section Parser
variable {α : Type} [DecidableEq α]

def contains (marker : List α) : List α → Bool
  | [] => marker.isEmpty
  | c :: s => marker.isPrefixOf (c :: s) || contains marker s

def hasClosing (remaining marker : List α) : Bool :=
  !remaining.isEmpty && !marker.isEmpty && contains marker remaining

def State.flush (st : State α) : State α :=
  if st.buf = [] then st
  else { st with spans := st.spans ++ [⟨st.buf, st.bold, st.italic, st.code⟩], buf := [] }

def State.write (st : State α) (text : List α) : State α := { st with buf := st.buf ++ text }

/-- One round of the loop at the character `ch`, and how many more it consumes. -/
def step (m : Marks α) (st : State α) (ch : α) (rest : List α) : State α × ℕ :=
  if ch = m.char .escape ∧ rest ≠ [] then (st.write (rest.take 1), 1)
  else if ch = m.char .tick ∧ st.code then ({ st.flush with code := false }, 0)
  else if ch = m.char .tick ∧ hasClosing rest [m.char .tick] then
    ({ st.flush with code := true }, 0)
  else if st.code = false ∧ ch = m.char .star then
    if rest.head? = some (m.char .star) then
      if st.bold then ({ st.flush with bold := false }, 1)
      else if hasClosing (rest.drop 1) [m.char .star, m.char .star] then
        ({ st.flush with bold := true }, 1)
      else (st.write [m.char .star, m.char .star], 1)
    else if st.italic then ({ st.flush with italic := false }, 0)
    else if hasClosing rest [m.char .star] then ({ st.flush with italic := true }, 0)
    else (st.write [ch], 0)
  else (st.write [ch], 0)

/-- The loop, with the number of characters to pass over. -/
def run (m : Marks α) (st : State α) : ℕ → List α → State α
  | _, [] => st.flush
  | skip + 1, _ :: rest => run m st skip rest
  | 0, ch :: rest => run m (step m st ch rest).1 (step m st ch rest).2 rest

def parseInline (m : Marks α) (input : List α) : List (Span α) := (run m {} 0 input).spans

end Parser

section Text
variable {α : Type}

/-- What is written so far. -/
def State.text (st : State α) : List α := st.spans.flatMap Span.text ++ st.buf

theorem State.text_write (st : State α) (t : List α) : (st.write t).text = st.text ++ t := by
  simp [text, write]

theorem State.text_flush (st : State α) : st.flush.text = st.text := by
  rw [flush]
  split
  · rfl
  · simp [text]

theorem State.buf_flush (st : State α) : st.flush.buf = [] := by
  rw [flush]
  split
  · assumption
  · rfl

theorem take_star {m : Marks α} {rest : List α}
    (h : rest.head? = some (m.char .star)) : rest.take 1 = [m.char .star] := by
  obtain ⟨t, rfl⟩ := head?_eq_some_iff.mp h
  rfl

variable [DecidableEq α] {m : Marks α}

/-- What a round does at `ch`: it writes, or it changes the style and consumes marks. -/
inductive Round (m : Marks α) (st : State α) (ch : α) (rest : List α) : State α × ℕ → Prop
  | escape (hch : ch = m.char .escape) : Round m st ch rest (st.write (rest.take 1), 1)
  | style (k : Mark) (hch : ch = m.char k) (bold italic code : Bool) :
      Round m st ch rest (⟨st.flush.spans, st.flush.buf, bold, italic, code⟩, 0)
  | styleStars (hch : ch = m.char .star) (hrest : rest.head? = some (m.char .star))
      (bold italic code : Bool) :
      Round m st ch rest (⟨st.flush.spans, st.flush.buf, bold, italic, code⟩, 1)
  | writeStars (hch : ch = m.char .star) (hrest : rest.head? = some (m.char .star)) :
      Round m st ch rest (st.write [m.char .star, m.char .star], 1)
  | write : Round m st ch rest (st.write [ch], 0)

theorem step_round (st : State α) (ch : α) (rest : List α) :
    Round m st ch rest (step m st ch rest) := by
  rw [step]
  by_cases hescape : ch = m.char .escape ∧ rest ≠ []
  · rw [if_pos hescape]
    exact .escape hescape.1
  rw [if_neg hescape]
  by_cases hend : ch = m.char .tick ∧ st.code
  · rw [if_pos hend]
    exact .style .tick hend.1 ..
  rw [if_neg hend]
  by_cases htick : ch = m.char .tick ∧ hasClosing rest [m.char .tick]
  · rw [if_pos htick]
    exact .style .tick htick.1 ..
  rw [if_neg htick]
  by_cases hstar : st.code = false ∧ ch = m.char .star
  · rw [if_pos hstar]
    by_cases hrest : rest.head? = some (m.char .star)
    · rw [if_pos hrest]
      split
      · exact .styleStars hstar.2 hrest ..
      · split
        · exact .styleStars hstar.2 hrest ..
        · exact .writeStars hstar.2 hrest
    · rw [if_neg hrest]
      split
      · exact .style .star hstar.2 ..
      · split
        · exact .style .star hstar.2 ..
        · exact .write
  · rw [if_neg hstar]
    exact .write

/-- A round writes what it consumes, except for characters of the markup. -/
theorem text_step {p : α → Bool} (hp : ∀ k, p (m.char k) = false) (st : State α) (ch : α)
    (rest : List α) :
    (step m st ch rest).1.text.filter p =
      (st.text ++ ch :: rest.take (step m st ch rest).2).filter p := by
  have hset : ∀ bold italic code,
      text ⟨st.flush.spans, st.flush.buf, bold, italic, code⟩ = st.text :=
    fun _ _ _ => st.text_flush
  have hround := step_round (m := m) st ch rest
  generalize step m st ch rest = out at hround ⊢
  cases hround with
  | escape hch => simp [text_write, hch, hp]
  | style k hch bold italic code => simp [hset, hch, hp]
  | styleStars hch hrest bold italic code => simp [hset, hch, take_star hrest, hp]
  | writeStars hch hrest => simp [text_write, hch, take_star hrest, hp]
  | write => simp [text_write]

theorem text_run {p : α → Bool} (hp : ∀ k, p (m.char k) = false) (input : List α)
    (st : State α) (skip : ℕ) :
    (run m st skip input).text.filter p = (st.text ++ input.drop skip).filter p := by
  induction input generalizing st skip with
  | nil => simp [run, text_flush]
  | cons ch rest ih =>
    cases skip with
    | succ skip => simpa [run] using ih st skip
    | zero =>
      rw [run, ih, filter_append, text_step hp, ← filter_append, append_assoc,
        cons_append, take_append_drop, drop_zero]

theorem buf_run (input : List α) (st : State α) (skip : ℕ) : (run m st skip input).buf = [] := by
  induction input generalizing st skip with
  | nil => cases skip <;> exact st.buf_flush
  | cons ch rest ih =>
    cases skip with
    | succ skip => exact ih st skip
    | zero => exact ih _ _

/-- Of the text, only characters of the markup are lost. -/
theorem parseInline_text {p : α → Bool} (hp : ∀ k, p (m.char k) = false) (input : List α) :
    ((parseInline m input).flatMap Span.text).filter p = input.filter p := by
  have h := text_run (m := m) hp input {} 0
  rw [text, buf_run] at h
  simpa [text, parseInline] using h

end Text

section Spelling
variable {α β : Type} {m : Marks α} {m' : Marks β} {f : α → List β}

/-- The marks are spelled by one letter each, and other characters by letters that are none. -/
structure Spelling (m : Marks α) (m' : Marks β) (f : α → List β) : Prop where
  mark : ∀ k, f (m.char k) = [m'.char k]
  other : ∀ a, (∀ k, a ≠ m.char k) → f a ≠ [] ∧ ∀ b ∈ f a, ∀ k, b ≠ m'.char k

def Span.spell (f : α → List β) (s : Span α) : Span β :=
  ⟨s.text.flatMap f, s.bold, s.italic, s.code⟩

def State.spell (f : α → List β) (st : State α) : State β :=
  ⟨st.spans.map (Span.spell f), st.buf.flatMap f, st.bold, st.italic, st.code⟩

theorem State.spell_write (st : State α) (t : List α) :
    (st.write t).spell f = (st.spell f).write (t.flatMap f) := by
  simp [write, spell]

theorem Spelling.ne_nil (h : Spelling m m' f) (a : α) : f a ≠ [] := by
  by_cases ha : ∃ k, a = m.char k
  · obtain ⟨k, rfl⟩ := ha
    simp [h.mark]
  · exact (h.other a (not_exists.mp ha)).1

theorem Spelling.flatMap_eq_nil (h : Spelling m m' f) {rs : List α} :
    rs.flatMap f = [] ↔ rs = [] := by
  cases rs with
  | nil => simp
  | cons r rs => simp [h.ne_nil r]

theorem Spelling.flatMap_marks (h : Spelling m m' f) (t : List Mark) :
    (t.map m.char).flatMap f = t.map m'.char := by
  induction t with
  | nil => rfl
  | cons k t ih => rw [map_cons, flatMap_cons, h.mark, ih]; rfl

theorem State.spell_flush (h : Spelling m m' f) (st : State α) :
    st.flush.spell f = (st.spell f).flush := by
  have hbuf : (st.spell f).buf = [] ↔ st.buf = [] := h.flatMap_eq_nil
  by_cases hb : st.buf = []
  · rw [flush, if_pos hb, flush, if_pos (hbuf.mpr hb)]
  · rw [flush, if_neg hb, flush, if_neg (fun h => hb (hbuf.mp h))]
    simp [spell, Span.spell]

theorem Spelling.head?_star (h : Spelling m m' f) (rs : List α) :
    (rs.flatMap f).head? = some (m'.char .star) ↔ rs.head? = some (m.char .star) := by
  cases rs with
  | nil => simp
  | cons r rs =>
    by_cases hr : ∃ j, r = m.char j
    · obtain ⟨j, rfl⟩ := hr
      simp [h.mark, m.inj.eq_iff, m'.inj.eq_iff]
    · obtain ⟨hne, hother⟩ := h.other r (not_exists.mp hr)
      obtain ⟨b, bs, hb⟩ := exists_cons_of_ne_nil hne
      have h1 : b ≠ m'.char .star := hother b (by simp [hb]) _
      have h2 : r ≠ m.char .star := not_exists.mp hr _
      simp [hb, h1, h2]

variable [DecidableEq α] [DecidableEq β]

theorem Spelling.isPrefixOf (h : Spelling m m' f) (marker : List Mark) (rs : List α) :
    (marker.map m'.char).isPrefixOf (rs.flatMap f) = (marker.map m.char).isPrefixOf rs := by
  induction marker generalizing rs with
  | nil => simp
  | cons k marker ih =>
    cases rs with
    | nil => simp
    | cons r rs =>
      by_cases hr : ∃ j, r = m.char j
      · obtain ⟨j, rfl⟩ := hr
        rw [flatMap_cons, h.mark]
        simp only [map_cons, singleton_append, List.isPrefixOf, ih]
        rw [Bool.eq_iff_iff]
        simp [m.inj.eq_iff, m'.inj.eq_iff]
      · obtain ⟨hne, hother⟩ := h.other r (not_exists.mp hr)
        obtain ⟨b, bs, hb⟩ := exists_cons_of_ne_nil hne
        have h1 : (m'.char k == b) = false := beq_false_of_ne (hother b (by simp [hb]) k).symm
        have h2 : (m.char k == r) = false := beq_false_of_ne fun he => hr ⟨k, he.symm⟩
        simp [flatMap_cons, hb, List.isPrefixOf, h1, h2]

theorem contains_append_other {k : Mark} {marker : List Mark} {bs : List β}
    (hbs : ∀ b ∈ bs, ∀ k, b ≠ m'.char k) (rest : List β) :
    contains ((k :: marker).map m'.char) (bs ++ rest) =
      contains ((k :: marker).map m'.char) rest := by
  induction bs with
  | nil => rfl
  | cons b bs ih =>
    have hb : (m'.char k == b) = false := beq_false_of_ne (hbs b (by simp) k).symm
    rw [cons_append, contains, ih fun x hx => hbs x (by simp [hx])]
    simp [List.isPrefixOf, hb]

theorem Spelling.contains (h : Spelling m m' f) (k : Mark) (marker : List Mark) (rs : List α) :
    Markdown.contains ((k :: marker).map m'.char) (rs.flatMap f) =
      Markdown.contains ((k :: marker).map m.char) rs := by
  induction rs with
  | nil => rfl
  | cons r rs ih =>
    have hpre := h.isPrefixOf (k :: marker) (r :: rs)
    by_cases hr : ∃ j, r = m.char j
    · obtain ⟨j, rfl⟩ := hr
      rw [flatMap_cons, h.mark, singleton_append] at hpre ⊢
      rw [Markdown.contains, Markdown.contains, hpre, ih]
    · obtain ⟨-, hother⟩ := h.other r (not_exists.mp hr)
      have hne : (m.char k == r) = false := beq_false_of_ne fun he => hr ⟨k, he.symm⟩
      rw [flatMap_cons, contains_append_other hother, ih, Markdown.contains]
      simp [List.isPrefixOf, hne]

theorem Spelling.hasClosing (h : Spelling m m' f) (k : Mark) (marker : List Mark)
    (rs : List α) :
    Markdown.hasClosing (rs.flatMap f) ((k :: marker).map m'.char) =
      Markdown.hasClosing rs ((k :: marker).map m.char) := by
  have hempty : (rs.flatMap f).isEmpty = rs.isEmpty := by
    rw [Bool.eq_iff_iff, List.isEmpty_iff, List.isEmpty_iff, h.flatMap_eq_nil]
  rw [Markdown.hasClosing, Markdown.hasClosing, h.contains, hempty]
  rfl

theorem run_skip (st : State α) (skip : ℕ) (input : List α) :
    run m st skip input = run m st 0 (input.drop skip) := by
  induction input generalizing skip with
  | nil => simp [run]
  | cons ch rest ih =>
    cases skip with
    | zero => rfl
    | succ skip => exact ih skip

theorem step_other {ch : α} (h : ∀ k, ch ≠ m.char k) (st : State α) (rest : List α) :
    step m st ch rest = (st.write [ch], 0) := by
  simp [step, h]

theorem run_other {bs : List α} (h : ∀ b ∈ bs, ∀ k, b ≠ m.char k) (st : State α)
    (rest : List α) : run m st 0 (bs ++ rest) = run m (st.write bs) 0 rest := by
  induction bs generalizing st with
  | nil => simp [write]
  | cons b bs ih =>
    rw [cons_append, run, step_other (h b (by simp)), ih fun x hx => h x (by simp [hx])]
    simp [write]

/-- A round at a mark is the same in both spellings, unless the mark escapes the next
character. -/
theorem Spelling.step (h : Spelling m m' f) (st : State α) (k : Mark) (rest : List α)
    (hk : k = .escape → rest = []) :
    Markdown.step m' (st.spell f) (m'.char k) (rest.flatMap f) =
      ((Markdown.step m st (m.char k) rest).1.spell f, (Markdown.step m st (m.char k) rest).2) := by
  have htick := h.hasClosing .tick [] rest
  have hstar := h.hasClosing .star [] rest
  have hstars := h.hasClosing .star [.star] (rest.drop 1)
  have hdrop : rest.head? = some (m.char .star) →
      (rest.flatMap f).drop 1 = (rest.drop 1).flatMap f := by
    intro hr
    obtain ⟨t, rfl⟩ := head?_eq_some_iff.mp hr
    simp [h.mark]
  have hflush := st.spell_flush h
  have hcode : (st.spell f).code = st.code := rfl
  have hbold : (st.spell f).bold = st.bold := rfl
  have hitalic : (st.spell f).italic = st.italic := rfl
  simp only [map_cons, map_nil] at htick hstar hstars
  cases k with
  | escape =>
    obtain rfl := hk rfl
    simp [Markdown.step, m.inj.eq_iff, m'.inj.eq_iff, spell_write, h.mark]
  | tick =>
    simp only [Markdown.step, m.inj.eq_iff, m'.inj.eq_iff, reduceCtorEq, false_and, if_false,
      true_and, and_false, hcode, htick]
    split_ifs
    · rw [← hflush]
      rfl
    · rw [← hflush]
      rfl
    · rw [spell_write]
      simp [h.mark]
  | star =>
    simp only [Markdown.step, m.inj.eq_iff, m'.inj.eq_iff, reduceCtorEq, false_and, if_false,
      and_true, hcode, hbold, hitalic, hstar, h.head?_star]
    have hwrite : ∀ t : List Mark, ((st.spell f).write (t.map m'.char)) =
        (st.write (t.map m.char)).spell f := by
      intro t
      rw [spell_write, h.flatMap_marks]
    by_cases hs : rest.head? = some (m.char .star)
    · simp only [hs, if_true, hdrop hs, hstars]
      split_ifs
      · rw [← hflush]
        rfl
      · rw [← hflush]
        rfl
      · exact congrArg (·, 1) (hwrite [.star, .star])
      · exact congrArg (·, 0) (hwrite [.star])
    · simp only [hs, if_false]
      split_ifs
      · rw [← hflush]
        rfl
      · rw [← hflush]
        rfl
      · exact congrArg (·, 0) (hwrite [.star])
      · exact congrArg (·, 0) (hwrite [.star])

theorem step_snd {st : State α} {ch : α} {rest : List α} (hch : ch ≠ m.char .escape)
    (h : (step m st ch rest).2 ≠ 0) :
    (step m st ch rest).2 = 1 ∧ rest.head? = some (m.char .star) := by
  have hround := step_round (m := m) st ch rest
  generalize step m st ch rest = out at hround h ⊢
  cases hround with
  | escape hescape => exact absurd hescape hch
  | styleStars _ hrest | writeStars _ hrest => exact ⟨rfl, hrest⟩
  | style | write => exact absurd rfl h

theorem Spelling.run (h : Spelling m m' f) (st : State α) (rs : List α) :
    Markdown.run m' (st.spell f) 0 (rs.flatMap f) = (Markdown.run m st 0 rs).spell f := by
  -- By induction on the length: after an escape or two stars, two characters are gone.
  induction hn : rs.length using Nat.strong_induction_on generalizing rs st with
  | _ n ih =>
  cases rs with
  | nil => exact (st.spell_flush h).symm
  | cons r rest =>
    rw [length_cons] at hn
    rw [flatMap_cons]
    by_cases hr : ∃ k, r = m.char k
    · obtain ⟨k, rfl⟩ := hr
      rw [h.mark, singleton_append, Markdown.run, Markdown.run]
      by_cases hesc : k = .escape ∧ rest ≠ []
      · obtain ⟨rfl, hrest⟩ := hesc
        obtain ⟨next, rest, rfl⟩ := exists_cons_of_ne_nil hrest
        obtain ⟨b, bs, hb⟩ := exists_cons_of_ne_nil (h.ne_nil next)
        have hbs : ∀ c ∈ bs, ∀ k, c ≠ m'.char k := by
          by_cases hnext : ∃ j, next = m.char j
          · obtain ⟨j, rfl⟩ := hnext
            rw [h.mark] at hb
            simp [← (cons.inj hb).2]
          · exact fun c hc => (h.other next (not_exists.mp hnext)).2 c (by simp [hb, hc])
        have hstep : Markdown.step m st (m.char .escape) (next :: rest) = (st.write [next], 1) := by
          simp [Markdown.step]
        have hstep' : Markdown.step m' (st.spell f) (m'.char .escape)
            ((next :: rest).flatMap f) = ((st.spell f).write [b], 1) := by
          simp [Markdown.step, hb]
        rw [hstep, hstep', flatMap_cons, hb, cons_append, Markdown.run, Markdown.run,
          run_other hbs, ← ih rest.length (by simp at hn; omega) _ _ rfl, spell_write]
        simp [write, hb]
      · have hk : k = .escape → rest = [] := fun hk => by
          by_contra hne
          exact hesc ⟨hk, hne⟩
        rw [h.step st k rest hk, run_skip, run_skip (m := m)]
        generalize hst : Markdown.step m st (m.char k) rest = out
        obtain ⟨st', skip⟩ := out
        have hdrop : (rest.flatMap f).drop skip = (rest.drop skip).flatMap f := by
          cases skip with
          | zero => rfl
          | succ skip =>
            by_cases hke : k = .escape
            · simp [hk hke]
            · have hskip : (Markdown.step m st (m.char k) rest).2 ≠ 0 := by rw [hst]; simp
              obtain ⟨h1, h2⟩ := step_snd (m.inj.ne hke) hskip
              rw [hst] at h1
              obtain ⟨t, rfl⟩ := head?_eq_some_iff.mp h2
              simp at h1
              simp [h1, h.mark]
        simp only [hdrop]
        exact ih _ (by simp; omega) _ _ rfl
    · obtain ⟨-, hother⟩ := h.other r (not_exists.mp hr)
      rw [run_other hother, Markdown.run, step_other (not_exists.mp hr),
        ← ih rest.length (by omega) _ _ rfl, spell_write]
      simp

theorem Spelling.parseInline (h : Spelling m m' f) (rs : List α) :
    Markdown.parseInline m' (rs.flatMap f) = (Markdown.parseInline m rs).map (Span.spell f) := by
  rw [Markdown.parseInline, Markdown.parseInline, show ({} : State β) = spell f {} from rfl,
    h.run]
  rfl

end Spelling

theorem utf8_spelling : Spelling Marks.codes Marks.bytes Go.encodeRune := by
  refine ⟨fun k => by cases k <;> decide, fun r hr => ⟨?_, fun b hb k hbk => ?_⟩⟩
  · obtain ⟨b, bs, henc, -⟩ := Go.encodeRune_cons r
    simp [henc]
  · subst hbk
    exact hr k (Go.mem_encodeRune_ascii hb (by cases k <;> decide))

/-- On the encoding of a text the parser finds the encoded spans of the text. -/
theorem parseInline_ofRunes (rs : List ℕ) :
    parseInline Marks.bytes (Go.ofRunes rs) =
      (parseInline Marks.codes rs).map (Span.spell Go.encodeRune) :=
  utf8_spelling.parseInline rs

/-- The parser of the web client. -/
def Web.parseMarkdown (text : List ℕ) : List (Span ℕ) := parseInline Marks.codes text

/-- The parser of the Android client. -/
def Android.parseMarkdown (text : List ℕ) : List (Span ℕ) := parseInline Marks.codes text

theorem utf16_spelling : Spelling Marks.codes Marks.codes Go.utf16 := by
  have hsmall : ∀ k, (byteOf k).toNat < 0x80 := by
    intro k
    cases k <;> decide
  refine ⟨fun k => if_pos ((hsmall k).trans (by decide)), fun r hr => ?_⟩
  rw [Go.utf16]
  split
  · exact ⟨by simp, fun b hb k => by rw [mem_singleton.mp hb]; exact hr k⟩
  -- Both halves of a surrogate pair lie above every mark.
  · refine ⟨by simp, fun b hb k hbk => ?_⟩
    have hb' : b = 0xD800 + (r - 0x10000) / 0x400 ∨ b = 0xDC00 + (r - 0x10000) % 0x400 := by
      simpa using hb
    have hlt : b < 0x80 := hbk ▸ hsmall k
    omega

section Scalars
variable {α : Type} [DecidableEq α] {m : Marks α}

theorem mem_of_mem_span {input : List α} {s : Span α} (hs : s ∈ parseInline m input) {c : α}
    (hc : c ∈ s.text) (hm : ∀ k, c ≠ m.char k) : c ∈ input := by
  have htext := parseInline_text (m := m) (p := fun x => decide (x = c))
    (fun k => by simpa using (hm k).symm) input
  have hmem : c ∈ (parseInline m input).flatMap Span.text := mem_flatMap.mpr ⟨s, hs, hc⟩
  have hfilter : c ∈ ((parseInline m input).flatMap Span.text).filter fun x => decide (x = c) :=
    mem_filter.mpr ⟨hmem, by simp⟩
  rw [htext] at hfilter
  exact mem_of_mem_filter hfilter

end Scalars

theorem scalar_of_mem_span {rs : List ℕ} (hrs : ∀ r ∈ rs, Go.Scalar r) {s : Span ℕ}
    (hs : s ∈ parseInline Marks.codes rs) : ∀ r ∈ s.text, Go.Scalar r := by
  intro r hr
  by_cases hm : ∃ k, r = Marks.codes.char k
  · obtain ⟨k, rfl⟩ := hm
    exact .inl (by cases k <;> decide)
  · exact hrs r (mem_of_mem_span hs hr (not_exists.mp hm))

/-- **The same markdown in all frontends.** Of a text of Unicode scalar values, the terminal
finds the spans of one list in UTF-8, and the browser and the Android app those of the same list
in UTF-16. -/
theorem frontends_agree {rs : List ℕ} (hrs : ∀ r ∈ rs, Go.Scalar r) :
    ∃ spans : List (Span ℕ), (∀ s ∈ spans, ∀ r ∈ s.text, Go.Scalar r) ∧
      parseInline Marks.bytes (Go.ofRunes rs) = spans.map (Span.spell Go.encodeRune) ∧
      Web.parseMarkdown (rs.flatMap Go.utf16) = spans.map (Span.spell Go.utf16) ∧
      Android.parseMarkdown (rs.flatMap Go.utf16) = spans.map (Span.spell Go.utf16) := by
  refine ⟨parseInline Marks.codes rs, fun s hs => scalar_of_mem_span hrs hs,
    parseInline_ofRunes rs, ?_, ?_⟩
  · exact utf16_spelling.parseInline rs
  · exact utf16_spelling.parseInline rs

/-- A character outside the basic plane after a backslash: the parsers take it in pieces. -/
theorem frontends_agree_escaped : ∃ spans : List (Span ℕ),
    (∀ s ∈ spans, ∀ r ∈ s.text, Go.Scalar r) ∧
      parseInline Marks.bytes (Go.ofRunes [0x5C, 0x1F600, 0x2A, 0x61, 0x2A]) =
        spans.map (Span.spell Go.encodeRune) ∧
      Web.parseMarkdown ([0x5C, 0x1F600, 0x2A, 0x61, 0x2A].flatMap Go.utf16) =
        spans.map (Span.spell Go.utf16) ∧
      Android.parseMarkdown ([0x5C, 0x1F600, 0x2A, 0x61, 0x2A].flatMap Go.utf16) =
        spans.map (Span.spell Go.utf16) :=
  frontends_agree (by decide)

end Centaurx.Markdown
