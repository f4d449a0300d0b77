import Centaurx.Markdown
import Mathlib.Algebra.Group.Nat.Even
import Mathlib.Data.List.Infix

namespace Centaurx.Markdown
open List

inductive Style
  | code | bold | italic
  deriving DecidableEq

/-- What the scan takes a piece of the input for. -/
inductive Token (α : Type)
  | char (c : α)
  | escaped (c : α)
  | opening (k : Style)
  | closing (k : Style)
  /-- A marker that is not closed. -/
  | literal (k : Style)
  deriving DecidableEq

section Tokens
variable {α : Type} (m : Marks α)

def Style.marker : Style → List α
  | .code => [m.char .tick]
  | .bold => [m.char .star, m.char .star]
  | .italic => [m.char .star]

def State.style (st : State α) : Style → Bool
  | .code => st.code
  | .bold => st.bold
  | .italic => st.italic

def State.setStyle (st : State α) (on : Bool) : Style → State α
  | .code => { st with code := on }
  | .bold => { st with bold := on }
  | .italic => { st with italic := on }

/-- The piece of the input that a token stands for. -/
def Token.source : Token α → List α
  | .char c => [c]
  | .escaped c => [m.char .escape, c]
  | .opening k | .closing k | .literal k => k.marker m

/-- What is left of a token when no marker is taken out. -/
def Token.kept : Token α → List α
  | .char c | .escaped c => [c]
  | .opening k | .closing k | .literal k => k.marker m

/-- What the parser writes for a token. -/
def Token.written : Token α → List α
  | .char c | .escaped c => [c]
  | .opening _ | .closing _ => []
  | .literal k => k.marker m

def Token.marks (k : Style) : Token α → Bool
  | .char _ | .escaped _ => false
  | .opening k' | .closing k' | .literal k' => k' = k

/-- Whether the style is on after a token. -/
def Token.turns (k : Style) (on : Bool) : Token α → Bool
  | .opening k' => if k' = k then true else on
  | .closing k' => if k' = k then false else on
  | .char _ | .escaped _ | .literal _ => on

def State.apply (st : State α) : Token α → State α
  | .char c | .escaped c => st.write [c]
  | .opening k => st.flush.setStyle true k
  | .closing k => st.flush.setStyle false k
  | .literal k => st.write (k.marker m)

variable [DecidableEq α]

/-- The marker that the scan sees, if any; stars are not seen in code. -/
def markerAt (code : Bool) (ch : α) (rest : List α) : Option Style :=
  if ch = m.char .tick then some .code
  else if code = false ∧ ch = m.char .star then
    if rest.head? = some (m.char .star) then some .bold else some .italic
  else none

/-- What becomes of a marker: a style that is on is closed, another one is opened if the marker
occurs in the rest. -/
def turn (k : Style) (on : Bool) (rest : List α) : Token α :=
  if on then .closing k else if contains (k.marker m) rest then .opening k else .literal k

/-- The token of one round of the loop. -/
def token (st : State α) (ch : α) (rest : List α) : Token α :=
  match markerAt m st.code ch rest with
  | some k => turn m k (st.style k) (rest.drop ((k.marker m).length - 1))
  | none =>
    match rest with
    | next :: _ => if ch = m.char .escape then .escaped next else .char ch
    | [] => .char ch

/-- What a token leaves of the characters after its first. -/
def Token.after (t : Token α) (rest : List α) : List α := rest.drop ((t.source m).length - 1)

/-- The tokens of the scan, each with the input after it. -/
def scan (st : State α) : ℕ → List α → List (Token α)
  | _, [] => []
  | skip + 1, _ :: rest => scan st skip rest
  | 0, ch :: rest =>
    let t := token m st ch rest
    t :: scan (st.apply m t) ((t.source m).length - 1) rest

def tokens (input : List α) : List (Token α) := scan m {} 0 input

/-- The text behind each marker of a kind, read off the text alone. A backslash hides the next
character. A backtick ends code, or begins it if there is another one; stars count outside code. -/
def behind (k : Style) : Bool → List α → List (List α)
  | _, [] => []
  | code, ch :: rest =>
    if ch = m.char .tick then
      (if k = .code then [rest] else []) ++ behind k (!code && m.char .tick ∈ rest) rest
    else if code = false ∧ ch = m.char .star then
      match rest with
      | [] => if k = .italic then [[]] else []
      | next :: rest =>
        if next = m.char .star then (if k = .bold then [rest] else []) ++ behind k code rest
        else (if k = .italic then [next :: rest] else []) ++ behind k code (next :: rest)
    else if ch = m.char .escape then
      match rest with
      | [] => []
      | _ :: rest => behind k code rest
    else behind k code rest

/-- Every marker that opens is followed by one that closes. -/
def AllClosed (ts : List (Token α)) : Prop :=
  ∀ k after, .opening k :: after <:+ ts → .closing k ∈ after

def Token.paired (before after : List (Token α)) : Token α → Bool
  | .opening k => .closing k ∈ after
  | .closing k => .opening k ∈ before
  | .char _ | .escaped _ | .literal _ => false

/-- The tokens without the paired markers and the backslashes. -/
def stripped : List (Token α) → List (Token α) → List α
  | _, [] => []
  | before, t :: after =>
    (if t.paired before after then [] else t.kept m) ++ stripped (before ++ [t]) after

end Tokens

section Scan
variable {α : Type} [DecidableEq α] {m : Marks α}

theorem hasClosing_eq (k : Style) (rest : List α) :
    hasClosing rest (k.marker m) = contains (k.marker m) rest := by
  cases rest with
  | nil => cases k <;> rfl
  | cons c rest => cases k <;> simp [hasClosing, Style.marker]

theorem contains_iff {marker : List α} {s : List α} :
    contains marker s = true ↔ marker <:+: s := by
  induction s with
  | nil => rw [contains, List.isEmpty_iff, infix_nil]
  | cons c s ih =>
    rw [contains, Bool.or_eq_true, isPrefixOf_iff_prefix, ih, infix_cons_iff]

theorem token_of_marker {st : State α} {ch : α} {rest : List α} {k : Style}
    (h : markerAt m st.code ch rest = some k) :
    token m st ch rest =
      turn m k (st.style k) (rest.drop ((k.marker m).length - 1)) := by
  unfold token
  rw [h]

theorem source_turn (k : Style) (on : Bool) (rest : List α) :
    (turn m k on rest).source m = k.marker m := by
  unfold turn
  split_ifs <;> rfl

theorem apply_turn (st : State α) (k : Style) (on : Bool) (rest : List α) :
    st.apply m (turn m k on rest) =
      if on then st.flush.setStyle false k
      else if hasClosing rest (k.marker m) then st.flush.setStyle true k
      else st.write (k.marker m) := by
  rw [hasClosing_eq]
  unfold turn
  split_ifs <;> rfl

/-- A round of the loop does what its token says. -/
theorem step_eq (st : State α) (ch : α) (rest : List α) :
    step m st ch rest =
      (st.apply m (token m st ch rest), ((token m st ch rest).source m).length - 1) := by
  have hmarks : ∀ j k, m.char j = m.char k ↔ j = k := fun j k => m.inj.eq_iff
  have hstars : Style.marker m .bold = [m.char .star, m.char .star] := rfl
  have hcode : st.style .code = st.code := rfl
  have hbold : st.style .bold = st.bold := rfl
  have hitalic : st.style .italic = st.italic := rfl
  by_cases htick : ch = m.char .tick
  · have hat : markerAt m st.code ch rest = some .code := if_pos htick
    rw [token_of_marker hat, source_turn, apply_turn, hcode]
    subst htick
    simp only [step, hmarks, reduceCtorEq, false_and, if_false, true_and, and_false, Style.marker,
      length_singleton, Nat.sub_self, drop_zero]
    split_ifs <;> rfl
  by_cases hstar : st.code = false ∧ ch = m.char .star
  · obtain ⟨hoff, rfl⟩ := hstar
    have hat : markerAt m st.code (m.char .star) rest =
        if rest.head? = some (m.char .star) then some .bold else some .italic := by
      rw [markerAt, if_neg htick, if_pos ⟨hoff, rfl⟩]
    simp only [step, hmarks, reduceCtorEq, false_and, if_false, hoff, and_self, if_true]
    by_cases hhead : rest.head? = some (m.char .star)
    · rw [if_pos hhead] at hat
      have hdrop : rest.drop ((Style.marker m .bold).length - 1) = rest.drop 1 := rfl
      rw [token_of_marker hat, source_turn, apply_turn, if_pos hhead, hbold, hdrop, hstars]
      split_ifs <;> rfl
    · rw [if_neg hhead] at hat
      rw [token_of_marker hat, source_turn, apply_turn, if_neg hhead, hitalic]
      simp only [Style.marker, length_singleton, Nat.sub_self, drop_zero]
      split_ifs <;> rfl
  · have hat : markerAt m st.code ch rest = none := by
      rw [markerAt, if_neg htick, if_neg hstar]
    unfold token
    rw [hat]
    simp only [step, htick, hstar, false_and, if_false]
    cases rest with
    | nil => simp [State.apply, Token.source]
    | cons next rest =>
      by_cases hescape : ch = m.char .escape
      · simp [hescape, State.apply, Token.source]
      · simp [hescape, State.apply, Token.source]

theorem marker_of_markerAt {code : Bool} {ch : α} {rest : List α} {k : Style}
    (h : markerAt m code ch rest = some k) :
    ch :: rest = k.marker m ++ rest.drop ((k.marker m).length - 1) := by
  unfold markerAt at h
  split_ifs at h with htick hstar hhead
  · obtain rfl := Option.some.inj h
    rw [htick]
    rfl
  · obtain rfl := Option.some.inj h
    obtain ⟨t, rfl⟩ := head?_eq_some_iff.mp hhead
    rw [hstar.2]
    rfl
  · obtain rfl := Option.some.inj h
    rw [hstar.2]
    rfl

theorem token_append (st : State α) (ch : α) (rest : List α) :
    (token m st ch rest).source m ++ (token m st ch rest).after m rest = ch :: rest := by
  unfold Token.after
  cases h : markerAt m st.code ch rest with
  | some k => rw [token_of_marker h, source_turn, marker_of_markerAt h]
  | none =>
    unfold token
    rw [h]
    cases rest with
    | nil => rfl
    | cons next rest =>
      by_cases hescape : ch = m.char .escape
      · simp [hescape, Token.source]
      · simp [hescape, Token.source]

theorem run_cons (st : State α) (ch : α) (rest : List α) :
    run m st 0 (ch :: rest) =
      run m (st.apply m (token m st ch rest)) 0 ((token m st ch rest).after m rest) := by
  rw [run, step_eq, run_skip]
  rfl

theorem scan_skip (st : State α) (skip : ℕ) (input : List α) :
    scan m st skip input = scan m st 0 (input.drop skip) := by
  induction input generalizing skip with
  | nil => simp [scan]
  | cons ch rest ih =>
    cases skip with
    | zero => rfl
    | succ skip => exact ih skip

theorem scan_cons (st : State α) (ch : α) (rest : List α) :
    scan m st 0 (ch :: rest) = token m st ch rest ::
      scan m (st.apply m (token m st ch rest)) 0 ((token m st ch rest).after m rest) := by
  rw [scan, scan_skip]
  rfl

theorem scan_induction {P : State α → List α → Prop} (nil : ∀ st, P st [])
    (cons : ∀ st ch rest, P (st.apply m (token m st ch rest)) ((token m st ch rest).after m rest) →
      P st (ch :: rest)) (st : State α) (input : List α) : P st input := by
  induction hn : input.length using Nat.strong_induction_on generalizing st input with
  | _ n ih =>
  cases input with
  | nil => exact nil st
  | cons ch rest =>
    apply cons
    apply ih _ _ _ _ rfl
    rw [← hn, Token.after, length_drop, length_cons]
    omega

/-- The parser does what the tokens say. -/
theorem run_eq (st : State α) (input : List α) :
    run m st 0 input = ((scan m st 0 input).foldl (State.apply m) st).flush := by
  induction st, input using scan_induction (m := m) with
  | nil st => rfl
  | cons st ch rest ih => rw [run_cons, ih, scan_cons, foldl_cons]

theorem source_scan (st : State α) (input : List α) :
    (scan m st 0 input).flatMap (Token.source m) = input := by
  induction st, input using scan_induction (m := m) with
  | nil st => rfl
  | cons st ch rest ih =>
    rw [scan_cons, flatMap_cons, ih, token_append]

end Scan

section Styles
variable {α : Type} {m : Marks α}

theorem style_setStyle (st : State α) (on : Bool) (k k' : Style) :
    (st.setStyle on k).style k' = if k = k' then on else st.style k' := by
  cases k <;> cases k' <;> rfl

theorem style_flush (st : State α) (k : Style) : st.flush.style k = st.style k := by
  rw [State.flush]
  split_ifs <;> cases k <;> rfl

theorem style_write (st : State α) (t : List α) (k : Style) :
    (st.write t).style k = st.style k := by
  cases k <;> rfl

theorem style_apply (st : State α) (t : Token α) (k : Style) :
    (st.apply m t).style k = t.turns k (st.style k) := by
  cases t with
  | char c | escaped c | literal k' => exact style_write ..
  | opening k' | closing k' => rw [State.apply, style_setStyle, style_flush, Token.turns]

theorem turns_eq_true {t : Token α} {k : Style} {on : Bool} (h : t.turns k on = true) :
    on = true ∨ t = .opening k := by
  cases t with
  | char c | escaped c | literal j => exact .inl h
  | opening j =>
    by_cases hj : j = k
    · exact .inr (hj ▸ rfl)
    · exact .inl (by simpa [Token.turns, hj] using h)
  | closing j =>
    by_cases hj : j = k
    · simp [Token.turns, hj] at h
    · exact .inl (by simpa [Token.turns, hj] using h)

theorem style_foldl (ts : List (Token α)) (st : State α) (k : Style) :
    (ts.foldl (State.apply m) st).style k = ts.foldl (Token.turns k) (st.style k) := by
  induction ts generalizing st with
  | nil => rfl
  | cons t ts ih => rw [foldl_cons, ih, style_apply, foldl_cons]

theorem turns_iff (ts : List (Token α)) (k : Style) (on : Bool) :
    ts.foldl (Token.turns k) on = true ↔
      (on = true ∧ .closing k ∉ ts) ∨ ∃ after, .opening k :: after <:+ ts ∧ .closing k ∉ after := by
  induction ts generalizing on with
  | nil => simp
  | cons t ts ih =>
    rw [foldl_cons, ih]
    simp only [suffix_cons_iff, mem_cons, not_or]
    cases t with
    | char c | escaped c | literal k' => simp [Token.turns]
    | opening k' =>
      by_cases hk : k' = k
      · subst hk
        simp only [Token.turns, if_true, true_and, cons.injEq, reduceCtorEq, not_false_eq_true,
          or_and_right, exists_or, exists_eq_left]
        tauto
      · have hne : k ≠ k' := fun h => hk h.symm
        simp [Token.turns, hk, hne]
    | closing k' =>
      by_cases hk : k' = k
      · subst hk
        simp [Token.turns]
      · have hne : k ≠ k' := fun h => hk h.symm
        simp [Token.turns, hk, hne]

theorem allClosed_cons {t : Token α} {ts : List (Token α)} :
    AllClosed (t :: ts) ↔ (∀ k, t = .opening k → .closing k ∈ ts) ∧ AllClosed ts := by
  simp only [AllClosed, suffix_cons_iff, cons.injEq]
  constructor
  · intro hall
    exact ⟨fun k hk => hall k ts (.inl ⟨hk.symm, rfl⟩), fun k l hl => hall k l (.inr hl)⟩
  · rintro ⟨hhead, htail⟩ k l (⟨hk, rfl⟩ | hl)
    · exact hhead k hk.symm
    · exact htail k l hl

theorem allClosed_iff (ts : List (Token α)) :
    AllClosed ts ↔ ∀ k, ts.foldl (Token.turns k) false = false := by
  simp only [← Bool.not_eq_true, turns_iff]
  simp [AllClosed]

theorem text_setStyle (st : State α) (on : Bool) (k : Style) :
    (st.setStyle on k).text = st.text := by
  cases k <;> rfl

theorem text_apply (st : State α) (t : Token α) :
    (st.apply m t).text = st.text ++ t.written m := by
  cases t with
  | char c | escaped c | literal k => exact st.text_write _
  | opening k | closing k =>
    rw [State.apply, text_setStyle, State.text_flush, Token.written, append_nil]

theorem text_foldl (ts : List (Token α)) (st : State α) :
    (ts.foldl (State.apply m) st).text = st.text ++ ts.flatMap (Token.written m) := by
  induction ts generalizing st with
  | nil => simp
  | cons t ts ih => rw [foldl_cons, ih, text_apply, flatMap_cons, append_assoc]

theorem marker_ne_nil (k : Style) : k.marker m ≠ [] := by cases k <;> simp [Style.marker]

/-- Every closing marker has its opening one before it. -/
def ClosingsPaired (before ts : List (Token α)) : Prop :=
  ∀ k l, l ++ [.closing k] <+: ts → .opening k ∈ before ++ l

theorem ClosingsPaired.tail {before ts : List (Token α)} {t : Token α}
    (h : ClosingsPaired before (t :: ts)) : ClosingsPaired (before ++ [t]) ts := by
  intro k l hl
  have hcons : (t :: l) ++ [.closing k] <+: t :: ts := cons_prefix_cons.mpr ⟨rfl, hl⟩
  simpa using h k (t :: l) hcons

variable [DecidableEq α]

/-- What the parser writes has everything that is not paired, unless something is left open. -/
theorem stripped_spec {before ts : List (Token α)} (h : ClosingsPaired before ts) :
    (ts.flatMap (Token.written m)).length ≤ (stripped m before ts).length ∧
      (ts.flatMap (Token.written m) = stripped m before ts ↔ AllClosed ts) := by
  induction ts generalizing before with
  | nil => simp [stripped, AllClosed]
  | cons t ts ih =>
    obtain ⟨hle, hiff⟩ := ih h.tail
    rw [flatMap_cons, stripped, allClosed_cons, ← hiff]
    clear hiff
    generalize ts.flatMap (Token.written m) = text at hle ⊢
    generalize stripped m (before ++ [t]) ts = rest at hle ⊢
    cases t with
    | char c | escaped c | literal k => simp [Token.paired, Token.written, Token.kept, hle]
    | closing k =>
      have hopened : .opening k ∈ before := by simpa using h k [] (by simp)
      simp [Token.paired, Token.written, hopened, hle]
    | opening k =>
      by_cases hk : .closing k ∈ ts
      · simp [Token.paired, Token.written, hk, hle]
      · have hpos := length_pos_iff.mpr (marker_ne_nil (m := m) k)
        have hlong : text.length < (k.marker m ++ rest).length := by
          rw [length_append]
          omega
        simp only [Token.paired, Token.written, Token.kept, hk, decide_false, Bool.false_eq_true,
          if_false, nil_append]
        refine ⟨hlong.le, iff_of_false ?_ (by simp [hk])⟩
        rintro rfl
        exact lt_irrefl _ hlong

theorem token_cases (st : State α) (ch : α) (rest : List α) :
    (∃ k, token m st ch rest = turn m k (st.style k) ((token m st ch rest).after m rest)) ∨
      ∃ c, token m st ch rest = .char c ∨ token m st ch rest = .escaped c := by
  cases h : markerAt m st.code ch rest with
  | some k =>
    left
    use k
    rw [Token.after, token_of_marker h, source_turn]
  | none =>
    right
    unfold token
    rw [h]
    cases rest with
    | nil => exact ⟨ch, .inl rfl⟩
    | cons next rest =>
      by_cases hescape : ch = m.char .escape
      · exact ⟨next, .inr (if_pos hescape)⟩
      · exact ⟨ch, .inl (if_neg hescape)⟩

theorem marks_turn (j k : Style) (on : Bool) (rest : List α) :
    (turn m j on rest).marks k = decide (j = k) := by
  unfold turn
  split_ifs <;> rfl

theorem turns_turn (k : Style) (on : Bool) (rest : List α) :
    (turn m k on rest).turns k on = (!on && contains (k.marker m) rest) := by
  unfold turn
  split_ifs with hon hcontains
  · simp [Token.turns, hon]
  · simp [Token.turns, hon, hcontains]
  · simp [Token.turns, hon, hcontains]

/-- A marker turns its style off, or on if it occurs again. -/
theorem turns_token (st : State α) (ch : α) (rest : List α) (k : Style) :
    (token m st ch rest).turns k (st.style k) =
      if (token m st ch rest).marks k then
        !st.style k && contains (k.marker m) ((token m st ch rest).after m rest)
      else st.style k := by
  rcases token_cases (m := m) st ch rest with ⟨j, htoken⟩ | ⟨c, htoken | htoken⟩
  · generalize (token m st ch rest).after m rest = after at htoken ⊢
    rw [htoken, marks_turn]
    by_cases hjk : j = k
    · simp [hjk, turns_turn]
    · rw [decide_eq_false hjk, if_neg Bool.false_ne_true]
      unfold turn
      split_ifs <;> simp [Token.turns, hjk]
  · rw [htoken]
    rfl
  · rw [htoken]
    rfl

theorem style_of_closing {st : State α} {ch : α} {rest : List α} {k : Style}
    (h : token m st ch rest = .closing k) : st.style k = true := by
  rcases token_cases (m := m) st ch rest with ⟨j, htoken⟩ | ⟨c, htoken | htoken⟩
  · rw [h] at htoken
    unfold turn at htoken
    split_ifs at htoken with hon
    rw [Token.closing.inj htoken, hon]
  · rw [h] at htoken
    cases htoken
  · rw [h] at htoken
    cases htoken

theorem closing_scan {st : State α} {input : List α} {k : Style} {l : List (Token α)}
    (h : l ++ [.closing k] <+: scan m st 0 input) :
    st.style k = true ∨ .opening k ∈ l := by
  induction st, input using scan_induction (m := m) generalizing l with
  | nil st => simp [scan] at h
  | cons st ch rest ih =>
    rw [scan_cons] at h
    cases l with
    | nil =>
      rw [nil_append, cons_prefix_cons] at h
      exact .inl (style_of_closing h.1.symm)
    | cons t l =>
      rw [cons_append, cons_prefix_cons] at h
      obtain ⟨rfl, h⟩ := h
      rcases ih h with hstyle | hmem
      · rw [style_apply] at hstyle
        rcases turns_eq_true hstyle with hon | hopening
        · exact .inl hon
        · exact .inr (hopening ▸ mem_cons_self)
      · exact .inr (mem_cons_of_mem _ hmem)

theorem closingsPaired_tokens (input : List α) : ClosingsPaired [] (tokens m input) := by
  intro k l hl
  rcases closing_scan hl with hstyle | hmem
  · cases k <;> simp [State.style] at hstyle
  · exact hmem

theorem behind_of_marker {code : Bool} {ch : α} {rest after : List α} {j : Style} (k : Style)
    (h : markerAt m code ch rest = some j) (hafter : rest.drop ((j.marker m).length - 1) = after) :
    behind m k code (ch :: rest) = (if j = k then [after] else []) ++
      behind m k (if j = .code then !code && contains (Style.marker m .code) after else code)
        after := by
  rw [behind.eq_def]
  unfold markerAt at h
  split_ifs at h with htick hstar hhead
  · obtain rfl := Option.some.inj h
    obtain rfl : rest = after := hafter
    have hmem : contains (Style.marker m .code) rest = decide (m.char .tick ∈ rest) := by
      rw [Bool.eq_iff_iff, contains_iff, decide_eq_true_iff]
      exact singleton_infix_iff _ _
    simp only [htick, hmem, if_true, eq_comm]
  · obtain rfl := Option.some.inj h
    obtain ⟨rest, rfl⟩ := head?_eq_some_iff.mp hhead
    obtain rfl : rest = after := hafter
    obtain ⟨rfl, rfl⟩ := hstar
    simp [htick, eq_comm]
  · obtain rfl := Option.some.inj h
    obtain rfl : rest = after := hafter
    obtain ⟨rfl, rfl⟩ := hstar
    cases rest with
    | nil => simp [htick, eq_comm, behind]
    | cons next rest =>
      have hnext : next ≠ m.char .star := fun hnext => hhead (hnext ▸ rfl)
      simp [htick, hnext, eq_comm]

theorem behind_of_none {code : Bool} {ch : α} {rest : List α} (k : Style)
    (h : markerAt m code ch rest = none) :
    behind m k code (ch :: rest) =
      behind m k code (if ch = m.char .escape then rest.drop 1 else rest) := by
  rw [behind.eq_def]
  unfold markerAt at h
  split_ifs at h with htick hstar
  simp only [htick, hstar, if_false]
  split_ifs with hescape
  · cases rest <;> simp [behind]
  · rfl

/-- The markers that the scan meets are those of the text. -/
theorem behind_cons (st : State α) (ch : α) (rest : List α) (k : Style) :
    behind m k st.code (ch :: rest) =
      (if (token m st ch rest).marks k then [(token m st ch rest).after m rest] else []) ++
        behind m k (st.apply m (token m st ch rest)).code ((token m st ch rest).after m rest) := by
  have hcode := (style_apply (m := m) st (token m st ch rest) .code).trans
    (turns_token st ch rest .code)
  rw [show State.code _ = _ from hcode]
  cases h : markerAt m st.code ch rest with
  | some j =>
    have hafter : (token m st ch rest).after m rest = rest.drop ((j.marker m).length - 1) := by
      rw [Token.after, token_of_marker h, source_turn]
    rw [behind_of_marker k h hafter.symm]
    simp only [token_of_marker h, marks_turn, decide_eq_true_iff]
    split_ifs <;> rfl
  | none =>
    rw [behind_of_none k h]
    unfold token
    rw [h]
    cases rest with
    | nil => simp [Token.marks, Token.after, Token.source, State.style]
    | cons next rest =>
      by_cases hescape : ch = m.char .escape <;>
        simp [hescape, Token.marks, Token.after, Token.source, State.style]

theorem turns_scan (st : State α) (input : List α) (k : Style) :
    (scan m st 0 input).foldl (Token.turns k) (st.style k) =
      (behind m k st.code input).foldl
        (fun on rest => !on && contains (k.marker m) rest) (st.style k) := by
  induction st, input using scan_induction (m := m) with
  | nil st => rfl
  | cons st ch rest ih =>
    rw [style_apply] at ih
    rw [scan_cons, foldl_cons, behind_cons, foldl_append, ih, turns_token]
    split_ifs <;> rfl

theorem contains_of_behind {st : State α} {input : List α} {k : Style}
    (h : behind m k st.code input ≠ []) : contains (k.marker m) input = true := by
  induction st, input using scan_induction (m := m) with
  | nil st => exact absurd rfl h
  | cons st ch rest ih =>
    rw [behind_cons] at h
    rw [contains_iff] at ih ⊢
    rw [← token_append st ch rest]
    split_ifs at h with hmarks
    · have hsource : (token m st ch rest).source m = k.marker m := by
        generalize token m st ch rest = t at hmarks
        cases t <;> simp_all [Token.marks, Token.source]
      rw [hsource]
      exact (prefix_append _ _).isInfix
    · exact (ih h).trans (suffix_append _ _).isInfix

theorem behind_dropLast (st : State α) (input : List α) (k : Style) :
    ∀ rest ∈ (behind m k st.code input).dropLast, contains (k.marker m) rest = true := by
  induction st, input using scan_induction (m := m) with
  | nil st => simp [behind]
  | cons st ch rest ih =>
    rw [behind_cons]
    split_ifs with hmarks
    · by_cases hnil : behind m k (st.apply m (token m st ch rest)).code
          ((token m st ch rest).after m rest) = []
      · simp [hnil]
      · rw [singleton_append, dropLast_cons_of_ne_nil hnil, forall_mem_cons]
        exact ⟨contains_of_behind hnil, ih⟩
    · exact ih

end Styles

section Switches
variable {β : Type} {f : β → Bool}

theorem foldl_switch {xs : List β} (h : ∀ x ∈ xs, f x = true) (on : Bool) :
    xs.foldl (fun on x => !on && f x) on = if Even xs.length then on else !on := by
  induction xs generalizing on with
  | nil => simp
  | cons x xs ih =>
    rw [forall_mem_cons] at h
    rw [foldl_cons, ih h.2, h.1, length_cons]
    simp only [Nat.even_add_one]
    split_ifs <;> simp

/-- A switch that every press but the last is sure to turn. -/
theorem foldl_switch_iff {xs : List β} (h : ∀ x ∈ xs.dropLast, f x = true) :
    xs.foldl (fun on x => !on && f x) false = false ↔
      Even xs.length ∨ ∀ x ∈ xs.getLast?, f x = false := by
  rcases eq_nil_or_concat xs with rfl | ⟨ys, y, rfl⟩
  · simp
  · rw [concat_eq_append] at h ⊢
    rw [dropLast_concat] at h
    rw [foldl_append, foldl_switch h, length_append, length_singleton,
      Nat.even_add_one, getLast?_concat]
    by_cases heven : Even ys.length
    · simp [heven]
    · simp [heven]

end Switches

/-- **Markers.** The parser does what its tokens say, the tokens make up the input, and a marker
closes only what was opened. No style is left open, and only paired markers and backslashes are
taken out of the text, exactly if the text has each marker an even number of times, or the marker
does not occur behind the last one. -/
theorem markers_closed_iff {α : Type} [DecidableEq α] (m : Marks α) (input : List α) :
    run m {} 0 input = ((tokens m input).foldl (State.apply m) {}).flush ∧
    (tokens m input).flatMap (Token.source m) = input ∧
    ClosingsPaired [] (tokens m input) ∧
    ((AllClosed (tokens m input) ∧ (∀ k, (run m {} 0 input).style k = false) ∧
        (parseInline m input).flatMap Span.text = stripped m [] (tokens m input)) ↔
      ∀ k, Even (behind m k false input).length ∨
        ∀ rest ∈ (behind m k false input).getLast?, contains (k.marker m) rest = false) := by
  have hrun : run m {} 0 input = ((tokens m input).foldl (State.apply m) {}).flush :=
    run_eq {} input
  have hoff : ∀ k, ({} : State α).style k = false := by
    intro k
    cases k <;> rfl
  have hstyle : ∀ k, (run m {} 0 input).style k = (tokens m input).foldl (Token.turns k) false := by
    intro k
    rw [hrun, style_flush, style_foldl, hoff]
  have htext : (parseInline m input).flatMap Span.text =
      (tokens m input).flatMap (Token.written m) := by
    have h := congrArg State.text hrun
    rw [State.text_flush, text_foldl, State.text, buf_run, append_nil] at h
    exact h
  have hclosed : ∀ k, (tokens m input).foldl (Token.turns k) false = false ↔
      Even (behind m k false input).length ∨
        ∀ rest ∈ (behind m k false input).getLast?, contains (k.marker m) rest = false := by
    intro k
    have h := turns_scan (m := m) {} input k
    rw [hoff] at h
    rw [tokens, h, foldl_switch_iff (behind_dropLast {} input k)]
  refine ⟨hrun, source_scan {} input, closingsPaired_tokens input, ?_⟩
  rw [htext, (stripped_spec (closingsPaired_tokens input)).2]
  simp only [hstyle, allClosed_iff, hclosed, and_self]

/-- An escaped backtick is taken for the closing one: the code stays open and its marker is lost. -/
theorem markers_closed_escaped_tick :
    tokens Marks.bytes (Go.lit "`a\\`") = [.opening .code, .char 0x61, .escaped 0x60] ∧
      (run Marks.bytes {} 0 (Go.lit "`a\\`")).style .code = true ∧
      parseInline Marks.bytes (Go.lit "`a\\`") = [⟨Go.lit "a`", false, false, true⟩] ∧
      stripped Marks.bytes [] (tokens Marks.bytes (Go.lit "`a\\`")) = Go.lit "`a`" := by
  decide

end Centaurx.Markdown
