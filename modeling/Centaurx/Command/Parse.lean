import Centaurx.Lib.Words
import Centaurx.Schema

namespace Centaurx
open Go List

structure Command where
  name : GoString
  args : List GoString
  raw : GoString
  remainder : GoString
  deriving DecidableEq

namespace Command

def isSpace (b : UInt8) : Bool := b = 0x20 || b = 0x09 || b = 0x0A || b = 0x0D

/-- The loop of `remainderAfterTokens`: what is left behind some words. -/
def skipTokens : ℕ → GoString → GoString
  | 0, s => s
  | remaining + 1, s =>
    if s = [] then []
    else skipTokens remaining ((s.dropWhile isSpace).dropWhile fun b => !isSpace b)

def remainderAfterTokens (raw : GoString) (count : Int) : GoString :=
  let rest := skipTokens count.toNat raw
  if rest = [] then [] else trimSpace rest

def parse (uni : Unicode) (input : GoString) : Option Command :=
  let trimmed := input.dropWhile fun b => b = 0x20 || b = 0x09
  if trimmed.head? ≠ some 0x2F then none
  else
    let raw := trimSpace (trimmed.drop 1)
    if raw = [] then some ⟨[], [], [], []⟩
    else
      match fields raw with
      | [] => some ⟨[], [], raw, []⟩
      | first :: args => some ⟨uni.toLower first, args, raw, remainderAfterTokens raw 1⟩

/-- What is between the four bytes. -/
def tokens (s : GoString) : List GoString := (s.splitOnP isSpace).filter (· ≠ [])

theorem isSpace_ascii {b : UInt8} (h : isSpace b = true) :
    b < 0x80 ∧ Go.isSpace b.toNat = true := by
  simp only [isSpace, Bool.or_eq_true, decide_eq_true_eq] at h
  rcases h with ((rfl | rfl) | rfl) | rfl <;> decide

theorem tokens_nil : tokens [] = [] := rfl

/-- Everything about the words follows from where they are cut. -/
theorem tokens_append_cons {b : UInt8} (hb : isSpace b = true) (s t : GoString) :
    tokens (s ++ b :: t) = tokens s ++ tokens t := by
  rw [tokens, splitOnP_append_cons s t hb, filter_append]
  rfl

theorem tokens_cons {b : UInt8} (hb : isSpace b = true) (s : GoString) :
    tokens (b :: s) = tokens s :=
  tokens_append_cons hb [] s

theorem tokens_of_not_isSpace {s : GoString} (hs : ∀ b ∈ s, isSpace b = false) (hne : s ≠ []) :
    tokens s = [s] := by
  rw [tokens, splitOnP_eq_singleton hs]
  simp [hne]

theorem tokens_dropWhile (s : GoString) : tokens (s.dropWhile isSpace) = tokens s := by
  induction s with
  | nil => rfl
  | cons b s ih =>
    rw [dropWhile_cons]
    split_ifs with hb
    · rw [ih, tokens_cons hb]
    · rfl

theorem tokens_dropWhile_not (s : GoString) (hs : ∀ b ∈ s.head?, isSpace b = false) :
    tokens (s.dropWhile fun b => !isSpace b) = (tokens s).drop 1 := by
  cases s with
  | nil => rfl
  | cons c s =>
    have hc : isSpace c = false := hs c rfl
    have hword : ∀ b ∈ (c :: s).takeWhile (fun b => !isSpace b), isSpace b = false := fun b hb => by
      simpa using mem_takeWhile_imp hb
    have hne : (c :: s).takeWhile (fun b => !isSpace b) ≠ [] := by
      rw [takeWhile_cons, hc]
      simp
    conv_rhs => rw [← takeWhile_append_dropWhile (p := fun b => !isSpace b) (l := c :: s)]
    cases hrest : (c :: s).dropWhile fun b => !isSpace b with
    | nil => rw [append_nil, tokens_of_not_isSpace hword hne]; rfl
    | cons b t =>
      have hb : isSpace b = true := by
        have h := head?_dropWhile_not (fun b => !isSpace b) (c :: s)
        rw [hrest] at h
        simpa using h
      rw [tokens_append_cons hb, tokens_cons hb, tokens_of_not_isSpace hword hne]
      rfl

theorem tokens_skipTokens (n : ℕ) (s : GoString) : tokens (skipTokens n s) = (tokens s).drop n := by
  induction n generalizing s with
  | zero => rfl
  | succ n ih =>
    rw [skipTokens]
    split_ifs with hs
    · rw [hs, tokens_nil, drop_nil]
    · have hhead : ∀ b ∈ (s.dropWhile isSpace).head?, isSpace b = false := by
        intro b hb
        have h := head?_dropWhile_not isSpace s
        rw [Option.mem_def.mp hb] at h
        simpa using h
      rw [ih, tokens_dropWhile_not _ hhead, tokens_dropWhile, drop_drop, Nat.add_comm]

theorem fields_eq_tokens (s : GoString) : fields s = (tokens s).flatMap fields := by
  induction hn : s.length using Nat.strong_induction_on generalizing s with
  | _ n ih =>
  by_cases hs : ∀ b ∈ s, isSpace b = false
  · by_cases hne : s = []
    · rw [hne]
      rfl
    · rw [tokens_of_not_isSpace hs hne]
      simp
  · simp only [not_forall, Bool.not_eq_false] at hs
    obtain ⟨b, hb, hsp⟩ := hs
    obtain ⟨x, t, rfl⟩ := append_of_mem hb
    rw [length_append, length_cons] at hn
    obtain ⟨hascii, hspace⟩ := isSpace_ascii hsp
    rw [fields_append_cons hascii hspace, tokens_append_cons hsp, flatMap_append,
      ih x.length (by omega) x rfl, ih t.length (by omega) t rfl]

theorem fields_remainderAfterTokens (raw : GoString) (count : Int) :
    fields (remainderAfterTokens raw count) = ((tokens raw).drop count.toNat).flatMap fields := by
  have h := fields_eq_tokens (skipTokens count.toNat raw)
  rw [tokens_skipTokens] at h
  rw [← h, remainderAfterTokens]
  split_ifs with h0
  · rw [h0]
  · exact fields_trimSpace _

/-- Dropping lists and dropping elements are the same exactly if the lists have one element each.
The last list is not empty. -/
theorem drop_flatMap_iff {α β : Type*} {f : α → List β} {ts : List α}
    (hlast : ∀ t ∈ ts.getLast?, f t ≠ []) :
    (∀ k, (ts.drop k).flatMap f = (ts.flatMap f).drop k) ↔ ∀ t ∈ ts, (f t).length = 1 := by
  induction ts with
  | nil => simp
  | cons t ts ih =>
    have hlast' : ∀ u ∈ ts.getLast?, f u ≠ [] := by
      intro u hu
      have hne : ts ≠ [] := by
        rintro rfl
        simp at hu
      exact hlast u (by rwa [getLast?_cons_of_ne_nil hne])
    have hdrop : (f t).length = 1 → ∀ k, ((t :: ts).flatMap f).drop (k + 1) =
        (ts.flatMap f).drop k := by
      intro h k
      obtain ⟨x, hx⟩ := length_eq_one_iff.mp h
      rw [flatMap_cons, hx]
      rfl
    rw [forall_mem_cons, ← ih hlast']
    constructor
    · intro h
      have hcount : 1 ≤ (f t).length + (ts.flatMap f).length := by
        rw [← length_append, ← flatMap_cons]
        apply length_pos_of_ne_nil
        rw [Ne, flatMap_eq_nil_iff]
        intro hnil
        have hmem := getLast?_eq_some_getLast (cons_ne_nil t ts)
        exact hlast _ hmem (hnil _ (mem_of_getLast? hmem))
      have hone : (f t).length = 1 := by
        have hlength := congrArg length (h 1)
        simp only [drop_succ_cons, drop_zero, flatMap_cons, length_drop,
          length_append] at hlength
        omega
      refine ⟨hone, fun k => ?_⟩
      rw [← hdrop hone k, ← h (k + 1)]
      rfl
    · rintro ⟨hone, h⟩ k
      cases k with
      | zero => rfl
      | succ k => rw [hdrop hone, ← h k]; rfl

/-- A text that does not end with one of the four bytes ends with its last word. -/
theorem tokens_getLast? {s : GoString} (hend : ∀ b ∈ s.getLast?, isSpace b = false) :
    ∀ tok ∈ (tokens s).getLast?, tok ≠ [] ∧ tok <:+ s := by
  have hsplit : s.rdropWhile (fun b => !isSpace b) ++ lastPart isSpace s = s :=
    rdropWhile_append_rtakeWhile
  have hword : ∀ b ∈ lastPart isSpace s, isSpace b = false := not_separates_lastPart s
  by_cases hne : s = []
  · simp [hne, tokens_nil]
  have hlast : lastPart isSpace s ≠ [] := by
    intro h0
    have hnot : ¬(!isSpace (s.getLast hne)) = true := rtakeWhile_eq_nil_iff.mp h0 hne
    rw [hend _ (getLast?_eq_some_getLast hne)] at hnot
    exact hnot rfl
  have htokens : (tokens s).getLast? = some (lastPart isSpace s) := by
    rcases eq_nil_or_concat (s.rdropWhile fun b => !isSpace b) with h0 | ⟨x, b, hx⟩
    · rw [h0, nil_append] at hsplit
      rw [← hsplit, lastPart_eq_self hword, tokens_of_not_isSpace hword hlast]
      rfl
    · have hb : isSpace b = true := by
        have hnot := rdropWhile_last_not (fun b => !isSpace b) s (by simp [hx])
        simp only [hx, concat_eq_append, getLast_append_singleton] at hnot
        simpa using hnot
      rw [hx, concat_eq_append, append_assoc, singleton_append] at hsplit
      conv_lhs => rw [← hsplit, tokens_append_cons hb, tokens_of_not_isSpace hword hlast]
      simp
  rw [htokens]
  intro tok htok
  obtain rfl := Option.some.inj htok
  exact ⟨hlast, _, hsplit⟩

theorem fields_getLast?_tokens (s : GoString) :
    ∀ tok ∈ (tokens (trimSpace s)).getLast?, fields tok ≠ [] := by
  have hnot := trimSpace_not_suffix s
  have hend : ∀ b ∈ (trimSpace s).getLast?, isSpace b = false := by
    intro b hb
    refine Bool.eq_false_iff.mpr fun hsp => ?_
    have hmem : [b] ∈ spaces := by
      simp only [isSpace, Bool.or_eq_true, decide_eq_true_eq] at hsp
      rcases hsp with ((rfl | rfl) | rfl) | rfl <;> decide
    obtain ⟨t, ht⟩ := getLast?_eq_some_iff.mp hb
    exact hnot [b] hmem ⟨t, ht.symm⟩
  intro tok htok h
  obtain ⟨hne, hsuffix⟩ := tokens_getLast? hend tok htok
  obtain ⟨p, hp, hp'⟩ := space_suffix_of_fields h hne
  exact hnot p hp (hp'.trans hsuffix)

theorem parse_raw {uni : Unicode} {input : GoString} {cmd : Command}
    (h : parse uni input = some cmd) :
    (∃ s, cmd.raw = trimSpace s) ∧ cmd.args = (fields cmd.raw).drop 1 ∧
      fields cmd.remainder = fields (remainderAfterTokens cmd.raw 1) := by
  simp only [parse] at h
  split_ifs at h with hslash hraw
  · obtain rfl := Option.some.inj h
    exact ⟨⟨[], by decide⟩, rfl, by decide⟩
  split at h
  · rename_i hnone
    obtain ⟨p, hp, hsuffix⟩ := space_suffix_of_fields hnone hraw
    exact absurd hsuffix (trimSpace_not_suffix _ p hp)
  · rename_i first args hfields
    obtain rfl := Option.some.inj h
    exact ⟨⟨_, rfl⟩, by simp only [hfields]; rfl, rfl⟩

/-- **The remainder.** The fields of the remainder are the arguments, and behind any number of
words the fields are those of the line behind as many fields, exactly if no word of the second scan
has white space in it or consists of white space. -/
theorem remainder_iff {uni : Unicode} {input : GoString} {cmd : Command}
    (h : parse uni input = some cmd) :
    (fields cmd.remainder = cmd.args ∧
      ∀ k : Int, fields (remainderAfterTokens cmd.raw k) = (fields cmd.raw).drop k.toNat) ↔
      ∀ tok ∈ tokens cmd.raw, (fields tok).length = 1 := by
  obtain ⟨⟨s, hraw⟩, hargs, hremainder⟩ := parse_raw h
  have hlast := fields_getLast?_tokens s
  rw [← hraw] at hlast
  rw [← drop_flatMap_iff hlast, ← fields_eq_tokens]
  simp only [fields_remainderAfterTokens, hremainder, hargs]
  constructor
  · rintro ⟨-, hk⟩ k
    exact hk k
  · intro hk
    exact ⟨hk 1, fun k => hk k.toNat⟩

/-- A message with blanks, tabs and line breaks. -/
theorem remainder_message :
    fields (remainderAfterTokens (lit "git commit fix:\ta  bug\n(again)") 2) =
      (fields (lit "git commit fix:\ta  bug\n(again)")).drop 2 := by
  have h : parse Unicode.ascii (lit "/git commit fix:\ta  bug\n(again)") =
      some ⟨lit "git", [lit "commit", lit "fix:", lit "a", lit "bug", lit "(again)"],
        lit "git commit fix:\ta  bug\n(again)", lit "commit fix:\ta  bug\n(again)"⟩ := by decide
  exact ((remainder_iff h).mpr (by decide)).2 2

/-- A no-break space behind the subcommand: the first word of the message is lost. A vertical tab
that stands alone is counted as a word by one scan only. -/
theorem remainder_no_break_space :
    parse Unicode.ascii (lit "/git commit\u00a0fix the bug") =
        some ⟨lit "git", [lit "commit", lit "fix", lit "the", lit "bug"],
          lit "git commit\u00a0fix the bug", lit "commit\u00a0fix the bug"⟩ ∧
      remainderAfterTokens (lit "git commit\u00a0fix the bug") 2 = lit "the bug" ∧
      fields (remainderAfterTokens (lit "git \x0b commit fix") 2) = [lit "commit", lit "fix"] ∧
      (fields (lit "git \x0b commit fix")).drop 2 = [lit "fix"] := by
  decide

end Command

end Centaurx
