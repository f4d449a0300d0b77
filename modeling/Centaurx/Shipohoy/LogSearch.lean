import Centaurx.Lib.Newest
import Centaurx.Shipohoy.DockerStream

namespace Centaurx.Shipohoy
open Go List Newest

structure StreamSearcher where
  needle : List UInt8
  tail : List UInt8 := []

/-- What `consume` comes to: `errFound`, another error, or a searcher for what follows. -/
inductive Consumed
  | found
  | failed (err : GoString)
  | more (search : StreamSearcher) (s : Source)

/-- The tail that is kept of a window. -/
def StreamSearcher.keep (search : StreamSearcher) (window : List UInt8) : StreamSearcher :=
  if search.needle.length > 1 then
    { search with tail :=
        if window.length ≥ search.needle.length - 1 then
          window.drop (window.length - (search.needle.length - 1))
        else window }
  else search

def StreamSearcher.consume (search : StreamSearcher) (s : Source) (remaining : ℕ) : Consumed :=
  if remaining = 0 then .more search s
  else
    let chunk := if remaining < 32 * 1024 then remaining else 32 * 1024
    let r := readFull chunk s
    if r.1.length < chunk then
      .failed (if r.1 = [] then lit "EOF" else lit "unexpected EOF")
    else
      let window := search.tail ++ r.1
      if search.needle <:+: window then .found
      else (search.keep window).consume r.2 (remaining - chunk)
termination_by remaining
decreasing_by split_ifs <;> omega

theorem consume_length {search search' : StreamSearcher} {s s' : Source} {n : ℕ}
    (h : search.consume s n = .more search' s') : s'.flatten.length ≤ s.flatten.length := by
  fun_induction StreamSearcher.consume search s n with
  | case1 => cases h; exact le_rfl
  | case2 | case3 => cases h
  | case4 search s n hn chunk r hlen window hno ih =>
    refine (ih h).trans ?_
    rw [(readFull_spec chunk s).2, length_drop]
    exact Nat.sub_le _ _

/-- The loop of `searchDockerStream`, with its error. -/
def searchFrames (search : StreamSearcher) (s : Source) : Option GoString :=
  let header := readFull 8 s
  if header.1.length < 8 then some (lit "log stream ended")
  else
    let size := frameSize header.1
    if size = 0 then searchFrames search header.2
    else
      match _h : search.consume header.2 size with
      | .found => none
      | .failed err => some err
      | .more search s => searchFrames search s
termination_by s.flatten.length
decreasing_by
  · simp +zetaDelta only [(readFull_spec _ _).1, (readFull_spec _ _).2, length_take,
      length_drop] at *
    omega
  · have hle := consume_length _h
    simp +zetaDelta only [(readFull_spec _ _).1, (readFull_spec _ _).2, length_take,
      length_drop] at *
    omega

/-- `searchDockerStream` with a context that is not cancelled. -/
def searchDockerStream (s : Source) (needle : List UInt8) : Option GoString :=
  if needle = [] then none else searchFrames { needle := needle } s

/-- An occurrence that ends in the new bytes begins in the tail. -/
theorem infix_rtake_append_iff {needle past : List UInt8} (h : ¬needle <:+: past)
    (c : List UInt8) :
    needle <:+: past.rtake (needle.length - 1) ++ c ↔ needle <:+: past ++ c := by
  constructor
  · rintro ⟨u, v, huv⟩
    have hpast := take_append_drop (past.length - (needle.length - 1)) past
    refine ⟨past.take (past.length - (needle.length - 1)) ++ u, v, ?_⟩
    rw [append_assoc, append_assoc, ← append_assoc u, huv, ← append_assoc, rtake, hpast]
  · rintro ⟨u, v, huv⟩
    rcases append_eq_append_iff.mp huv with ⟨a, hpast, -⟩ | ⟨a, hu, rfl⟩
    · exact absurd ⟨u, a, hpast.symm⟩ h
    · have ha : a ≠ [] := by
        rintro rfl
        exact h ⟨u, [], by rw [append_nil, hu, append_nil]⟩
      have hlen := congrArg length hu
      have hpos := length_pos_of_ne_nil ha
      rw [length_append, length_append] at hlen
      have hsuffix : needle <:+ past.rtake (needle.length - 1) ++ a := by
        obtain ⟨t, ht⟩ := rtake_suffix past (needle.length - 1)
        refine suffix_of_suffix_length_le ⟨u, hu⟩ ⟨t, by rw [← append_assoc, ht]⟩ ?_
        rw [length_append, length_rtake]
        omega
      obtain ⟨t, ht⟩ := hsuffix
      exact ⟨t, v, by rw [ht, append_assoc]⟩

/-- The searcher has seen `past` and not found its text. -/
structure Watches (search : StreamSearcher) (past : List UInt8) : Prop where
  tail : search.tail = past.rtake (search.needle.length - 1)
  absent : ¬search.needle <:+: past

variable {search : StreamSearcher} {past : List UInt8}

theorem Watches.keep (h : Watches search past) {c : List UInt8}
    (hno : ¬search.needle <:+: past ++ c) :
    Watches (search.keep (search.tail ++ c)) (past ++ c) ∧
      (search.keep (search.tail ++ c)).needle = search.needle := by
  have htail : (search.tail ++ c).rtake (search.needle.length - 1) =
      (past ++ c).rtake (search.needle.length - 1) := by
    rw [h.tail, rtake_append_rtake]
  rw [StreamSearcher.keep]
  split_ifs with hlong hfull
  · exact ⟨⟨htail, hno⟩, rfl⟩
  · rw [rtake_of_length_le (by omega)] at htail
    exact ⟨⟨htail, hno⟩, rfl⟩
  · refine ⟨⟨?_, hno⟩, rfl⟩
    rw [h.tail, Nat.sub_eq_zero_of_le (by omega), rtake_zero, rtake_zero]

theorem Watches.consume (h : Watches search past) {s : Source} {text rest : List UInt8}
    (hs : s.flatten = text ++ rest) :
    (search.needle <:+: past ++ text ∧ search.consume s text.length = .found) ∨
      ∃ search' s', search.consume s text.length = .more search' s' ∧ s'.flatten = rest ∧
        search'.needle = search.needle ∧ Watches search' (past ++ text) := by
  induction hn : text.length using Nat.strong_induction_on generalizing search past s text with
  | _ n ih =>
    by_cases hzero : n = 0
    · have hnil : text = [] := length_eq_zero_iff.mp (hn.trans hzero)
      rw [hnil, append_nil]
      rw [hnil, nil_append] at hs
      exact .inr ⟨search, s, by rw [StreamSearcher.consume, if_pos hzero], hs, rfl, h⟩
    · obtain ⟨chunk, hchunk⟩ : ∃ chunk, (if n < 32 * 1024 then n else 32 * 1024) = chunk := ⟨_, rfl⟩
      have hle : chunk ≤ text.length ∧ 0 < chunk := by
        split_ifs at hchunk <;> omega
      obtain ⟨hread, hrest⟩ := readFull_spec chunk s
      rw [hs, take_append_of_le_length hle.1] at hread
      rw [hs, drop_append_of_le_length hle.1] at hrest
      have htext : past ++ text = (past ++ text.take chunk) ++ text.drop chunk := by
        rw [append_assoc, take_append_drop]
      have hwindow := infix_rtake_append_iff h.absent (text.take chunk)
      rw [← h.tail] at hwindow
      rw [StreamSearcher.consume, if_neg hzero, hchunk]
      dsimp only
      rw [hread, if_neg (by rw [length_take]; omega), htext]
      split_ifs with hfound
      · exact .inl ⟨(hwindow.mp hfound).trans (prefix_append _ _).isInfix, rfl⟩
      · obtain ⟨hkeep, hneedle⟩ := h.keep (hwindow.not.mp hfound)
        have hnext := ih (n - chunk) (by omega) hkeep hrest (by rw [length_drop, hn])
        rwa [hneedle] at hnext

theorem Watches.searchFrames (h : Watches search past) (frames : List Frame) {s : Source}
    (hs : s.flatten = encode frames) :
    searchFrames search s = if search.needle <:+: past ++ frames.flatMap Frame.payload then none
      else some (lit "log stream ended") := by
  induction frames generalizing search past s with
  | nil =>
    have hnil : (readFull 8 s).1 = [] := by
      rw [(readFull_spec 8 s).1, hs]
      rfl
    rw [flatMap_nil, append_nil, if_neg h.absent, Shipohoy.searchFrames, hnil]
    rfl
  | cons f fs ih =>
    have hencode : encode (f :: fs) = f.header ++ (f.payload ++ encode fs) := append_assoc ..
    have hlen : f.header.length = 8 := rfl
    obtain ⟨hheader, hrest⟩ := readFull_spec 8 s
    rw [hs, hencode, ← hlen, take_left, hlen] at hheader
    rw [hs, hencode, ← hlen, drop_left, hlen] at hrest
    rw [flatMap_cons, ← append_assoc, Shipohoy.searchFrames]
    dsimp only
    rw [hheader, hlen, if_neg (lt_irrefl 8), frameSize_header]
    by_cases hempty : f.payload.length = 0
    · rw [length_eq_zero_iff.mp hempty, nil_append] at hrest
      rw [if_pos hempty, length_eq_zero_iff.mp hempty, append_nil]
      exact ih h hrest
    · rw [if_neg hempty]
      rcases h.consume hrest with ⟨hfound, hconsume⟩ | ⟨search', s', hconsume, hs', hneedle, h'⟩
      · rw [if_pos (hfound.trans (prefix_append _ _).isInfix)]
        split <;> simp_all
      · rw [← hneedle, ← ih h' hs']
        split <;> simp_all

/-- **Log search.** The frames come in pieces of any size. The search succeeds if the text is
somewhere in their payloads, however it is cut, and otherwise it fails at the end of the stream. -/
theorem searchDockerStream_iff (needle : List UInt8) (hneedle : needle ≠ []) (frames : List Frame)
    (s : Source) (hs : s.flatten = encode frames) :
    searchDockerStream s needle = if needle <:+: frames.flatMap Frame.payload then none
      else some (lit "log stream ended") := by
  have hstart : Watches { needle := needle } [] :=
    ⟨drop_nil.symm, fun h => hneedle (infix_nil.mp h)⟩
  rw [searchDockerStream, if_neg hneedle]
  exact hstart.searchFrames frames hs

/-- The text is cut by the end of a frame. -/
theorem searchDockerStream_iff_cut :
    let frames : List Frame := [⟨1, lit "rea", by decide⟩, ⟨2, lit "dy", by decide⟩]
    searchDockerStream [encode frames] (lit "ready") = none := by
  intro frames
  rw [searchDockerStream_iff (lit "ready") (by decide) frames _ (by rw [flatten_singleton])]
  decide

end Centaurx.Shipohoy
