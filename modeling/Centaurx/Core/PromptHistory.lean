import Centaurx.Core.RoundTrip
import Centaurx.Lib.Newest
import Centaurx.Lib.Runs
import Mathlib.Data.List.Destutter

namespace Centaurx.HistoryBuffer
open Go List Newest Runs

inductive HistoryStep
  | append (entry : GoString)
  /-- The user is saved and loaded again. -/
  | reload

variable {Text : Type}

def step (json : Json Text) (h : HistoryBuffer) : HistoryStep → HistoryBuffer
  | .append entry => (h.append entry).1
  | .reload => newFromPersisted (h.entries.map json.str)

/-- The entries that the calls of `Append` were given. -/
def appended : List HistoryStep → List GoString :=
  filterMap fun
    | .append entry => some entry
    | .reload => none

/-- Without the blank ones, and without those that repeat the one kept before. -/
def kept (entries : List GoString) : List GoString :=
  (entries.filter fun e => !blank e).destutter (· ≠ ·)

theorem destutter'_concat {α : Type} [DecidableEq α] (b : α) (l : List α) (a : α) :
    (l ++ [a]).destutter' (· ≠ ·) b =
      if (l.destutter' (· ≠ ·) b).getLast? = some a then l.destutter' (· ≠ ·) b
      else l.destutter' (· ≠ ·) b ++ [a] := by
  induction l generalizing b with
  | nil => by_cases hba : b = a <;> simp [hba]
  | cons c l ih =>
    by_cases hbc : b = c
    · simpa [hbc] using ih c
    · have hcons (t : List α) : (c :: t).destutter' (· ≠ ·) b = b :: t.destutter' (· ≠ ·) c := by
        simp [hbc]
      have hne := destutter'_ne_nil (R := (· ≠ ·)) (a := c) l
      rw [cons_append, hcons, hcons, ih, getLast?_cons, getLast?_eq_some_getLast hne,
        Option.getD_some]
      split_ifs <;> rfl

theorem destutter_concat {α : Type} [DecidableEq α] (l : List α) (a : α) :
    (l ++ [a]).destutter (· ≠ ·) =
      if (l.destutter (· ≠ ·)).getLast? = some a then l.destutter (· ≠ ·)
      else l.destutter (· ≠ ·) ++ [a] := by
  cases l with
  | nil => rfl
  | cons b l => exact destutter'_concat b l a

theorem kept_concat (past : List GoString) (entry : GoString) :
    kept (past ++ [entry]) =
      if blank entry ∨ (kept past).getLast? = some entry then kept past
      else kept past ++ [entry] := by
  cases hblank : blank entry with
  | true => simp [kept, hblank]
  | false => simp [kept, hblank, destutter_concat]

theorem kept_sublist (past : List GoString) : kept past <+ past :=
  (destutter_sublist _ _).trans filter_sublist

theorem cap_eq_rtake (entries : List GoString) : cap defaultHistoryMax entries =
    entries.rtake 200 := by
  rw [cap, rtake, defaultHistoryMax]
  split_ifs with h
  · rw [show (entries.length - 200 : Int).toNat = entries.length - 200 by omega]
  · rw [Nat.sub_eq_zero_of_le (by omega), drop_zero]

/-- The newest entries that were kept. -/
structure Holds (h : HistoryBuffer) (past : List GoString) : Prop where
  max_eq : h.max = defaultHistoryMax
  entries_eq : h.entries = (kept past).rtake 200

variable {h : HistoryBuffer} {past : List GoString}

theorem Holds.getLast? (hh : h.Holds past) : h.entries.getLast? = (kept past).getLast? := by
  rw [hh.entries_eq]
  by_cases hnil : kept past = []
  · rw [hnil]
    rfl
  · refine getLast?_of_suffix (rtake_suffix _ _) fun hcut => hnil ?_
    have hlen := congrArg length hcut
    rw [length_rtake, length_nil] at hlen
    exact length_eq_zero_iff.mp (by omega)

theorem Holds.append (hh : h.Holds past) (entry : GoString) :
    (h.append entry).1.Holds (past ++ [entry]) := by
  rw [HistoryBuffer.append, hh.getLast?]
  split_ifs with hblank hlast
  · exact ⟨hh.max_eq, by rw [kept_concat, if_pos (.inl hblank), hh.entries_eq]⟩
  · exact ⟨hh.max_eq, by rw [kept_concat, if_pos (.inr hlast), hh.entries_eq]⟩
  · refine ⟨hh.max_eq, ?_⟩
    rw [kept_concat, if_neg (not_or.mpr ⟨hblank, hlast⟩), ← rtake_append_rtake, ← hh.entries_eq,
      ← cap_eq_rtake, hh.max_eq]

theorem Holds.reload (hh : h.Holds past) {json : Json Text} (hstr : ∀ e ∈ past, json.str e = e) :
    (newFromPersisted (h.entries.map json.str)).Holds past := by
  have hmap : h.entries.map json.str = h.entries := by
    refine (map_congr_left fun e he => ?_).trans (map_id _)
    rw [hh.entries_eq] at he
    exact hstr e ((kept_sublist past).subset ((rtake_suffix _ _).subset he))
  have hlen : h.entries.length ≤ defaultHistoryMax := by
    rw [hh.entries_eq, length_rtake, defaultHistoryMax]
    omega
  rw [hmap, newFromPersisted_entries ⟨hh.max_eq, hlen⟩]
  exact hh

/-- **Prompt history.** Entries are appended, and the user is saved and loaded again in between, in
any order. The history is the end of the entries that are not blank and do not repeat the one kept
before. The frontends append valid UTF-8 only: the runes of an input line, or a decoded string. -/
theorem entries_exec (json : Json Text) (steps : List HistoryStep)
    (hvalid : ∀ e ∈ appended steps, validUTF8 e = true) :
    (exec (step json) (new defaultHistoryMax) steps).entries =
      (kept (appended steps)).rtake 200 := by
  suffices h : (exec (step json) (new defaultHistoryMax) steps).Holds (appended steps) from
    h.entries_eq
  induction steps using reverseRecOn with
  | nil => exact ⟨rfl, rfl⟩
  | append_singleton steps s ih =>
    have happ : appended (steps ++ [s]) = appended steps ++ appended [s] := filterMap_append
    rw [happ] at hvalid ⊢
    have hh := ih fun e he => hvalid e (mem_append_left _ he)
    rw [exec_append]
    cases s with
    | append entry => exact hh.append entry
    | reload =>
      rw [show appended [.reload] = [] from rfl, append_nil] at hvalid ⊢
      exact hh.reload fun e he => json.str_valid e (hvalid e he)

theorem entries_exec_repeated :
    (exec (step Json.plain) (new defaultHistoryMax)
      [.append (lit "ls"), .append (lit " "), .reload, .append (lit "ls")]).entries = [lit "ls"] :=
  entries_exec Json.plain _ (by decide)

end Centaurx.HistoryBuffer
