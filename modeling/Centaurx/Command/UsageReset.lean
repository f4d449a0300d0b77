import Centaurx.SshServer.Styles

namespace Centaurx.Command
open Go List Int64
open SshServer (itoa itoaN)

/-- `time.Minute`. -/
def minute : Int64 := 60000000000

/-- `Duration.Truncate`. -/
def truncate (d m : Int64) : Int64 := if m ≤ 0 then d else d - d % m

/-- The minutes that `formatStatusDuration` divides up. -/
def totalMinutes (d : Int64) : Int64 :=
  let d := if d < 0 then 0 else d
  let d := if d % minute ≠ 0 then truncate d minute + minute else truncate d minute
  d / minute

/-- The text for so many minutes. -/
def minutesText (totalMinutes : Int64) : GoString :=
  if totalMinutes = 0 then lit "0m"
  else
    let days := totalMinutes / (24 * 60)
    let hours := (totalMinutes / 60) % 24
    let minutes := totalMinutes % 60
    if days > 0 then
      let parts := [itoa days.toInt ++ lit "d"]
      let parts := if hours > 0 then parts ++ [itoa hours.toInt ++ lit "h"] else parts
      let parts := if minutes > 0 then parts ++ [itoa minutes.toInt ++ lit "m"] else parts
      (lit " ").intercalate parts
    else if hours > 0 then
      if minutes > 0 then itoa hours.toInt ++ lit "h" ++ itoa minutes.toInt ++ lit "m"
      else itoa hours.toInt ++ lit "h"
    else itoa minutes.toInt ++ lit "m"

def formatStatusDuration (d : Int64) : GoString := minutesText (totalMinutes d)

/-- `Time.Sub`, of instants in nanoseconds: a difference that does not fit is the longest or
shortest duration. -/
def timeSub (t u : ℤ) : Int64 := ofInt (max (-2 ^ 63) (min (t - u) (2 ^ 63 - 1)))

/-- `format` writes an instant as the time of day and the day in the local zone. -/
def formatUsageReset (format : ℤ → GoString) (resetAt : Int64) (now : ℤ) : GoString :=
  if resetAt ≤ 0 then lit "reset unknown"
  else
    let resetTime := resetAt.toInt * 1000000000
    let duration := formatStatusDuration (timeSub resetTime now)
    lit "reset in " ++ duration ++ lit " @" ++ format resetTime

inductive TimeUnit
  | day
  | hour
  | minute
  deriving DecidableEq

namespace TimeUnit

def letter : TimeUnit → UInt8
  | day => 0x64
  | hour => 0x68
  | minute => 0x6D

def minutes : TimeUnit → ℕ
  | day => 1440
  | hour => 60
  | minute => 1

end TimeUnit

/-- The amounts that a text names, each with its unit: numbers without a sign, and blanks between
the amounts. The number is that of the digits read so far. -/
def readAmounts : Option ℕ → GoString → Option (List (ℕ × TimeUnit))
  | none, [] => some []
  | some _, [] => none
  | number, b :: rest =>
    if 0x30 ≤ b ∧ b ≤ 0x39 then readAmounts (some (10 * number.getD 0 + (b.toNat - 0x30))) rest
    else
      match number with
      | none => if b = 0x20 then readAmounts none rest else none
      | some n =>
        match [TimeUnit.day, .hour, .minute].find? fun unit => unit.letter = b with
        | none => none
        | some unit => (readAmounts none rest).map ((n, unit) :: ·)

/-- The minutes of all amounts. -/
def amountsTotal (amounts : List (ℕ × TimeUnit)) : ℕ :=
  (amounts.map fun amount => amount.1 * amount.2.minutes).sum

theorem readAmounts_digit (number : Option ℕ) {k : ℕ} (hk : k < 10) (rest : GoString) :
    readAmounts number (UInt8.ofNat (0x30 + k) :: rest) =
      readAmounts (some (10 * number.getD 0 + k)) rest := by
  have hnat : (UInt8.ofNat (0x30 + k)).toNat = 0x30 + k := toNat_ofNat (by omega)
  have hdigit : 0x30 ≤ UInt8.ofNat (0x30 + k) ∧ UInt8.ofNat (0x30 + k) ≤ 0x39 := by
    rw [UInt8.le_iff_toNat_le, UInt8.le_iff_toNat_le, hnat]
    simp only [UInt8.reduceToNat]
    omega
  cases number <;> rw [readAmounts, if_pos hdigit, hnat, Nat.add_sub_cancel_left]

theorem readAmounts_itoaN {fuel n : ℕ} (h : n < fuel) (rest : GoString) :
    readAmounts none (itoaN fuel n ++ rest) = readAmounts (some n) rest := by
  induction fuel generalizing n rest with
  | zero => exact absurd h (Nat.not_lt_zero n)
  | succ fuel ih =>
    rw [itoaN]
    split_ifs with hn
    · rw [singleton_append, readAmounts_digit none hn]
      simp
    · have hlt : n % 10 < 10 := Nat.mod_lt _ (by decide)
      rw [append_assoc, ih (by omega), singleton_append, readAmounts_digit _ hlt]
      simp only [Option.getD_some, Nat.div_add_mod]

/-- A number and its unit are read back. -/
theorem readAmounts_amount (n : ℕ) (unit : TimeUnit) (rest : GoString) :
    readAmounts none (itoa n ++ unit.letter :: rest) =
      (readAmounts none rest).map ((n, unit) :: ·) := by
  rw [show itoa n = itoaN (n + 1) n from rfl, readAmounts_itoaN (Nat.lt_succ_self n), readAmounts]
  cases unit <;> rfl

theorem readAmounts_blank (rest : GoString) :
    readAmounts none (0x20 :: rest) = readAmounts none rest := rfl

/-- The amounts that are shown for so many minutes: those that are not zero. -/
def amountsOf (t : ℕ) : List (ℕ × TimeUnit) :=
  if t = 0 then [(0, .minute)]
  else [(t / 1440, .day), (t / 60 % 24, .hour), (t % 60, .minute)].filter fun amount => 0 < amount.1

theorem amountsTotal_filter (amounts : List (ℕ × TimeUnit)) :
    amountsTotal (amounts.filter fun amount => 0 < amount.1) = amountsTotal amounts := by
  induction amounts with
  | nil => rfl
  | cons amount amounts ih =>
    rw [filter_cons]
    split_ifs with hpos
    · exact congrArg (amount.1 * amount.2.minutes + ·) ih
    · have hzero : amount.1 = 0 := by simpa using hpos
      rw [ih, amountsTotal, amountsTotal, map_cons, sum_cons, hzero, Nat.zero_mul, Nat.zero_add]

theorem amountsTotal_amountsOf (t : ℕ) : amountsTotal (amountsOf t) = t := by
  rw [amountsOf]
  split_ifs with ht
  · rw [ht]
    rfl
  · rw [amountsTotal_filter]
    simp only [amountsTotal, TimeUnit.minutes, map_cons, map_nil, sum_cons, sum_nil]
    omega

theorem amountsOf_units (t : ℕ) :
    (amountsOf t).map Prod.snd <+ [TimeUnit.day, .hour, .minute] := by
  rw [amountsOf]
  split_ifs
  · decide
  · exact filter_sublist.map Prod.snd

theorem toInt_div {a b : Int64} {m n : ℕ} (ha : a.toInt = m) (hb : b.toInt = n) :
    (a / b).toInt = (m / n : ℕ) := by
  have hne : b ≠ -1 := by
    rintro rfl
    simp at hb
  rw [toInt_div_of_ne_right a b hne, ha, hb, Int.ofNat_tdiv]

theorem toInt_mod {a b : Int64} {m n : ℕ} (ha : a.toInt = m) (hb : b.toInt = n) :
    (a % b).toInt = (m % n : ℕ) := by
  rw [Int64.toInt_mod, ha, hb, Int.ofNat_tmod]

theorem gt_zero_iff {a : Int64} {m : ℕ} (ha : a.toInt = m) : a > 0 ↔ 0 < m := by
  rw [gt_iff_lt, lt_iff_toInt_lt, ha]
  simp

theorem readAmounts_minutesText {total : Int64} {t : ℕ} (h : total.toInt = t) :
    readAmounts none (minutesText total) = some (amountsOf t) := by
  have hdays : (total / (24 * 60)).toInt = (t / 1440 : ℕ) := toInt_div h (by decide)
  have hhours : (total / 60 % 24).toInt = (t / 60 % 24 : ℕ) :=
    toInt_mod (toInt_div h (by decide)) (by decide)
  have hminutes : (total % 60).toInt = (t % 60 : ℕ) := toInt_mod h (by decide)
  have hzero : total = 0 ↔ t = 0 := by
    rw [← toInt_inj, h]
    simp
  rw [minutesText, amountsOf]
  simp only [hzero, gt_zero_iff hdays, gt_zero_iff hhours, gt_zero_iff hminutes, hdays, hhours,
    hminutes]
  have hday : lit "d" = [TimeUnit.day.letter] := rfl
  have hhour : lit "h" = [TimeUnit.hour.letter] := rfl
  have hminute : lit "m" = [TimeUnit.minute.letter] := rfl
  have hblank : lit " " = [0x20] := rfl
  have hend : readAmounts none [] = some [] := rfl
  split_ifs with ht hd hm hh hh hh hm
  · rfl
  all_goals
    simp only [intercalate_cons_cons, intercalate_singleton, nil_append, cons_append,
      append_assoc, readAmounts_amount, readAmounts_blank, Option.map_some, filter_cons,
      filter_nil, decide_true, decide_false, if_true, if_false, Bool.false_eq_true, *]
  -- The last branch does not ask whether there are minutes: nothing else is left.
  have hm : 0 < t % 60 := by omega
  simp only [hm, decide_true, if_true]

/-- So many nanoseconds in minutes, rounded up. -/
def minutesUp (n : ℕ) : ℕ := (n + 59999999999) / 60000000000

/-- The last whole minute of a 64-bit duration. -/
def lastMinute : ℕ := 9223372020000000000

theorem toInt_truncate {d : Int64} {n : ℕ} (hd : d.toInt = n) :
    (truncate d minute).toInt = (n / 60000000000 * 60000000000 : ℕ) := by
  have hmod : (d % minute).toInt = (n % 60000000000 : ℕ) := toInt_mod hd (by decide)
  have hlt := d.toInt_lt
  rw [truncate, if_neg (by decide), toInt_sub, hd, hmod, Int.bmod_eq_of_le] <;> omega

theorem mod_minute_ne_zero {d : Int64} {n : ℕ} (hd : d.toInt = n) :
    d % minute ≠ 0 ↔ n % 60000000000 ≠ 0 := by
  have hmod : (d % minute).toInt = (n % 60000000000 : ℕ) := toInt_mod hd (by decide)
  rw [Ne, ← toInt_inj, hmod, toInt_zero]
  omega

theorem toInt_clamp (d : Int64) : (if d < 0 then 0 else d).toInt = d.toInt.toNat := by
  split_ifs with hneg
  all_goals rw [lt_iff_toInt_lt, toInt_zero] at hneg
  · rw [toInt_zero]
    omega
  · omega

theorem toInt_totalMinutes {d : Int64} (h : d.toInt ≤ lastMinute) :
    (totalMinutes d).toInt = minutesUp d.toInt.toNat := by
  have hclamp := toInt_clamp d
  rw [totalMinutes, minutesUp]
  generalize (if d < 0 then 0 else d) = e at hclamp
  generalize hn : d.toInt.toNat = n at hclamp
  have hle : n ≤ lastMinute := by omega
  have htrunc := toInt_truncate hclamp
  simp only [mod_minute_ne_zero hclamp]
  split_ifs with hmod
  · have hadd : (truncate e minute + minute).toInt =
        ((n / 60000000000 + 1) * 60000000000 : ℕ) := by
      rw [toInt_add, htrunc, show minute.toInt = 60000000000 from rfl, Int.bmod_eq_of_le]
      all_goals rw [lastMinute] at hle; omega
    rw [toInt_div hadd (by decide : minute.toInt = (60000000000 : ℕ))]
    omega
  · rw [toInt_div htrunc (by decide : minute.toInt = (60000000000 : ℕ))]
    omega

theorem formatStatusDuration_late {d : Int64} (h : lastMinute < d.toInt) :
    formatStatusDuration d = lit "-46m" := by
  have hlt := d.toInt_lt
  have hd : d.toInt = d.toInt.toNat := by omega
  have htrunc : truncate d minute = 9223372020000000000 := by
    rw [lastMinute] at h
    rw [← toInt_inj, toInt_truncate hd,
      show toInt 9223372020000000000 = 9223372020000000000 from rfl]
    omega
  have hmod : d % minute ≠ 0 := by
    rw [lastMinute] at h
    rw [mod_minute_ne_zero hd]
    omega
  have hneg : ¬ d < 0 := by
    rw [lt_iff_toInt_lt, hd]
    simp
  rw [formatStatusDuration, totalMinutes]
  simp only [if_neg hneg, if_pos hmod, htrunc]
  decide

/-- The text names days, hours and minutes, in this order and none with a sign, that make up the
duration rounded up to whole minutes, exactly for the durations up to the last whole minute. -/
theorem formatStatusDuration_amounts (d : Int64) :
    (∃ amounts, readAmounts none (formatStatusDuration d) = some amounts ∧
        amounts.map Prod.snd <+ [TimeUnit.day, .hour, .minute] ∧
        amountsTotal amounts = minutesUp d.toInt.toNat) ↔
      d.toInt ≤ lastMinute := by
  constructor
  · rintro ⟨amounts, hread, -⟩
    by_contra hlate
    have hsign : readAmounts none (lit "-46m") = none := by decide
    rw [formatStatusDuration_late (not_le.mp hlate), hsign] at hread
    cases hread
  · intro h
    refine ⟨_, readAmounts_minutesText (toInt_totalMinutes h), amountsOf_units _, ?_⟩
    exact amountsTotal_amountsOf _

theorem formatStatusDuration_maxValue :
    formatStatusDuration maxValue = lit "-46m" ∧
      readAmounts none (formatStatusDuration maxValue) = none := by
  decide

end Centaurx.Command
