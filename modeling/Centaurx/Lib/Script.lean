import Mathlib.Data.List.Basic

namespace Centaurx.Script

variable {ω φ σ : Type}

structure Step (ω φ σ : Type) where
  op : ω
  /-- What it does; `none` if the state does not allow it. -/
  act : σ → Option σ
  /-- What is left if it fails in a given way. -/
  fail : φ → σ → σ

/-- An operation that changes nothing. -/
def Step.check (op : ω) : Step ω φ σ := ⟨op, some, fun _ => id⟩

/-- The operation that has failed, if one has, and the state at the end. -/
def run (fails : ω → Option φ) : List (Step ω φ σ) → σ → Option ω × σ
  | [], s => (none, s)
  | step :: rest, s =>
    match fails step.op with
    | some how => (some step.op, step.fail how s)
    | none =>
      match step.act s with
      | none => (some step.op, s)
      | some s' => run fails rest s'

variable {fails : ω → Option φ}

theorem run_cons_of_act {step : Step ω φ σ} {s s' : σ} (hf : fails step.op = none)
    (ha : step.act s = some s') (rest : List (Step ω φ σ)) :
    run fails (step :: rest) s = run fails rest s' := by
  simp [run, hf, ha]

theorem act_of_run_cons {step : Step ω φ σ} {rest : List (Step ω φ σ)} {s : σ}
    (h : (run fails (step :: rest) s).1 = none) :
    fails step.op = none ∧ ∃ s', step.act s = some s' ∧
      run fails (step :: rest) s = run fails rest s' := by
  rw [run] at h
  split at h
  · simp at h
  · rename_i hf
    split at h
    · simp at h
    · rename_i s' ha
      exact ⟨hf, s', ha, run_cons_of_act hf ha rest⟩

theorem fails_of_run {steps : List (Step ω φ σ)} {s : σ} (h : (run fails steps s).1 = none) :
    ∀ step ∈ steps, fails step.op = none := by
  induction steps generalizing s with
  | nil => simp
  | cons step rest ih =>
    obtain ⟨hf, s', -, hrun⟩ := act_of_run_cons h
    rw [List.forall_mem_cons]
    exact ⟨hf, ih (hrun ▸ h)⟩

theorem run_append (first second : List (Step ω φ σ)) (s : σ) :
    run fails (first ++ second) s =
      match run fails first s with
      | (some op, s') => (some op, s')
      | (none, s') => run fails second s' := by
  induction first generalizing s with
  | nil => rfl
  | cons step rest ih =>
    rw [List.cons_append, run, run]
    cases fails step.op with
    | some how => rfl
    | none =>
      cases step.act s with
      | none => rfl
      | some s' => exact ih s'

theorem run_append_eq_none {first second : List (Step ω φ σ)} {s : σ}
    (h : (run fails (first ++ second) s).1 = none) :
    (run fails first s).1 = none ∧ (run fails second (run fails first s).2).1 = none ∧
      run fails (first ++ second) s = run fails second (run fails first s).2 := by
  rw [run_append] at h ⊢
  generalize run fails first s = out at h ⊢
  obtain ⟨_ | op, s'⟩ := out
  · exact ⟨rfl, h, rfl⟩
  · simp at h

/-- What every operation keeps when it succeeds, a script that succeeds keeps. -/
theorem run_keeps {P : σ → Prop} {steps : List (Step ω φ σ)}
    (hact : ∀ step ∈ steps, ∀ s s', P s → step.act s = some s' → P s') {s : σ} (hs : P s)
    (h : (run fails steps s).1 = none) : P (run fails steps s).2 := by
  induction steps generalizing s with
  | nil => exact hs
  | cons step rest ih =>
    obtain ⟨-, s', ha, hrun⟩ := act_of_run_cons h
    rw [hrun] at h ⊢
    exact ih (fun t ht => hact t (by simp [ht])) (hact step (by simp) s s' hs ha) h

/-- What every operation keeps, whether it succeeds or fails, the script keeps. -/
theorem run_invariant {P : σ → Prop} {steps : List (Step ω φ σ)}
    (hact : ∀ step ∈ steps, ∀ s s', P s → step.act s = some s' → P s')
    (hfail : ∀ step ∈ steps, ∀ how s, P s → P (step.fail how s)) {s : σ} (hs : P s) :
    P (run fails steps s).2 := by
  induction steps generalizing s with
  | nil => exact hs
  | cons step rest ih =>
    have hact' : ∀ t ∈ rest, ∀ s s', P s → t.act s = some s' → P s' :=
      fun t ht => hact t (by simp [ht])
    have hfail' : ∀ t ∈ rest, ∀ how s, P s → P (t.fail how s) := fun t ht => hfail t (by simp [ht])
    rw [run]
    cases fails step.op with
    | some how => exact hfail step (by simp) how s hs
    | none =>
      cases ha : step.act s with
      | none => exact hs
      | some s' => exact ih hact' hfail' (hact step (by simp) s s' hs ha)

theorem run_checks (ops : List ω) (s : σ) :
    run fails (ops.map Step.check) s = (ops.find? fun op => (fails op).isSome, s) := by
  induction ops with
  | nil => rfl
  | cons op ops ih =>
    rw [List.map_cons, run, List.find?_cons]
    cases h : fails op with
    | some how => simp [Step.check, h]
    | none => simpa [Step.check, h] using ih

end Centaurx.Script
