import Mathlib.Data.List.Nodup
import Mathlib.Data.List.Perm.Subperm
import Mathlib.Logic.Function.Basic
import Mathlib.Logic.Relation

namespace Centaurx.RunnerGrpc
open List Relation Function

/-- Every process has one parent. -/
structure ProcessTable where
  /-- Process and parent, in the order of the directory. -/
  rows : List (Int × Int)
  nodup : (rows.map Prod.fst).Nodup

namespace ProcessTable

/-- The map `parents`. -/
def parents (t : ProcessTable) : Int → List Int :=
  t.rows.foldl (fun m row => update m row.2 (m row.2 ++ [row.1])) fun _ => []

/-- The loop over the queue, for so many rounds. -/
def walk (t : ProcessTable) : ℕ → List Int → List Int → Option (List Int)
  | _, [], out => some out
  | 0, _ :: _, _ => none
  | rounds + 1, cur :: queue, out =>
    walk t rounds (queue ++ t.parents cur) (out ++ t.parents cur)

def listProcessChildren (t : ProcessTable) (rounds : ℕ) (root : Int) : Option (List Int) :=
  t.walk rounds [root] []

def Child (t : ProcessTable) (parent pid : Int) : Prop := (pid, parent) ∈ t.rows

variable {t : ProcessTable} {root parent pid : Int}

theorem foldl_parents (rows : List (Int × Int)) (m : Int → List Int) (parent : Int) :
    rows.foldl (fun (m : Int → List Int) row => update m row.2 (m row.2 ++ [row.1])) m parent =
      m parent ++ (rows.filter fun row => row.2 = parent).map Prod.fst := by
  induction rows generalizing m with
  | nil => simp
  | cons row rows ih =>
    rw [foldl_cons, ih, update_apply, filter_cons]
    by_cases hrow : row.2 = parent
    · simp [hrow]
    · simp [hrow, Ne.symm hrow]

theorem parents_eq (t : ProcessTable) (parent : Int) :
    t.parents parent = (t.rows.filter fun row => row.2 = parent).map Prod.fst :=
  foldl_parents t.rows _ parent

theorem mem_parents : pid ∈ t.parents parent ↔ t.Child parent pid := by
  simp [parents_eq, Child]

theorem Child.unique {parent' : Int} (h : t.Child parent pid) (h' : t.Child parent' pid) :
    parent = parent' :=
  congrArg Prod.snd (inj_on_of_nodup_map t.nodup h h' rfl)

theorem count_parents (h : t.Child parent pid) (p : Int) :
    (t.parents p).count pid = if p = parent then 1 else 0 := by
  have hnodup : (t.parents p).Nodup := by
    rw [parents_eq]
    exact t.nodup.sublist (filter_sublist.map _)
  rw [hnodup.count]
  exact if_congr (mem_parents.trans ⟨fun h' => h'.unique h, fun heq => heq ▸ h⟩) rfl rfl

/-- A process is met once for each time that its parent is met. -/
theorem count_flatMap_parents (h : t.Child parent pid) (ps : List Int) :
    (ps.flatMap t.parents).count pid = ps.count parent := by
  induction ps with
  | nil => rfl
  | cons p ps ih =>
    rw [flatMap_cons, count_append, ih, count_parents h, count_cons, Nat.add_comm]
    simp only [beq_iff_eq]

/-- The processes that were taken from the queue and those that are in it. -/
structure Visits (t : ProcessTable) (root : Int) (done queue : List Int) : Prop where
  eq : root :: done.flatMap t.parents = done ++ queue
  reached : ∀ pid ∈ done ++ queue, ReflTransGen t.Child root pid

variable {done queue : List Int} {cur : Int}

theorem Visits.start : t.Visits root [] [root] :=
  ⟨rfl, fun _ h => mem_singleton.mp h ▸ .refl⟩

theorem Visits.next (h : t.Visits root done (cur :: queue)) :
    t.Visits root (done ++ [cur]) (queue ++ t.parents cur) := by
  have heq : (done ++ [cur]) ++ (queue ++ t.parents cur) =
      (done ++ cur :: queue) ++ t.parents cur := by simp
  refine ⟨?_, fun pid hpid => ?_⟩
  · rw [heq, ← h.eq, flatMap_append, flatMap_singleton]
    rfl
  · rw [heq] at hpid
    rcases mem_append.mp hpid with hpid | hpid
    · exact h.reached pid hpid
    · exact (h.reached cur (by simp)).tail (mem_parents.mp hpid)

theorem Visits.descends (h : t.Visits root done queue) (hpid : pid ∈ done.flatMap t.parents) :
    TransGen t.Child root pid := by
  obtain ⟨p, hp, hpid⟩ := mem_flatMap.mp hpid
  exact TransGen.tail' (h.reached p (mem_append_left _ hp)) (mem_parents.mp hpid)

/-- A process that is no descendant of itself is met once, and so are the others. -/
theorem Visits.nodup (h : t.Visits root done (cur :: queue)) (hroot : ¬TransGen t.Child root root)
    (hnodup : (done ++ cur :: queue).Nodup) :
    ((done ++ [cur]) ++ (queue ++ t.parents cur)).Nodup := by
  rw [← h.next.eq, nodup_cons]
  refine ⟨fun hmem => hroot (h.next.descends hmem), nodup_iff_count_le_one.mpr fun pid => ?_⟩
  by_cases hpid : pid ∈ (done ++ [cur]).flatMap t.parents
  · obtain ⟨p, -, hp⟩ := mem_flatMap.mp hpid
    rw [count_flatMap_parents (mem_parents.mp hp)]
    have hsub : done ++ [cur] <+ done ++ cur :: queue := by simp
    exact Nat.le_trans (hsub.count_le p) (nodup_iff_count_le_one.mp hnodup p)
  · rw [count_eq_zero.mpr hpid]
    exact Nat.zero_le 1

theorem walk_isSome (hroot : ¬TransGen t.Child root root) {rounds : ℕ}
    (h : t.Visits root done queue) (hnodup : (done ++ queue).Nodup)
    (hrounds : t.rows.length < rounds + done.length) :
    (t.walk rounds queue (done.flatMap t.parents)).isSome := by
  induction rounds generalizing done queue with
  | zero =>
    have hsub : done ++ queue ⊆ root :: t.rows.map Prod.fst := by
      intro pid hpid
      rw [← h.eq] at hpid
      rcases mem_cons.mp hpid with rfl | hpid
      · exact mem_cons_self
      · obtain ⟨p, -, hp⟩ := mem_flatMap.mp hpid
        exact mem_cons_of_mem _ (mem_map_of_mem (mem_parents.mp hp))
    have hlen := (subperm_of_subset hnodup hsub).length_le
    rw [length_append, length_cons, length_map] at hlen
    rw [length_eq_zero_iff.mp (show queue.length = 0 by omega)]
    rfl
  | succ rounds ih =>
    cases queue with
    | nil => rfl
    | cons cur queue =>
      have hlen : t.rows.length < rounds + (done ++ [cur]).length := by
        rw [length_append, length_singleton]
        omega
      have hnext := ih h.next (h.nodup hroot hnodup) hlen
      rwa [flatMap_append, flatMap_singleton] at hnext

theorem exists_visits {rounds : ℕ} {out : List Int} (h : t.Visits root done queue)
    (hwalk : t.walk rounds queue (done.flatMap t.parents) = some out) :
    ∃ all, t.Visits root all [] ∧ out = all.flatMap t.parents ∧
      (¬TransGen t.Child root root → (done ++ queue).Nodup → all.Nodup) := by
  induction rounds generalizing done queue with
  | zero =>
    cases queue with
    | nil =>
      rw [append_nil]
      exact ⟨done, h, (Option.some.inj hwalk).symm, fun _ hnodup => hnodup⟩
    | cons cur queue => cases hwalk
  | succ rounds ih =>
    cases queue with
    | nil =>
      rw [append_nil]
      exact ⟨done, h, (Option.some.inj hwalk).symm, fun _ hnodup => hnodup⟩
    | cons cur queue =>
      obtain ⟨all, hall, hout, hnodup⟩ :=
        ih h.next (by rwa [flatMap_append, flatMap_singleton])
      exact ⟨all, hall, hout, fun hroot hn => hnodup hroot (h.nodup hroot hn)⟩

theorem Visits.mem (h : t.Visits root done []) (hpid : ReflTransGen t.Child root pid) :
    pid ∈ done := by
  have heq := h.eq
  rw [append_nil] at heq
  induction hpid with
  | refl => exact heq ▸ mem_cons_self
  | tail _ hchild ih =>
    rw [← heq]
    exact mem_cons_of_mem _ (mem_flatMap.mpr ⟨_, ih, mem_parents.mpr hchild⟩)

/-- On a circle the root would be met once more than itself. -/
theorem Visits.acyclic (h : t.Visits root done []) : ¬TransGen t.Child root root := by
  have hcount : ∀ pid, done.count pid = (if root = pid then 1 else 0) +
      (done.flatMap t.parents).count pid := by
    intro pid
    have heq := congrArg (count pid) h.eq
    rw [append_nil, count_cons, Nat.add_comm] at heq
    simpa using heq.symm
  have hle : ∀ {pid}, ReflTransGen t.Child root pid → done.count root ≤ done.count pid := by
    intro pid hpid
    induction hpid with
    | refl => exact Nat.le_refl _
    | @tail p pid _ hchild ih =>
      rw [hcount pid, count_flatMap_parents hchild]
      exact Nat.le_trans ih (Nat.le_add_left _ _)
  intro hroot
  obtain ⟨p, hp, hchild⟩ := TransGen.tail'_iff.mp hroot
  have hmore := hcount root
  rw [if_pos rfl, count_flatMap_parents hchild] at hmore
  have := hle hp
  omega

end ProcessTable

/-- **Process tree.** The walk ends if and only if the root is not a descendant of itself. Then it
returns the descendants of the root, each of them once. -/
theorem listProcessChildren_descendants (t : ProcessTable) (root : Int) :
    ((∃ rounds, (t.listProcessChildren rounds root).isSome) ↔ ¬TransGen t.Child root root) ∧
      ∀ rounds out, t.listProcessChildren rounds root = some out →
        out.Nodup ∧ ∀ pid, pid ∈ out ↔ TransGen t.Child root pid := by
  refine ⟨⟨fun ⟨rounds, hsome⟩ => ?_, fun hroot => ?_⟩, fun rounds out hout => ?_⟩
  · obtain ⟨out, hout⟩ := Option.isSome_iff_exists.mp hsome
    obtain ⟨all, hall, -, -⟩ := ProcessTable.exists_visits .start hout
    exact hall.acyclic
  · refine ⟨t.rows.length + 1, ?_⟩
    exact ProcessTable.walk_isSome hroot .start (nodup_singleton root) (Nat.lt_succ_self _)
  · obtain ⟨all, hall, rfl, hn⟩ := ProcessTable.exists_visits .start hout
    have hnodup : (root :: all.flatMap t.parents).Nodup := by
      rw [hall.eq, append_nil]
      exact hn hall.acyclic (nodup_singleton root)
    refine ⟨hnodup.of_cons, fun pid => ⟨hall.descends, fun hpid => ?_⟩⟩
    obtain ⟨p, hp, hchild⟩ := TransGen.tail'_iff.mp hpid
    exact mem_flatMap.mpr ⟨p, hall.mem hp, ProcessTable.mem_parents.mpr hchild⟩

end Centaurx.RunnerGrpc
