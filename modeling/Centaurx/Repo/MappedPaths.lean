import Centaurx.Repo.GitCommands

namespace Centaurx
open Go FilePath List

/-- `resolveHostPath` of the runner provider. -/
def resolveHostPath (hostStateDir containerStateDir containerPath : GoString) : GoString :=
  if blank hostStateDir ∨ blank containerStateDir then containerPath
  else
    match rel containerStateDir containerPath with
    | none => containerPath
    | some r => if dotdot.isPrefixOf r then containerPath else join [hostStateDir, r]

/-- A path that is absolute and clean. -/
structure Rooted (p : GoString) : Prop where
  abs : isAbs p = true
  clean : clean p = p

/-- The path with the same elements below another root. -/
def moved (root root' p : GoString) : Option GoString :=
  (below root p).map fun names => render true (parts root' ++ names)

/-- The first name below the root begins with two dots. -/
def dottedBelow (root p : GoString) : Bool :=
  match below root p with
  | some (name :: _) => dotdot.isPrefixOf name
  | _ => false

variable {root root' p q : GoString} {names : List GoString}

theorem Rooted.ne_nil (h : Rooted p) : p ≠ [] := ne_nil_of_isAbs h.abs

theorem Rooted.plain (h : Rooted p) : ∀ e ∈ parts p, Plain e := by
  have hnorm := parts_normal p
  rw [h.abs] at hnorm
  exact hnorm.plain

theorem Rooted.eq_render (h : Rooted p) : p = render true (parts p) := by
  conv_lhs => rw [← h.clean, FilePath.clean, h.abs]

theorem Rooted.parts_inj (hp : Rooted p) (hq : Rooted q) (h : parts p = parts q) : p = q :=
  eq_of_parts hp.clean hq.clean (hp.abs.trans hq.abs.symm) h

theorem Rooted.below_plain (hp : Rooted p) (h : below root p = some names) :
    ∀ e ∈ names, Plain e := by
  intro e he
  apply hp.plain
  rw [below_eq_some.mp h]
  exact mem_append_right _ he

theorem parts_moved (hroot' : Rooted root') (hp : Rooted p) (h : below root p = some names) :
    parts (render true (parts root' ++ names)) = parts root' ++ names := by
  apply parts_render
  refine ⟨0, parts root' ++ names, rfl, fun _ => rfl, ?_⟩
  rw [forall_mem_append]
  exact ⟨hroot'.plain, hp.below_plain h⟩

theorem moved_inj (hroot' : Rooted root') (hp : Rooted p) (hq : Rooted q) {r : GoString}
    (h : moved root root' p = some r) (h' : moved root root' q = some r) : p = q := by
  obtain ⟨names, hnames, rfl⟩ := Option.map_eq_some_iff.mp h
  obtain ⟨names', hnames', heq⟩ := Option.map_eq_some_iff.mp h'
  have hparts := congrArg parts heq
  rw [parts_moved hroot' hp hnames, parts_moved hroot' hq hnames'] at hparts
  apply hp.parts_inj hq
  rw [below_eq_some.mp hnames, below_eq_some.mp hnames', append_cancel_left hparts]

/-- A slash is no dot, so only the first name decides how a relative path begins. -/
theorem dotdot_isPrefixOf_intercalate (name : GoString) (names : List GoString) :
    dotdot.isPrefixOf ([sep].intercalate (name :: names)) = dotdot.isPrefixOf name := by
  cases names with
  | nil => simp
  | cons next names =>
    rw [intercalate_cons_cons]
    match name with
    | [] | [b] => simp [dotdot, sep, isPrefixOf]
    | b :: c :: name => simp [dotdot, isPrefixOf]

theorem dottedBelow_eq (h : below root p = some names) (hne : names ≠ []) :
    dottedBelow root p = dotdot.isPrefixOf ([sep].intercalate names) := by
  obtain ⟨name, names, rfl⟩ := exists_cons_of_ne_nil hne
  rw [dottedBelow, h, dotdot_isPrefixOf_intercalate]

/-- What both functions look at. -/
inductive Relative (root p : GoString) : Prop
  /-- The root itself. -/
  | same (h : below root p = some []) (hrel : rel root p = some dot)
  | down (names : List GoString) (h : below root p = some names) (hne : names ≠ [])
      (hrel : rel root p = some ([sep].intercalate names))
      (hdot : [sep].intercalate names ≠ dot)
  /-- Not below the root. -/
  | up (h : below root p = none) (hrel : ∀ r, rel root p = some r → dotdot.isPrefixOf r = true)

theorem relative (hroot : Rooted root) (hp : Rooted p) : Relative root p := by
  cases hb : below root p with
  | none =>
    refine .up hb fun r hr => ?_
    by_contra hup
    obtain ⟨-, ts, hparts, -⟩ := rel_below hr (Bool.eq_false_iff.mpr hup)
    rw [below_eq_some.mpr hparts] at hb
    cases hb
  | some names =>
    have hparts := below_eq_some.mp hb
    by_cases hne : names = []
    · subst hne
      rw [append_nil] at hparts
      refine .same hb ?_
      rw [hroot.parts_inj hp hparts.symm, rel, if_pos rfl]
    · have hdots : ∀ e ∈ names, e ≠ dot := fun e he => (hp.below_plain hb e he).ne_dot
      exact .down names hb hne (rel_of_append (hp.abs.trans hroot.abs.symm) hne hparts)
        (intercalate_ne_dot hne hdots)

variable (hroot : Rooted root) (hroot' : Rooted root') (hne : root' ≠ root)

include hroot hroot' hne

theorem mapRepoPath_eq (hp : Rooted p) :
    (mapRepoPath root root' p).toOption =
      if dottedBelow root p then none else moved root root' p := by
  have hbranch : ¬(blank root' = true ∨ root' = root) := by
    rw [not_blank_of_isAbs hroot'.abs]
    simp [hne]
  rw [mapRepoPath, if_neg hbranch]
  cases relative hroot hp with
  | same h hrel =>
    simp only [hrel, if_pos, dottedBelow, moved, h, Option.map_some, append_nil,
      ← hroot'.eq_render]
    rfl
  | down names h hnames hrel hdot =>
    simp only [hrel, if_neg hdot, ← dottedBelow_eq h hnames]
    split_ifs
    · rfl
    · rw [join_names hroot'.ne_nil hnames (hp.below_plain h), hroot'.abs, moved, h]
      rfl
  | up h hrel =>
    have hmoved : (if dottedBelow root p then none else moved root root' p) = none := by
      simp [dottedBelow, moved, h]
    rw [hmoved]
    cases hr : rel root p with
    | none => rfl
    | some r =>
      have hup := hrel r hr
      have hdot : r ≠ dot := by
        rintro rfl
        exact absurd hup (by decide)
      simp only [if_neg hdot, if_pos hup]
      rfl

omit hne in
theorem resolveHostPath_eq (hp : Rooted p) :
    resolveHostPath root' root p =
      if dottedBelow root p then p else (moved root root' p).getD p := by
  have hbranch : ¬(blank root' = true ∨ blank root = true) := by
    rw [not_blank_of_isAbs hroot'.abs, not_blank_of_isAbs hroot.abs]
    simp
  rw [resolveHostPath, if_neg hbranch]
  cases relative hroot hp with
  | same h hrel =>
    have hjoin : join [root', dot] = root' := by
      rw [join_pair hroot'.ne_nil, clean, isAbs_append hroot'.ne_nil, ← parts_clean,
        ← join_pair hroot'.ne_nil, parts_join_dot hroot'.ne_nil, hroot'.abs, ← hroot'.eq_render]
    have hup : dotdot.isPrefixOf dot = false := by decide
    simp only [hrel, hup, hjoin, dottedBelow, moved, h, Option.map_some, append_nil,
      ← hroot'.eq_render, Option.getD_some, Bool.false_eq_true, if_false]
  | down names h hnames hrel hdot =>
    simp only [hrel, ← dottedBelow_eq h hnames]
    split_ifs
    · rfl
    · rw [join_names hroot'.ne_nil hnames (hp.below_plain h), hroot'.abs, moved, h]
      rfl
  | up h hrel =>
    have hmoved : (if dottedBelow root p then p else (moved root root' p).getD p) = p := by
      simp [dottedBelow, moved, h]
    rw [hmoved]
    cases hr : rel root p with
    | none => rfl
    | some r => simp only [if_pos (hrel r hr)]

/-- Where a name is taken for a way up, there is another path to map to. -/
theorem moved_of_dottedBelow (hp : Rooted p) (h : dottedBelow root p = true) :
    ∃ r, moved root root' p = some r ∧ r ≠ p := by
  cases hb : below root p with
  | none => simp [dottedBelow, hb] at h
  | some names =>
    refine ⟨render true (parts root' ++ names), by rw [moved, hb]; rfl, fun heq => ?_⟩
    have hparts := congrArg parts heq
    rw [parts_moved hroot' hp hb, below_eq_some.mp hb] at hparts
    exact hne (hroot'.parts_inj hroot (append_cancel_right hparts))

/-- **Mapped paths.** A path is mapped to the path with the same elements below the other root,
and a path that is not below the root to none, exactly if the first name below the root does not
begin with two dots. The runner provider does the same, and leaves the other paths alone. Different
paths are mapped to different paths. -/
theorem mapped_exactly_iff :
    (∀ p, Rooted p →
      ((mapRepoPath root root' p).toOption = moved root root' p ↔ dottedBelow root p = false)) ∧
    (∀ p q r, Rooted p → Rooted q → mapRepoPath root root' p = .ok r →
      mapRepoPath root root' q = .ok r → p = q) ∧
    (∀ p, Rooted p →
      (resolveHostPath root' root p = (moved root root' p).getD p ↔ dottedBelow root p = false)) ∧
    (∀ p q, Rooted p → Rooted q → (below root p).isSome → (below root q).isSome →
      dottedBelow root p = false → dottedBelow root q = false →
      resolveHostPath root' root p = resolveHostPath root' root q → p = q) := by
  refine ⟨fun p hp => ?_, fun p q r hp hq h h' => ?_, fun p hp => ?_,
    fun p q hp hq h h' hd hd' heq => ?_⟩
  · rw [mapRepoPath_eq hroot hroot' hne hp]
    cases hd : dottedBelow root p with
    | false => simp
    | true =>
      obtain ⟨r, hr, -⟩ := moved_of_dottedBelow hroot hroot' hne hp hd
      simp [hr]
  · have hmoved : ∀ p, Rooted p → mapRepoPath root root' p = .ok r →
        moved root root' p = some r := by
      intro p hp h
      have heq := mapRepoPath_eq hroot hroot' hne hp
      rw [h] at heq
      split_ifs at heq
      · cases heq
      · exact heq.symm
    exact moved_inj hroot' hp hq (hmoved p hp h) (hmoved q hq h')
  · rw [resolveHostPath_eq hroot hroot' hp]
    cases hd : dottedBelow root p with
    | false => simp
    | true =>
      obtain ⟨r, hr, hrp⟩ := moved_of_dottedBelow hroot hroot' hne hp hd
      simpa [hr] using hrp.symm
  · have hmoved : ∀ p, Rooted p → (below root p).isSome → dottedBelow root p = false →
        moved root root' p = some (resolveHostPath root' root p) := by
      intro p hp h hd
      obtain ⟨names, hnames⟩ := Option.isSome_iff_exists.mp h
      rw [resolveHostPath_eq hroot hroot' hp, hd]
      simp [moved, hnames]
    exact moved_inj hroot' hp hq (hmoved p hp h hd) (heq ▸ hmoved q hq h' hd')

omit hroot hroot' hne in
/-- A repository in a runner. -/
theorem mapped_exactly_runner :
    (mapRepoPath (lit "/srv/repos") (lit "/repos") (lit "/srv/repos/me/.app")).toOption =
      moved (lit "/srv/repos") (lit "/repos") (lit "/srv/repos/me/.app") :=
  ((mapped_exactly_iff ⟨by decide, by decide⟩ ⟨by decide, by decide⟩ (by decide)).1 _
    ⟨by decide, by decide⟩).mpr (by decide)

omit hroot hroot' hne in
/-- The user id `..me` is valid, but its repositories are not found in a runner, and its state is
not found on the host. -/
theorem mapped_dotted_user :
    validateUserID (lit "..me") = true ∧
      repoPath (lit "/srv/repos") (lit "..me") (lit "app") = .ok (lit "/srv/repos/..me/app") ∧
      mapRepoPath (lit "/srv/repos") (lit "/repos") (lit "/srv/repos/..me/app") =
        .error (.schema .invalidRepo) ∧
      moved (lit "/srv/repos") (lit "/repos") (lit "/srv/repos/..me/app") =
        some (lit "/repos/..me/app") ∧
      resolveHostPath (lit "/var/centaurx") (lit "/centaurx") (lit "/centaurx/..me") =
        lit "/centaurx/..me" ∧
      moved (lit "/centaurx") (lit "/var/centaurx") (lit "/centaurx/..me") =
        some (lit "/var/centaurx/..me") := by
  decide

end Centaurx
