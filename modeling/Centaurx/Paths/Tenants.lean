import Centaurx.Lib.FilePath
import Centaurx.Lib.Words
import Centaurx.Schema

namespace Centaurx
open Go FilePath List

/-- `NormalizeRepoName`. -/
def normalizeRepoName (name : RepoName) : Except SchemaError RepoName :=
  let trimmed := trimSpace name
  if trimmed = [] then .error .invalidRepo
  else if sep ∈ trimmed then .error .invalidRepo
  else
    let cleaned := clean trimmed
    if cleaned = dot ∨ cleaned = dotdot ∨ sep ∈ cleaned then .error .invalidRepo
    else .ok cleaned

inductive PathError
  | message (text : GoString)
  | schema (err : SchemaError)
  deriving DecidableEq

def repoPath (repoRoot : GoString) (userID : UserID) (repoName : RepoName) :
    Except PathError GoString :=
  if blank repoRoot then .error (.message (lit "repo root is required"))
  else if blank userID then .error (.message (lit "user id is required"))
  else
    match normalizeRepoName repoName with
    | .error err => .error (.schema err)
    | .ok normalized => .ok (join [repoRoot, userID, normalized])

def homeRoot (stateDir : GoString) : GoString := join [stateDir, lit "home"]

def homeDir (stateDir username : GoString) : GoString := join [homeRoot stateDir, username]

def codexDir (stateDir username : GoString) : GoString :=
  join [homeDir stateDir username, lit ".codex"]

def authPath (stateDir username : GoString) : GoString :=
  join [codexDir stateDir username, lit "auth.json"]

/-- The key directory of a user. -/
def userDir (keyDir username : GoString) : GoString := join [keyDir, username]

/-- The bytes of a user id. -/
def userByte (b : UInt8) : Bool :=
  (0x61 ≤ b.toNat && b.toNat ≤ 0x7A) || (0x30 ≤ b.toNat && b.toNat ≤ 0x39) ||
    b.toNat = 0x2E || b.toNat = 0x5F || b.toNat = 0x2D

theorem userByte_lt {b : UInt8} (h : userByte b = true) : b < 0x80 := by
  simp only [userByte, Bool.or_eq_true, Bool.and_eq_true, decide_eq_true_eq] at h
  rw [UInt8.lt_iff_toNat_lt]
  change b.toNat < 128
  omega

theorem userByte_ne_sep {b : UInt8} (h : userByte b = true) : b ≠ sep := by
  rintro rfl
  exact absurd h (by decide)

theorem validateUserID_ne_nil {u : UserID} (h : validateUserID u = true) : u ≠ [] := by
  simp only [validateUserID, Bool.and_eq_true, decide_eq_true_eq] at h
  exact h.1.1

theorem validateUserID_not_blank {u : UserID} (h : validateUserID u = true) : blank u = false := by
  have hne := validateUserID_ne_nil h
  simp only [validateUserID, Bool.and_eq_true, decide_eq_true_eq] at h
  simp [blank, h.1.2, hne]

theorem validateUserID_bytes {u : UserID} (h : validateUserID u = true) :
    ∀ b ∈ u, userByte b = true := by
  simp only [validateUserID, Bool.and_eq_true, all_eq_true] at h
  have hlt : ∀ r ∈ runes u, r.1 < 0x80 := by
    intro r hr
    have := h.2 r hr
    simp only [Bool.or_eq_true, Bool.and_eq_true, decide_eq_true_eq] at this
    omega
  intro b hb
  have := h.2 (b.toNat, 1) (by rw [runes_of_lt hlt]; exact mem_map_of_mem hb)
  simpa [userByte] using this

theorem plain_userID {u : UserID} (h : validateUserID u = true) (h1 : u ≠ dot)
    (h2 : u ≠ dotdot) : Plain u :=
  ⟨validateUserID_ne_nil h, h1, h2,
    fun hs => userByte_ne_sep (validateUserID_bytes h sep hs) rfl⟩

variable {p : GoString}

theorem isAbs_of_sep_notMem (h : sep ∉ p) : isAbs p = false := by
  cases p with
  | nil => rfl
  | cons b p =>
    have hb : b ≠ sep := fun hb => h (by simp [hb])
    simp [isAbs, hb]

theorem clean_plain {e : GoString} (he : Plain e) : clean e = e := by
  have hparts : parts e = [e] := by
    rw [parts, elements, splitOn_eq_singleton he.sep_notMem, resolve, foldl_cons,
      foldl_nil, push_plain he, nil_append]
  rw [clean, isAbs_of_sep_notMem he.sep_notMem, hparts, render]
  simp

theorem normalizeRepoName_ok {name r : RepoName} (h : normalizeRepoName name = .ok r) :
    Plain r ∧ r = trimSpace name := by
  simp only [normalizeRepoName] at h
  split_ifs at h with h0 hsep hclean
  obtain rfl := Except.ok.inj h
  have hp : Plain (trimSpace name) := by
    refine ⟨h0, ?_, ?_, hsep⟩
    · intro hd
      exact hclean (.inl (by rw [hd]; decide))
    · intro hd
      exact hclean (.inr (.inl (by rw [hd]; decide)))
  rw [clean_plain hp]
  exact ⟨hp, rfl⟩

theorem not_blank_of_isAbs (h : isAbs p = true) : blank p = false := by
  cases p with
  | nil => simp [isAbs] at h
  | cons b p =>
    obtain rfl : b = sep := by simpa [isAbs] using h
    have := trimSpace_ne_nil (b := sep) (s := p) (by decide)
    simp [blank, this]

theorem ne_nil_of_isAbs (h : isAbs p = true) : p ≠ [] := by
  rintro rfl
  simp [isAbs] at h

theorem repoPath_ok {root : GoString} {u : UserID} {name r : RepoName} (hroot : isAbs root = true)
    (hu : validateUserID u = true) (hr : normalizeRepoName name = .ok r) :
    repoPath root u name = .ok (join [join [root, u], r]) := by
  rw [repoPath, not_blank_of_isAbs hroot, validateUserID_not_blank hu, hr,
    ← join_triple (ne_nil_of_isAbs hroot)]
  rfl

theorem repoPath_inv {root : GoString} {u : UserID} {name : RepoName} (hroot : isAbs root = true)
    (h : repoPath root u name = .ok p) :
    ∃ r, normalizeRepoName name = .ok r ∧ p = join [join [root, u], r] := by
  rw [repoPath] at h
  split_ifs at h
  split at h
  · exact absurd h (by simp)
  · rename_i r hr
    refine ⟨r, hr, ?_⟩
    rw [← join_triple (ne_nil_of_isAbs hroot)]
    exact (Except.ok.inj h).symm

/-- The paths of one user are inside the directories meant for them. -/
structure Isolated (root stateDir keyDir : GoString) (u : UserID) : Prop where
  userRoot : StrictlyInside root (join [root, u])
  repos : ∀ name r, normalizeRepoName name = .ok r →
    ∃ p, repoPath root u name = .ok p ∧ StrictlyInside (join [root, u]) p
  home : StrictlyInside (homeRoot stateDir) (homeDir stateDir u)
  auth : StrictlyInside (homeDir stateDir u) (authPath stateDir u)
  keys : StrictlyInside keyDir (userDir keyDir u)

/-- The paths of two users differ, and of one user those of different repositories. -/
structure Apart (root stateDir keyDir : GoString) (u v : UserID) : Prop where
  repos : ∀ name name' p, repoPath root u name = .ok p → repoPath root v name' = .ok p →
    u = v ∧ normalizeRepoName name = normalizeRepoName name'
  home : u ≠ v → homeDir stateDir u ≠ homeDir stateDir v
  auth : u ≠ v → authPath stateDir u ≠ authPath stateDir v
  keys : u ≠ v → userDir keyDir u ≠ userDir keyDir v

variable {root stateDir keyDir : GoString} {u v : UserID}

theorem isAbs_join (hp : isAbs p = true) (q : GoString) : isAbs (join [p, q]) = true := by
  rw [isAbs_join_pair (ne_nil_of_isAbs hp), hp]

theorem plain_codex : Plain (lit ".codex") := ⟨by decide, by decide, by decide, by decide⟩
theorem plain_authJson : Plain (lit "auth.json") := ⟨by decide, by decide, by decide, by decide⟩

theorem parts_authPath (hstate : isAbs stateDir = true) :
    parts (authPath stateDir u) =
      parts (homeDir stateDir u) ++ [lit ".codex"] ++ [lit "auth.json"] := by
  have hhome : isAbs (homeDir stateDir u) = true := isAbs_join (isAbs_join hstate _) _
  rw [authPath, codexDir,
    parts_join_plain (ne_nil_of_isAbs (isAbs_join hhome _)) plain_authJson,
    parts_join_plain (ne_nil_of_isAbs hhome) plain_codex]

theorem isolated_of_plain (hroot : isAbs root = true) (hstate : isAbs stateDir = true)
    (hkey : isAbs keyDir = true) (hu : validateUserID u = true) (hp : Plain u) :
    Isolated root stateDir keyDir u := by
  have hhome : isAbs (homeDir stateDir u) = true := isAbs_join (isAbs_join hstate _) _
  refine ⟨strictlyInside_join hroot hp, ?_, strictlyInside_join (isAbs_join hstate _) hp, ?_,
    strictlyInside_join hkey hp⟩
  · intro name r hr
    exact ⟨_, repoPath_ok hroot hu hr,
      strictlyInside_join (isAbs_join hroot u) (normalizeRepoName_ok hr).1⟩
  · have hparts := parts_authPath (u := u) hstate
    rw [append_assoc] at hparts
    refine ⟨hhome, isAbs_join (isAbs_join hhome _) _, ⟨_, hparts.symm⟩, ?_⟩
    rw [hparts]
    simp

theorem apart_of_plain (hroot : isAbs root = true) (hstate : isAbs stateDir = true)
    (hkey : isAbs keyDir = true) (hu : Plain u) (hv : Plain v) :
    Apart root stateDir keyDir u v := by
  have hhome : u ≠ v → homeDir stateDir u ≠ homeDir stateDir v := fun hne h =>
    hne (join_plain_inj (ne_nil_of_isAbs (isAbs_join hstate _)) hu hv h)
  refine ⟨?_, hhome, ?_, fun hne h => hne (join_plain_inj (ne_nil_of_isAbs hkey) hu hv h)⟩
  · intro name name' p h h'
    obtain ⟨r, hr, hp⟩ := repoPath_inv hroot h
    obtain ⟨r', hr', hp'⟩ := repoPath_inv hroot h'
    -- Both the user and the repository can be read off the elements of the path.
    have hparts := congrArg parts (hp.symm.trans hp')
    rw [parts_join_plain (ne_nil_of_isAbs (isAbs_join hroot _)) (normalizeRepoName_ok hr).1,
      parts_join_plain (ne_nil_of_isAbs (isAbs_join hroot _)) (normalizeRepoName_ok hr').1,
      parts_join_plain (ne_nil_of_isAbs hroot) hu,
      parts_join_plain (ne_nil_of_isAbs hroot) hv] at hparts
    obtain ⟨hinit, hlast⟩ := append_inj' hparts rfl
    obtain ⟨-, huv⟩ := append_inj' hinit rfl
    obtain rfl : u = v := by simpa using huv
    obtain rfl : r = r' := by simpa using hlast
    exact ⟨rfl, hr.trans hr'.symm⟩
  · intro hne h
    have hparts := congrArg parts h
    rw [parts_authPath hstate, parts_authPath hstate] at hparts
    obtain ⟨hinit, -⟩ := append_inj' hparts rfl
    obtain ⟨hhd, -⟩ := append_inj' hinit rfl
    have hne' : homeRoot stateDir ≠ [] := ne_nil_of_isAbs (isAbs_join hstate _)
    exact hhome hne (eq_of_parts (clean_join_pair hne' u) (clean_join_pair hne' v)
      (by rw [homeDir, homeDir, isAbs_join_pair hne', isAbs_join_pair hne']) hhd)

/-- The id `.` is the common root itself. -/
theorem not_isolated_dot (hroot : isAbs root = true) : ¬Isolated root stateDir keyDir dot := by
  intro h
  exact h.userRoot.ne (parts_join_dot (ne_nil_of_isAbs hroot)).symm

/-- The id `..` is the directory above the common root. -/
theorem not_isolated_dotdot (hroot : isAbs root = true) :
    ¬Isolated root stateDir keyDir dotdot := by
  intro h
  have hbelow := h.userRoot.below
  have hne := h.userRoot.ne
  rw [parts_join_dotdot hroot] at hbelow hne
  exact hne (hbelow.eq_of_length_le (by simp))

/-- Every user is isolated from every other one exactly if none of them is called `.` or `..`. -/
theorem tenant_isolation (hroot : isAbs root = true) (hstate : isAbs stateDir = true)
    (hkey : isAbs keyDir = true) (hu : validateUserID u = true) (hv : validateUserID v = true) :
    (Isolated root stateDir keyDir u ∧ Isolated root stateDir keyDir v ∧
      Apart root stateDir keyDir u v) ↔
    (u ≠ dot ∧ u ≠ dotdot ∧ v ≠ dot ∧ v ≠ dotdot) := by
  constructor
  · rintro ⟨hiu, hiv, -⟩
    refine ⟨?_, ?_, ?_, ?_⟩
    · rintro rfl
      exact not_isolated_dot hroot hiu
    · rintro rfl
      exact not_isolated_dotdot hroot hiu
    · rintro rfl
      exact not_isolated_dot hroot hiv
    · rintro rfl
      exact not_isolated_dotdot hroot hiv
  · rintro ⟨hu1, hu2, hv1, hv2⟩
    have hpu := plain_userID hu hu1 hu2
    have hpv := plain_userID hv hv1 hv2
    exact ⟨isolated_of_plain hroot hstate hkey hu hpu, isolated_of_plain hroot hstate hkey hv hpv,
      apart_of_plain hroot hstate hkey hpu hpv⟩

theorem tenant_isolation_aliceAndBob :
    Isolated (lit "/repos") (lit "/state") (lit "/state/ssh/keys") (lit "alice") ∧
      Isolated (lit "/repos") (lit "/state") (lit "/state/ssh/keys") (lit "bob") ∧
      Apart (lit "/repos") (lit "/state") (lit "/state/ssh/keys") (lit "alice") (lit "bob") :=
  (tenant_isolation (by decide) (by decide) (by decide) (by decide) (by decide)).mpr
    ⟨by decide, by decide, by decide, by decide⟩

/-- The user `..` is accepted, and its repositories lie outside the root of all repositories;
for `.` they are the root directories of the other users. -/
theorem dotdot_leaves_root :
    validateUserID (lit "..") = true ∧
      repoPath (lit "/srv/repos") (lit "..") (lit "app") = .ok (lit "/srv/app") ∧
      ¬StrictlyInside (lit "/srv/repos") (join [lit "/srv/repos", lit ".."]) ∧
      validateUserID (lit ".") = true ∧
      repoPath (lit "/srv/repos") (lit ".") (lit "bob") =
        .ok (join [lit "/srv/repos", lit "bob"]) := by
  refine ⟨by decide, by decide, ?_, by decide, by decide⟩
  intro h
  exact absurd h.below (by decide)

end Centaurx
