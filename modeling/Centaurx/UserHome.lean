import Centaurx.Lib.GoString
import Centaurx.Lib.Runs
import Centaurx.Lib.Script

namespace Centaurx.UserHome
open Go Script List

abbrev Name := GoString
/-- The names from the home down; the home itself is the empty path. -/
abbrev Path := List Name

inductive Node
  | dir
  | file (content : GoString)
  deriving DecidableEq

/-- What is at each path of the home. -/
abbrev Home := Path → Option Node

/-- The entries of a directory of the skel tree, in the order of the walk. -/
inductive Forest
  | nil
  | dir (name : Name) (children rest : Forest)
  | file (name : Name) (content : GoString) (rest : Forest)
  /-- A symbolic link, socket or the like. -/
  | other (name : Name) (rest : Forest)

inductive Op
  | ensureRoot | statHome | mkdirHome | statSkel
  | readDir (path : Path) | mkdirAll (path : Path) | info (path : Path) | readFile (path : Path)
  | render (path : Path) | openSource (path : Path) | mkdirParent (path : Path)
  | write (path : Path)
  | mkdirCodex | renderConfig | writeConfig | mkdirConan | statConan | mkdirSsh | writeKnownHosts
  deriving DecidableEq

/-- How an operation fails: how far it has got, if it has changed anything. -/
abbrev Damage := Option ℕ

def put (home : Home) (path : Path) (node : Node) : Home :=
  fun q => if q = path then some node else home q

/-- The directories of a path that are missing, down to a depth. -/
def mkdirTo (depth : ℕ) (path : Path) (home : Home) : Home :=
  fun q => if q <+: path ∧ q.length < depth ∧ home q = none then some .dir else home q

def isFile : Option Node → Bool
  | some (.file _) => true
  | _ => false

/-- `os.MkdirAll`, which fails if a file is in the way. -/
def mkdirAll (op : Op) (path : Path) : Step Op Damage Home where
  op := op
  act home :=
    if path.inits.any (fun q => isFile (home q)) then none
    else some (mkdirTo (path.length + 1) path home)
  fail damage home := match damage with
    | none => home
    | some n => mkdirTo n path home

/-- A path that names a directory whatever the tree is. -/
def namesDir (path : Path) : Bool := path.getLast?.all fun name => name ∈ [[], lit ".", lit ".."]

/-- Opening with truncation, writing and closing. -/
def writeFile (op : Op) (path : Path) (content : GoString) : Step Op Damage Home where
  op := op
  act home :=
    if namesDir path ∨ home path = some .dir ∨ home path.dropLast ≠ some .dir then none
    else some (put home path (.file content))
  fail damage home := match damage with
    | none => home
    | some n => put home path (.file (content.take n))

/-- A file is written if there is nothing at its path. -/
def writeMissing (op : Op) (path : Path) (content : GoString) : Step Op Damage Home where
  op := op
  act home := if home path ≠ none then some home else (writeFile op path content).act home
  fail damage home :=
    if home path ≠ none then home else (writeFile op path content).fail damage home

def skipped (name : Name) : Bool := name ∈ [lit ".gitkeep", lit ".keep", lit "placeholder.txt"]

def isTemplate (name : Name) : Bool := (lit ".tmpl").isSuffixOf name

/-- The name of the file that a template is rendered to. -/
def trimTemplate (name : Name) : Name := name.take (name.length - 5)

section Copy
/- What a template is rendered to; `none` if it cannot be parsed or executed. -/
variable (render : Path → GoString → Option GoString)

/-- The path of a skel file in the home, and its content there. -/
def seeded (dir : Path) (name : Name) (content : GoString) : Path × GoString :=
  if isTemplate name then
    (dir ++ [trimTemplate name], (render (dir ++ [name]) content).getD [])
  else (dir ++ [name], content)

def copyFile (dir : Path) (name : Name) (content : GoString) : List (Step Op Damage Home) :=
  let source := dir ++ [name]
  (if isTemplate name then
    [.check (.readFile source),
      ⟨.render source, fun home => (render source content).map fun _ => home, fun _ => id⟩]
  else [.check (.openSource source)]) ++
    [mkdirAll (.mkdirParent source) dir,
      writeFile (.write source) (seeded render dir name content).1
        (seeded render dir name content).2]

/-- The walk over the entries of a directory. -/
def copyEntries (dir : Path) : Forest → List (Step Op Damage Home)
  | .nil => []
  | .dir name children rest =>
    (if skipped name then []
    else
      mkdirAll (.mkdirAll (dir ++ [name])) (dir ++ [name]) :: .check (.readDir (dir ++ [name])) ::
        copyEntries (dir ++ [name]) children) ++ copyEntries dir rest
  | .file name content rest =>
    (if skipped name then []
    else .check (.info (dir ++ [name])) :: copyFile render dir name content) ++
      copyEntries dir rest
  | .other name rest =>
    (if skipped name then [] else [.check (.info (dir ++ [name]))]) ++ copyEntries dir rest

/-- `none` stands for a skel path that is blank, missing or not a directory. -/
def copySkel (skel : Option Forest) : List (Step Op Damage Home) :=
  .check .statSkel :: match skel with
    | none => []
    | some forest => .check (.readDir []) :: copyEntries render [] forest

/-- The regular files of the skel tree that are not skipped, as they are in a home. -/
def seeds (dir : Path) : Forest → List (Path × GoString)
  | .nil => []
  | .dir name children rest =>
    (if skipped name then [] else seeds (dir ++ [name]) children) ++ seeds dir rest
  | .file name content rest =>
    (if skipped name then [] else [seeded render dir name content]) ++ seeds dir rest
  | .other _ rest => seeds dir rest

def skelSeeds (skel : Option Forest) : List (Path × GoString) :=
  match skel with
  | none => []
  | some forest => seeds render [] forest

inductive EnsureError
  | usernameRequired
  | operation (op : Op)
  deriving DecidableEq

/-- The operations that follow when the home is there. `config` is the rendered default
configuration of codex. -/
def ensureRest (config : GoString) : List (Step Op Damage Home) :=
  [mkdirAll .mkdirCodex [lit ".codex"], .check .renderConfig,
    writeMissing .writeConfig [lit ".codex", lit "config.toml"] config,
    mkdirAll .mkdirConan [lit ".conan2"], .check .statConan,
    mkdirAll .mkdirSsh [lit ".ssh"],
    writeMissing .writeKnownHosts [lit ".ssh", lit "known_hosts"] []]

/-- The operations that create a home: a failure leaves no directory. -/
def mkdirHome : Step Op Damage Home where
  op := .mkdirHome
  act := (mkdirAll .mkdirHome []).act
  fail _ := id

def ensureHome (username : GoString) (skel : Option Forest) (config : GoString)
    (fails : Op → Option Damage) (home : Home) : Option EnsureError × Home :=
  if blank username then (some .usernameRequired, home)
  else
    -- only the call that makes the directory copies
    let create := if home [] = some .dir then [] else mkdirHome :: copySkel render skel
    let (failed, home) :=
      run fails ([.check .ensureRoot, .check .statHome] ++ create ++ ensureRest config) home
    (failed.map .operation, home)

end Copy

section Keeps
variable {home home' : Home} {path : Path} {content : GoString} {op : Op}

theorem mkdirAll_act_eq (h : (mkdirAll op path).act home = some home') :
    home' = mkdirTo (path.length + 1) path home := by
  simp only [mkdirAll] at h
  split at h
  · cases h
  · exact (Option.some.inj h).symm

theorem writeFile_act_eq {text : GoString} (h : (writeFile op path text).act home = some home') :
    home path ≠ some .dir ∧ home' = put home path (.file text) := by
  simp only [writeFile] at h
  split at h
  · cases h
  · rename_i hcond
    exact ⟨fun hdir => hcond (.inr (.inl hdir)), (Option.some.inj h).symm⟩

/-- What is there stays as it is. -/
def Grows (home home' : Home) : Prop := ∀ q node, home q = some node → home' q = some node

theorem Grows.refl (home : Home) : Grows home home := fun _ _ h => h

/-- Directories that are made replace nothing. -/
theorem mkdirTo_grows (depth : ℕ) (path : Path) (home : Home) :
    Grows home (mkdirTo depth path home) := by
  intro q node h
  simp [mkdirTo, h]

theorem put_grows (hpath : home path = none) (node : Node) : Grows home (put home path node) := by
  intro q node' h
  have hne : q ≠ path := by
    rintro rfl
    rw [hpath] at h
    cases h
  rwa [put, if_neg hne]

theorem mkdirAll_act_grows (h : (mkdirAll op path).act home = some home') : Grows home home' := by
  rw [mkdirAll_act_eq h]
  exact mkdirTo_grows _ _ _

theorem mkdirAll_fail_grows (op : Op) (path : Path) (damage : Damage) (home : Home) :
    Grows home ((mkdirAll op path).fail damage home) := by
  cases damage with
  | none => exact .refl home
  | some n => exact mkdirTo_grows _ _ _

theorem writeMissing_act_grows {text : GoString}
    (h : (writeMissing op path text).act home = some home') : Grows home home' := by
  simp only [writeMissing] at h
  split_ifs at h with hpath
  · rw [← Option.some.inj h]
    exact .refl home
  · rw [(writeFile_act_eq h).2]
    exact put_grows (not_not.mp hpath) _

theorem writeMissing_fail_grows (op : Op) (path : Path) (text : GoString) (damage : Damage)
    (home : Home) : Grows home ((writeMissing op path text).fail damage home) := by
  simp only [writeMissing]
  split_ifs with hpath
  · exact .refl home
  · cases damage with
    | none => exact .refl home
    | some n => exact put_grows (not_not.mp hpath) _

/-- The home is there, and it has a file with its content. -/
def Has (q : Path) (content : GoString) (home : Home) : Prop :=
  home q = some (.file content)

theorem writeFile_act_has {text : GoString} {q : Path} (hne : q ≠ path) (hq : Has q content home)
    (h : (writeFile op path text).act home = some home') : Has q content home' := by
  rw [(writeFile_act_eq h).2, Has, put, if_neg hne]
  exact hq

end Keeps

section CopyFacts
variable {render : Path → GoString → Option GoString} {fails : Op → Option Damage}

/-- What the operations of a copy are: they change nothing, or make directories, or write one of
the targets. -/
inductive CopyStep (targets : List (Path × GoString)) : Step Op Damage Home → Prop
  | quiet {step : Step Op Damage Home}
      (h : ∀ home home', step.act home = some home' → home' = home) : CopyStep targets step
  | mkdir (op : Op) (path : Path) : CopyStep targets (mkdirAll op path)
  | write (op : Op) {target : Path × GoString} (h : target ∈ targets) :
      CopyStep targets (writeFile op target.1 target.2)

variable {targets : List (Path × GoString)}

theorem CopyStep.check (op : Op) : CopyStep targets (Step.check op) :=
  .quiet fun _ _ h => (Option.some.inj h).symm

variable {step : Step Op Damage Home}

theorem CopyStep.mono {targets' : List (Path × GoString)} (hsub : targets ⊆ targets')
    (h : CopyStep targets step) : CopyStep targets' step := by
  cases h with
  | quiet h => exact .quiet h
  | mkdir op path => exact .mkdir op path
  | write op h => exact .write op (hsub h)

variable {content : GoString}

theorem copyStep_of_mem_copyFile {dir : Path} {name : Name}
    (hstep : step ∈ copyFile render dir name content) :
    CopyStep [seeded render dir name content] step := by
  simp only [copyFile, mem_append, mem_cons, not_mem_nil, or_false] at hstep
  rcases hstep with hstep | rfl | rfl
  · split_ifs at hstep
    · rcases mem_cons.mp hstep with rfl | hstep
      · exact .check _
      · rw [mem_singleton.mp hstep]
        refine .quiet fun home home' h => ?_
        obtain ⟨_, -, rfl⟩ := Option.map_eq_some_iff.mp h
        rfl
    · rw [mem_singleton.mp hstep]
      exact .check _
  · exact .mkdir _ _
  · exact .write _ (mem_singleton_self _)

theorem copyStep_of_mem {forest : Forest} {dir : Path}
    (hstep : step ∈ copyEntries render dir forest) : CopyStep (seeds render dir forest) step := by
  induction forest generalizing dir with
  | nil => cases hstep
  | dir name children rest ihc ihr =>
    simp only [copyEntries, mem_append] at hstep
    rw [seeds]
    rcases hstep with hstep | hstep
    · split_ifs at hstep with hskip
      · cases hstep
      · rw [if_neg hskip]
        rcases mem_cons.mp hstep with rfl | hstep
        · exact .mkdir _ _
        · rcases mem_cons.mp hstep with rfl | hstep
          · exact .check _
          · exact (ihc hstep).mono (subset_append_left _ _)
    · exact (ihr hstep).mono (subset_append_right _ _)
  | file name content rest ih =>
    simp only [copyEntries, mem_append] at hstep
    rw [seeds]
    rcases hstep with hstep | hstep
    · split_ifs at hstep with hskip
      · cases hstep
      · rw [if_neg hskip]
        rcases mem_cons.mp hstep with rfl | hstep
        · exact .check _
        · exact (copyStep_of_mem_copyFile hstep).mono (subset_append_left _ _)
    · exact (ih hstep).mono (subset_append_right _ _)
  | other name rest ih =>
    simp only [copyEntries, mem_append] at hstep
    rcases hstep with hstep | hstep
    · split_ifs at hstep
      · cases hstep
      · rw [mem_singleton.mp hstep]
        exact .check _
    · exact ih hstep

theorem CopyStep.has (hstep : CopyStep targets step) {q : Path} (hq : q ∉ targets.map Prod.fst)
    (home home' : Home) (hhas : Has q content home) (hact : step.act home = some home') :
    Has q content home' := by
  cases hstep with
  | quiet h => exact h _ _ hact ▸ hhas
  | mkdir op path => exact mkdirAll_act_grows hact _ _ hhas
  | write op h =>
    refine writeFile_act_has (fun heq => hq ?_) hhas hact
    rw [heq]
    exact mem_map_of_mem h

theorem CopyStep.root (hstep : CopyStep targets step) (home home' : Home)
    (hroot : home [] = some .dir) (hact : step.act home = some home') : home' [] = some .dir := by
  cases hstep with
  | quiet h => exact h _ _ hact ▸ hroot
  | mkdir op path => exact mkdirAll_act_grows hact _ _ hroot
  | @write op target h =>
    obtain ⟨hne, rfl⟩ := writeFile_act_eq hact
    have htarget : [] ≠ target.1 := fun heq => hne (heq ▸ hroot)
    rw [put, if_neg htarget]
    exact hroot

variable {home : Home}

theorem copyFile_seeds {dir : Path} {name : Name}
    (h : (run fails (copyFile render dir name content) home).1 = none) :
    Has (seeded render dir name content).1 (seeded render dir name content).2
      (run fails (copyFile render dir name content) home).2 := by
  rw [copyFile] at h ⊢
  obtain ⟨-, h2, hrun⟩ := run_append_eq_none h
  rw [hrun]
  obtain ⟨-, home1, -, hrun1⟩ := act_of_run_cons h2
  rw [hrun1] at h2 ⊢
  obtain ⟨-, home2, hact, hrun2⟩ := act_of_run_cons h2
  rw [hrun2, (writeFile_act_eq hact).2]
  simp [run, Has, put]

/-- What an entry has made is kept by the rest of the walk. -/
theorem run_entry_seeds {entry : List (Step Op Damage Home)} {dir : Path} {rest : Forest}
    (hnodup : ((targets ++ seeds render dir rest).map Prod.fst).Nodup)
    (hentry : (run fails entry home).1 = none →
      ∀ seed ∈ targets, Has seed.1 seed.2 (run fails entry home).2)
    (hrest : ∀ home, (run fails (copyEntries render dir rest) home).1 = none →
      ∀ seed ∈ seeds render dir rest,
        Has seed.1 seed.2 (run fails (copyEntries render dir rest) home).2)
    (h : (run fails (entry ++ copyEntries render dir rest) home).1 = none) :
    ∀ seed ∈ targets ++ seeds render dir rest,
      Has seed.1 seed.2 (run fails (entry ++ copyEntries render dir rest) home).2 := by
  rw [map_append, nodup_append] at hnodup
  obtain ⟨h1, h2, hrun⟩ := run_append_eq_none h
  intro seed hseed
  rw [hrun]
  rcases mem_append.mp hseed with hseed | hseed
  · have hout : seed.1 ∉ (seeds render dir rest).map Prod.fst := fun hmem =>
      hnodup.2.2 _ (mem_map_of_mem hseed) _ hmem rfl
    exact run_keeps (fun step hstep => (copyStep_of_mem hstep).has hout) (hentry h1 seed hseed) h2
  · exact hrest _ h2 seed hseed

/-- A copy that succeeds has made all files, if no two have the same path. -/
theorem copyEntries_seeds (forest : Forest) (dir : Path)
    (hnodup : ((seeds render dir forest).map Prod.fst).Nodup)
    (h : (run fails (copyEntries render dir forest) home).1 = none) :
    ∀ seed ∈ seeds render dir forest,
      Has seed.1 seed.2 (run fails (copyEntries render dir forest) home).2 := by
  -- Along the walk; the rest of a directory does not write the files of an entry again.
  induction forest generalizing dir home with
  | nil => simp [seeds]
  | dir name children rest ihc ihr =>
    rw [copyEntries] at h ⊢
    rw [seeds] at hnodup ⊢
    have hparts := hnodup
    rw [map_append, nodup_append] at hparts
    refine run_entry_seeds hnodup (fun h1 => ?_) (fun _ => ihr _ hparts.2.1) h
    have hchildren := hparts.1
    split_ifs at h1 hchildren ⊢ with hskip
    · simp
    · obtain ⟨-, home1, -, hrun1⟩ := act_of_run_cons h1
      rw [hrun1] at h1 ⊢
      obtain ⟨-, home2, -, hrun2⟩ := act_of_run_cons h1
      rw [hrun2] at h1 ⊢
      exact ihc _ hchildren h1
  | file name content rest ih =>
    rw [copyEntries] at h ⊢
    rw [seeds] at hnodup ⊢
    have hparts := hnodup
    rw [map_append, nodup_append] at hparts
    refine run_entry_seeds hnodup (fun h1 => ?_) (fun _ => ih _ hparts.2.1) h
    split_ifs at h1 ⊢ with hskip
    · simp
    · intro seed hseed
      obtain ⟨-, home1, -, hrun1⟩ := act_of_run_cons h1
      rw [hrun1] at h1 ⊢
      rw [mem_singleton.mp hseed]
      exact copyFile_seeds h1
  | other name rest ih =>
    rw [copyEntries] at h ⊢
    obtain ⟨-, h2, hrun⟩ := run_append_eq_none h
    rw [hrun]
    exact ih _ hnodup h2

/-- The home is there with every file of the skel tree. -/
def Complete (render : Path → GoString → Option GoString) (skel : Option Forest) (home : Home) :
    Prop :=
  home [] = some .dir ∧ ∀ seed ∈ skelSeeds render skel, Has seed.1 seed.2 home

/-- No two files of the skel tree have the same path in the home. -/
def DistinctTargets (render : Path → GoString → Option GoString) (skel : Option Forest) : Prop :=
  ((skelSeeds render skel).map Prod.fst).Nodup

instance (render : Path → GoString → Option GoString) (skel : Option Forest) :
    Decidable (DistinctTargets render skel) :=
  inferInstanceAs (Decidable (List.Nodup _))

theorem copySkel_complete {skel : Option Forest} (hdistinct : DistinctTargets render skel)
    (hroot : home [] = some .dir) (h : (run fails (copySkel render skel) home).1 = none) :
    Complete render skel (run fails (copySkel render skel) home).2 := by
  rw [copySkel.eq_def] at h ⊢
  obtain ⟨-, home1, hact1, hrun1⟩ := act_of_run_cons h
  rw [hrun1] at h ⊢
  obtain rfl : home1 = home := (Option.some.inj hact1).symm
  cases skel with
  | none => exact ⟨hroot, by simp [skelSeeds]⟩
  | some forest =>
    obtain ⟨-, home2, hact2, hrun2⟩ := act_of_run_cons h
    simp only [hrun2] at h ⊢
    obtain rfl : home2 = home1 := (Option.some.inj hact2).symm
    exact ⟨run_keeps (fun step hstep => (copyStep_of_mem hstep).root) hroot h,
      copyEntries_seeds forest [] hdistinct h⟩

end CopyFacts

section Calls
variable {render : Path → GoString → Option GoString} {skel : Option Forest}

theorem Complete.grow {home home' : Home} (h : Complete render skel home)
    (hgrows : Grows home home') : Complete render skel home' :=
  ⟨hgrows _ _ h.1, fun seed hseed => hgrows _ _ (h.2 seed hseed)⟩

/-- What follows on the copy keeps a complete home, whatever fails. -/
theorem run_ensureRest_complete {fails : Op → Option Damage} {config : GoString} {home : Home}
    (h : Complete render skel home) :
    Complete render skel (run fails (ensureRest config) home).2 := by
  have hcheck : ∀ (op : Op) (home home' : Home), Complete render skel home →
      (Step.check op : Step Op Damage Home).act home = some home' → Complete render skel home' :=
    fun _ _ _ hc hact => Option.some.inj hact ▸ hc
  have hmkdir : ∀ (op : Op) (path : Path) (home home' : Home), Complete render skel home →
      (mkdirAll op path).act home = some home' → Complete render skel home' :=
    fun _ _ _ _ hc hact => hc.grow (mkdirAll_act_grows hact)
  have hwrite : ∀ (op : Op) (path : Path) (text : GoString) (home home' : Home),
      Complete render skel home → (writeMissing op path text).act home = some home' →
        Complete render skel home' :=
    fun _ _ _ _ _ hc hact => hc.grow (writeMissing_act_grows hact)
  refine run_invariant ?_ ?_ h
  · simp only [ensureRest, forall_mem_cons, not_mem_nil, false_imp_iff, implies_true,
      and_true]
    exact ⟨hmkdir _ _, hcheck _, hwrite _ _ _, hmkdir _ _, hcheck _, hmkdir _ _, hwrite _ _ _⟩
  · simp only [ensureRest, forall_mem_cons, not_mem_nil, false_imp_iff, implies_true,
      and_true]
    exact ⟨fun d _ hc => hc.grow (mkdirAll_fail_grows _ _ d _), fun _ _ hc => hc,
      fun d _ hc => hc.grow (writeMissing_fail_grows _ _ _ d _),
      fun d _ hc => hc.grow (mkdirAll_fail_grows _ _ d _), fun _ _ hc => hc,
      fun d _ hc => hc.grow (mkdirAll_fail_grows _ _ d _),
      fun d _ hc => hc.grow (writeMissing_fail_grows _ _ _ d _)⟩

/-- The operations that make the directory of a home. -/
def makeHome : List (Step Op Damage Home) := [.check .ensureRoot, .check .statHome, mkdirHome]

/-- A call that makes the directory of the home also completes the copy. -/
def CopyCompletes (render : Path → GoString → Option GoString) (skel : Option Forest)
    (home : Home) (fails : Op → Option Damage) : Prop :=
  home [] ≠ some .dir → (run fails makeHome home).1 = none →
    (run fails (copySkel render skel) (run fails makeHome home).2).1 = none

instance (render : Path → GoString → Option GoString) (skel : Option Forest) (home : Home)
    (fails : Op → Option Damage) : Decidable (CopyCompletes render skel home fails) :=
  inferInstanceAs (Decidable (_ → _ → _))

/-- A home that is not there. -/
def absent : Home := fun _ => none

theorem run_makeHome (fails : Op → Option Damage) :
    (∃ op, run fails makeHome absent = (some op, absent)) ∨
      ∃ home', run fails makeHome absent = (none, home') ∧ home' [] = some .dir := by
  rw [makeHome]
  cases h1 : fails .ensureRoot with
  | some d => exact .inl ⟨.ensureRoot, by simp [run, Step.check, h1]⟩
  | none =>
    cases h2 : fails .statHome with
    | some d => exact .inl ⟨.statHome, by simp [run, Step.check, h1, h2]⟩
    | none =>
      cases h3 : fails .mkdirHome with
      | some d => exact .inl ⟨.mkdirHome, by simp [run, Step.check, mkdirHome, h1, h2, h3]⟩
      | none =>
        refine .inr ⟨mkdirTo 1 [] absent, ?_, by simp [mkdirTo, absent]⟩
        simp [run, Step.check, mkdirHome, mkdirAll, h1, h2, h3, absent, isFile]

theorem ensureHome_absent (username config : GoString) (hdistinct : DistinctTargets render skel)
    {fails : Op → Option Damage} (hcopy : CopyCompletes render skel absent fails) :
    ((ensureHome render username skel config fails absent).1 ≠ none ∧
        (ensureHome render username skel config fails absent).2 = absent) ∨
      Complete render skel (ensureHome render username skel config fails absent).2 := by
  rw [ensureHome]
  by_cases hname : blank username = true
  · rw [if_pos hname]
    exact .inl ⟨by simp, rfl⟩
  · rw [if_neg hname]
    have hsteps : ([.check .ensureRoot, .check .statHome] ++
        (if absent [] = some .dir then [] else mkdirHome :: copySkel render skel) ++
          ensureRest config : List (Step Op Damage Home)) =
        makeHome ++ (copySkel render skel ++ ensureRest config) := rfl
    simp only [hsteps]
    rw [run_append]
    rcases run_makeHome fails with ⟨op, hrun⟩ | ⟨home', hrun, hroot⟩
    · rw [hrun]
      exact .inl ⟨by simp, rfl⟩
    · right
      have hdone := hcopy (by simp [absent]) (by rw [hrun])
      rw [hrun] at hdone
      have hcomplete := copySkel_complete hdistinct hroot hdone
      simp only [hrun, run_append]
      generalize run fails (copySkel render skel) home' = out at hdone hcomplete ⊢
      obtain ⟨failed, home''⟩ := out
      obtain rfl : failed = none := hdone
      exact run_ensureRest_complete hcomplete

theorem ensureHome_complete (username config : GoString) (fails : Op → Option Damage) {home : Home}
    (h : Complete render skel home) :
    Complete render skel (ensureHome render username skel config fails home).2 := by
  rw [ensureHome]
  by_cases hname : blank username = true
  · rw [if_pos hname]
    exact h
  · rw [if_neg hname]
    simp only [if_pos h.1, append_nil]
    rw [run_append, show [Step.check .ensureRoot, .check .statHome] =
      [Op.ensureRoot, .statHome].map (Step.check (φ := Damage) (σ := Home)) from rfl, run_checks]
    cases [Op.ensureRoot, .statHome].find? fun op => (fails op).isSome with
    | some op => exact h
    | none => exact run_ensureRest_complete h

/-- The home after calls, and whether one has returned success. -/
def call (render : Path → GoString → Option GoString) (username : GoString) (skel : Option Forest)
    (config : GoString) (st : Home × Bool) (fails : Op → Option Damage) : Home × Bool :=
  let (err, home) := ensureHome render username skel config fails st.1
  (home, st.2 || err.isNone)

theorem call_invariant {username config : GoString} (hdistinct : DistinctTargets render skel)
    (st : Home × Bool) (fails : Op → Option Damage)
    (h : st = (absent, false) ∨ Complete render skel st.1)
    (hcopy : CopyCompletes render skel st.1 fails) :
    call render username skel config st fails = (absent, false) ∨
      Complete render skel (call render username skel config st fails).1 := by
  rcases h with rfl | h
  · rcases ensureHome_absent username config hdistinct hcopy with ⟨herr, hhome⟩ | hcomplete
    · left
      have hnone : (ensureHome render username skel config fails absent).1.isNone = false := by
        simpa [Option.isSome_iff_ne_none] using herr
      simp [call, hnone, hhome]
    · exact .inr hcomplete
  · exact .inr (ensureHome_complete username config fails h)

/-- **Homes are fully seeded** once a call has returned success, if every call that makes the
directory of the home completes the copy, and no two files of the skel tree have one path. -/
theorem seeded_of_success (username config : GoString) (hdistinct : DistinctTargets render skel)
    (calls : List (Op → Option Damage))
    (hcalls : Runs.Meets (call render username skel config)
      (fun st fails => CopyCompletes render skel st.1 fails) (absent, false) calls)
    (hsuccess : (Runs.exec (call render username skel config) (absent, false) calls).2 = true) :
    ∀ seed ∈ skelSeeds render skel,
      (Runs.exec (call render username skel config) (absent, false) calls).1 seed.1 =
        some (.file seed.2) := by
  have hinv := hcalls.invariant
    (I := fun st => st = (absent, false) ∨ Complete render skel st.1)
    (fun st fails h hcopy => call_invariant hdistinct st fails h hcopy) (.inl rfl)
  rcases hinv with h | h
  · -- no directory has been made, so no call has returned success
    rw [h] at hsuccess
    cases hsuccess
  · exact h.2

end Calls

/-- The name that fails, without a trace. -/
def failing (op : Op) : Op → Option Damage := fun name => if name = op then some none else none

/-- Templates are copied as they are. -/
def plainRender (_ : Path) (content : GoString) : Option GoString := some content

/-- A directory with a template in it, and a file that only keeps a directory. -/
def sampleSkel : Option Forest :=
  some (.dir (lit "d") (.file (lit ".keep") [] (.file (lit "a.tmpl") (lit "x") .nil)) .nil)

/-- The first call cannot make the directory; the second succeeds. -/
theorem seeded_of_success_second :
    ([lit "d", lit "a"], lit "x") ∈ skelSeeds plainRender sampleSkel ∧
      (Runs.exec (call plainRender (lit "alice") sampleSkel []) (absent, false)
        [failing .mkdirHome, fun _ => none]).1 [lit "d", lit "a"] = some (.file (lit "x")) := by
  have hseed : ([lit "d", lit "a"], lit "x") ∈ skelSeeds plainRender sampleSkel := by decide
  exact ⟨hseed, seeded_of_success (lit "alice") [] (by decide)
    [failing .mkdirHome, fun _ => none] (by decide) (by decide) _ hseed⟩

/-- A file that cannot be written the first time is missing for good: the second call finds the
directory and returns success. And of `x` and `x.tmpl` only the second is seen. -/
theorem success_without_seeding :
    (Runs.exec (call plainRender (lit "alice") sampleSkel []) (absent, false)
        [failing (.write [lit "d", lit "a.tmpl"]), fun _ => none]).2 = true ∧
      ([lit "d", lit "a"], lit "x") ∈ skelSeeds plainRender sampleSkel ∧
      (Runs.exec (call plainRender (lit "alice") sampleSkel []) (absent, false)
        [failing (.write [lit "d", lit "a.tmpl"]), fun _ => none]).1 [lit "d", lit "a"] = none ∧
    (ensureHome plainRender (lit "alice")
        (some (.file (lit "x") (lit "1") (.file (lit "x.tmpl") (lit "2") .nil))) []
        (fun _ => none) absent).2 [lit "x"] = some (.file (lit "2")) := by decide

end Centaurx.UserHome
