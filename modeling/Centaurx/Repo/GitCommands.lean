import Centaurx.Repo.GitURL

namespace Centaurx
open Go FilePath List

structure RunCommandRequest where
  workingDir : GoString
  command : GoString
  useShell : Bool
  sshAuthSock : GoString
  deriving DecidableEq

/-- The argument vector that the runner executes. -/
def commandForRequest (req : RunCommandRequest) : Except GoString (List GoString) :=
  if req.useShell then .ok [lit "sh", lit "-lc", req.command]
  else
    let parts := fields req.command
    if parts = [] then .error (lit "command is empty") else .ok parts

def coreRunCommand (workingDir sshAuthSock cmd : GoString) (useShell : Bool) :
    RunCommandRequest := ⟨workingDir, cmd, useShell, sshAuthSock⟩

def mapRepoPath (hostRoot runnerRoot hostPath : GoString) : Except PathError GoString :=
  if blank runnerRoot ∨ runnerRoot = hostRoot then .ok hostPath
  else
    match rel hostRoot hostPath with
    | none => .error (.message
        (lit "Rel: can't make " ++ hostPath ++ lit " relative to " ++ hostRoot))
    | some r =>
      if r = dot then .ok runnerRoot
      else if dotdot.isPrefixOf r then .error (.schema .invalidRepo)
      else .ok (join [runnerRoot, r])

structure RunnerInfo where
  repoRoot : GoString
  sshAuthSock : GoString

inductive FileStat
  | directory | file | missing
  | failed (err : GoString)

/-- What the file system and the runner answer in the course of one request. -/
structure Answers where
  mkdirAll : Option GoString
  /-- The repository, when it is looked up, and whether it has a git directory. -/
  resolve : FileStat
  hasGitDir : Bool
  /-- Its path, when it is about to be created. -/
  stat : FileStat
  runnerFor : Except GoString RunnerInfo
  /-- The error of a command. -/
  run : RunCommandRequest → Option GoString

inductive ResolverError
  | schema (err : SchemaError)
  | url (err : GitURLError)
  | path (err : PathError)
  | repoExists | repoNotFound
  | host (err : GoString)
  deriving DecidableEq

structure RepoRef where
  name : RepoName
  path : GoString
  deriving DecidableEq

/-- A resolver has a root. -/
structure RunnerRepoResolver where
  root : GoString
  root_not_blank : blank root = false

namespace RunnerRepoResolver
variable (res : RunnerRepoResolver) (ans : Answers)

/-- The root of the repository manager of a user. -/
def manager (userID : UserID) : Except ResolverError GoString :=
  let path := join [res.root, userID]
  if blank path then .error (.schema .invalidRepo)
  else
    match ans.mkdirAll with
    | some err => .error (.host err)
    | none => .ok path

/-- The user's root and the repository as the runner sees them. -/
def mapRepoPath (root path runnerRoot : GoString) : Except PathError (GoString × GoString) :=
  if runnerRoot ≠ [] then do
    let mappedRoot ← Centaurx.mapRepoPath res.root runnerRoot root
    let mappedPath ← Centaurx.mapRepoPath res.root runnerRoot path
    pure (mappedRoot, mappedPath)
  else pure (root, path)

/-- Where a new repository goes. -/
structure Place where
  path : GoString
  workingDir : GoString
  repoPath : GoString
  sshAuthSock : GoString

/-- What `CreateRepo` and `OpenOrCloneURL` do before the first command. -/
def place (root : GoString) (repoName : RepoName) : Except ResolverError Place :=
  let path := join [root, repoName]
  match ans.stat with
  | .directory | .file => .error .repoExists
  | .failed err => .error (.host err)
  | .missing =>
    match ans.runnerFor with
    | .error err => .error (.host err)
    | .ok info =>
      match res.mapRepoPath root path info.repoRoot with
      | .error err => .error (.path err)
      | .ok (workingDir, repoPath) => .ok ⟨path, workingDir, repoPath, info.sshAuthSock⟩

/-- `ResolveRepo` of the manager. -/
def resolveRepo (root : GoString) (name : RepoName) : Except ResolverError RepoRef :=
  match normalizeRepoName name with
  | .error err => .error (.schema err)
  | .ok repoName =>
    match ans.resolve with
    | .missing | .file => .error .repoNotFound
    | .failed err => .error (.host err)
    | .directory =>
      if ans.hasGitDir then .ok ⟨repoName, join [root, repoName]⟩ else .error .repoNotFound

def initCommand (p : Place) : RunCommandRequest :=
  coreRunCommand p.workingDir p.sshAuthSock (lit "git init " ++ p.repoPath) false

def switchCommand (p : Place) : RunCommandRequest :=
  coreRunCommand p.workingDir p.sshAuthSock
    (lit "git -C " ++ p.repoPath ++ lit " switch -c centaurx") false

def checkoutCommand (p : Place) : RunCommandRequest :=
  coreRunCommand p.workingDir p.sshAuthSock
    (lit "git -C " ++ p.repoPath ++ lit " checkout -b centaurx") false

def cloneCommand (p : Place) (cloneURL : GoString) : RunCommandRequest :=
  coreRunCommand p.workingDir p.sshAuthSock
    (lit "git clone " ++ cloneURL ++ lit " " ++ p.repoPath) false

/-- `CreateRepo`, with the commands that it has the runner execute. -/
def createRepo (userID : UserID) (name : RepoName) :
    List RunCommandRequest × Except ResolverError RepoRef :=
  match res.manager ans userID with
  | .error err => ([], .error err)
  | .ok root =>
    match normalizeRepoName name with
    | .error err => ([], .error (.schema err))
    | .ok repoName =>
      match res.place ans root repoName with
      | .error err => ([], .error err)
      | .ok p =>
        match ans.run (initCommand p) with
        | some err => ([initCommand p], .error (.host err))
        | none =>
          match ans.run (switchCommand p) with
          | none => ([initCommand p, switchCommand p], .ok ⟨repoName, p.path⟩)
          | some _ =>
            let commands := [initCommand p, switchCommand p, checkoutCommand p]
            match ans.run (checkoutCommand p) with
            | some err => (commands, .error (.host err))
            | none => (commands, .ok ⟨repoName, p.path⟩)

/-- `OpenOrCloneURL`, with its commands; the result says whether the repository is new. -/
def openOrCloneURL (uni : Unicode) (isIPv6 : GoString → Bool) (userID : UserID) (url : GoString) :
    List RunCommandRequest × Except ResolverError (RepoRef × Bool) :=
  match res.manager ans userID with
  | .error err => ([], .error err)
  | .ok root =>
    match normalizeGitURL uni isIPv6 url with
    | .error err => ([], .error (.url err))
    | .ok (cloneURL, repoName) =>
      match resolveRepo ans root repoName with
      | .ok repoRef => ([], .ok (repoRef, false))
      | .error .repoNotFound =>
        match res.place ans root repoName with
        | .error err => ([], .error err)
        | .ok p =>
          match ans.run (cloneCommand p cloneURL) with
          | some err => ([cloneCommand p cloneURL], .error (.host err))
          | none => ([cloneCommand p cloneURL], .ok (⟨repoName, p.path⟩, true))
      | .error err => ([], .error err)

variable {res ans} {root : GoString} {userID : UserID} {name repoName : RepoName} {p : Place}

theorem manager_ok (h : res.manager ans userID = .ok root) : root ≠ [] := by
  simp only [manager] at h
  split_ifs at h with hb
  split at h
  · exact absurd h (by simp)
  · obtain rfl := Except.ok.inj h
    intro h0
    exact hb (by rw [h0]; decide)

theorem mapRepoPath_join {hostRoot runnerRoot root' path' : GoString} (hroot : root ≠ [])
    (he : Plain repoName) (h1 : Centaurx.mapRepoPath hostRoot runnerRoot root = .ok root')
    (h2 : Centaurx.mapRepoPath hostRoot runnerRoot (join [root, repoName]) = .ok path') :
    root' ≠ [] ∧ path' = join [root', repoName] := by
  rw [Centaurx.mapRepoPath] at h1 h2
  split_ifs at h1 h2 with hb
  · obtain rfl := Except.ok.inj h1
    exact ⟨hroot, (Except.ok.inj h2).symm⟩
  have hrunner : runnerRoot ≠ [] := by
    rintro rfl
    exact hb (.inl (by decide))
  split at h1
  · exact absurd h1 (by simp)
  rename_i r hr
  have hup : dotdot.isPrefixOf r = false ∧
      root' = if r = dot then runnerRoot else join [runnerRoot, r] := by
    split_ifs at h1 with hdot hup
    · subst hdot
      exact ⟨by decide, by rw [if_pos rfl]; exact (Except.ok.inj h1).symm⟩
    · exact ⟨Bool.eq_false_iff.mpr hup, by rw [if_neg hdot]; exact (Except.ok.inj h1).symm⟩
  obtain ⟨hup, hroot'⟩ := hup
  obtain ⟨habs, ts, hparts, hrel⟩ := rel_below hr hup
  -- From the host root, the repository is one element further than the user's root.
  have hpath : rel hostRoot (join [root, repoName]) =
      some ([sep].intercalate (ts ++ [repoName])) := by
    refine rel_of_append (by rw [isAbs_join_pair hroot, habs]) (by simp) ?_
    rw [parts_join_plain hroot he, hparts, append_assoc]
  have hdots : ∀ e ∈ ts ++ [repoName], e ≠ dot := by
    rw [forall_mem_append]
    refine ⟨fun e he => (parts_normal root).ne_dot e (by simp [hparts, he]), ?_⟩
    simpa using he.ne_dot
  rw [hpath] at h2
  simp only [if_neg (intercalate_ne_dot (by simp) hdots)] at h2
  split_ifs at h2
  obtain rfl := Except.ok.inj h2
  by_cases hts : ts = []
  · subst hts
    rw [if_pos rfl] at hrel
    rw [hroot', if_pos hrel]
    exact ⟨hrunner, by simp⟩
  · have hne : r ≠ dot := by
      rw [hrel, if_neg hts]
      exact intercalate_ne_dot hts fun e he => hdots e (by simp [he])
    rw [hroot', if_neg hne, hrel, if_neg hts]
    exact ⟨join_ne_nil hrunner _, join_intercalate hrunner hts _⟩

theorem place_ok (hroot : root ≠ []) (he : Plain repoName)
    (h : res.place ans root repoName = .ok p) :
    p.workingDir ≠ [] ∧ p.repoPath = join [p.workingDir, repoName] := by
  simp only [place] at h
  split at h
  · exact absurd h (by simp)
  · exact absurd h (by simp)
  · exact absurd h (by simp)
  split at h
  · exact absurd h (by simp)
  split at h
  · exact absurd h (by simp)
  rename_i info _ workingDir repoPath hmap
  obtain rfl := Except.ok.inj h
  rw [mapRepoPath] at hmap
  split_ifs at hmap with hr
  · simp only [bind, Except.bind] at hmap
    split at hmap
    · exact absurd hmap (by simp)
    rename_i root' h1
    split at hmap
    · exact absurd hmap (by simp)
    rename_i path' h2
    obtain ⟨rfl, rfl⟩ := Prod.mk.inj (Except.ok.inj hmap)
    exact mapRepoPath_join hroot he h1 h2
  · obtain ⟨rfl, rfl⟩ := Prod.mk.inj (Except.ok.inj hmap)
    exact ⟨hroot, rfl⟩

theorem spaceFree_render {rooted : Bool} {es : List GoString} :
    spaceFree (render rooted es) = true ↔ ∀ e ∈ es, spaceFree e = true := by
  rw [render]
  split_ifs with h1 h2
  · rw [spaceFree_ascii_cons (by decide),
      ← spaceFree_intercalate (b := sep) (by decide) (by decide)]
    simp [sep, isSpace]
  · subst h2
    simp
    decide
  · exact spaceFree_intercalate (by decide) (by decide) es

theorem spaceFree_parts {dir : GoString} (h : spaceFree dir = true) :
    ∀ e ∈ parts dir, spaceFree e = true := by
  intro e he
  have hjoin : [sep].intercalate (dir.splitOn sep) = dir := intercalate_splitOn sep
  rw [← hjoin, spaceFree_intercalate (by decide) (by decide)] at h
  exact h e (mem_parts he)

theorem spaceFree_join {dir : GoString} (hne : dir ≠ []) (he : Plain repoName)
    (h : spaceFree dir = true) : spaceFree (join [dir, repoName]) = spaceFree repoName := by
  have hdir := spaceFree_parts h
  rw [join_plain hne he, Bool.eq_iff_iff, spaceFree_render, forall_mem_append]
  exact ⟨fun h => h.2 repoName (by simp), fun h => ⟨hdir, by simpa using h⟩⟩

theorem spaceFree_iff_fields {s : GoString} (hs : s ≠ []) :
    spaceFree s = true ↔ [s] <+: fields s := by
  constructor
  · intro h
    exact ⟨[], by rw [append_nil, fields_of_spaceFree hs h]⟩
  · rintro ⟨t, ht⟩
    apply spaceFree_of_fields_length
    rw [← ht]
    simp

theorem commandForRequest_fields {req : RunCommandRequest} (hshell : req.useShell = false)
    (h : fields req.command ≠ []) : commandForRequest req = .ok (fields req.command) := by
  simp [commandForRequest, hshell, h]

theorem initCommand_argv (p : Place) :
    commandForRequest (initCommand p) = .ok ([lit "git", lit "init"] ++ fields p.repoPath) := by
  have hcmd : fields (initCommand p).command = [lit "git", lit "init"] ++ fields p.repoPath := by
    have hsplit : (initCommand p).command = lit "git init" ++ 0x20 :: p.repoPath := by
      rw [initCommand, coreRunCommand, show lit "git init " = lit "git init" ++ [0x20] by decide]
      simp
    rw [hsplit, fields_append_space]
    rfl
  rw [commandForRequest_fields rfl (by simp [hcmd]), hcmd]

theorem cloneCommand_argv (p : Place) (cloneURL : GoString) :
    commandForRequest (cloneCommand p cloneURL) =
      .ok ([lit "git", lit "clone"] ++ fields cloneURL ++ fields p.repoPath) := by
  have hcmd : fields (cloneCommand p cloneURL).command =
      [lit "git", lit "clone"] ++ fields cloneURL ++ fields p.repoPath := by
    have hsplit : (cloneCommand p cloneURL).command =
        lit "git clone" ++ 0x20 :: (cloneURL ++ 0x20 :: p.repoPath) := by
      rw [cloneCommand, coreRunCommand, show lit "git clone " = lit "git clone" ++ [0x20] by decide,
        show lit " " = [0x20] by decide]
      simp
    rw [hsplit, fields_append_space, fields_append_space, append_assoc]
    rfl
  rw [commandForRequest_fields rfl (by simp [hcmd]), hcmd]

theorem createRepo_head {cmd : RunCommandRequest} (hroot : res.manager ans userID = .ok root)
    (hname : normalizeRepoName name = .ok repoName) (hp : res.place ans root repoName = .ok p)
    (h : (res.createRepo ans userID name).1.head? = some cmd) : cmd = initCommand p := by
  rw [createRepo, hroot] at h
  simp only [hname, hp] at h
  split at h
  · simpa using h.symm
  split at h
  · simpa using h.symm
  split at h
  · simpa using h.symm
  · simpa using h.symm

theorem openOrCloneURL_mem {uni : Unicode} {isIPv6 : GoString → Bool} {url cloneURL : GoString}
    {cmd : RunCommandRequest} (hroot : res.manager ans userID = .ok root)
    (hurl : normalizeGitURL uni isIPv6 url = .ok (cloneURL, repoName))
    (hp : res.place ans root repoName = .ok p)
    (h : cmd ∈ (res.openOrCloneURL ans uni isIPv6 userID url).1) :
    cmd = cloneCommand p cloneURL := by
  rw [openOrCloneURL, hroot] at h
  simp only [hurl, hp] at h
  split at h
  · simp at h
  · split at h
    · simpa using h
    · simpa using h
  · simp at h

end RunnerRepoResolver

open RunnerRepoResolver

def startsWithDash (arg : GoString) : Bool := arg.head? = some 0x2D

/-- A path in `dir` begins as `dir` does, or as the name if that is the current directory. -/
def dashedIn (dir : GoString) (repoName : RepoName) : Bool :=
  startsWithDash (if clean dir = dot then repoName else clean dir)

/-- The first command creates a repository at the path, which is one argument. -/
def InitsPath (cmd : RunCommandRequest) (repoPath : GoString) : Prop :=
  (∃ argv, commandForRequest cmd = .ok argv ∧ [lit "git", lit "init", repoPath] <+: argv) ∧
    startsWithDash repoPath = false

/-- The command clones the URL to the path, and nothing else is among its arguments. -/
def ClonesURL (cmd : RunCommandRequest) (cloneURL repoPath : GoString) : Prop :=
  commandForRequest cmd = .ok [lit "git", lit "clone", cloneURL, repoPath] ∧
    startsWithDash cloneURL = false ∧ startsWithDash repoPath = false

theorem initsPath_iff {p : Place} (hne : p.repoPath ≠ []) :
    InitsPath (initCommand p) p.repoPath ↔
      spaceFree p.repoPath = true ∧ startsWithDash p.repoPath = false := by
  rw [InitsPath, initCommand_argv, spaceFree_iff_fields hne]
  simp

theorem clonesURL_iff {p : Place} {cloneURL : GoString} (hp : p.repoPath ≠ [])
    (hu : cloneURL ≠ []) :
    ClonesURL (cloneCommand p cloneURL) cloneURL p.repoPath ↔
      (spaceFree cloneURL = true ∧ spaceFree p.repoPath = true) ∧
        startsWithDash cloneURL = false ∧ startsWithDash p.repoPath = false := by
  have hargs : fields cloneURL ++ fields p.repoPath = [cloneURL, p.repoPath] ↔
      spaceFree cloneURL = true ∧ spaceFree p.repoPath = true := by
    constructor
    · intro h
      have hlen := congrArg (fun l : List GoString => l.flatten.length) h
      have h1 := fields_flatten_length_le cloneURL
      have h2 := fields_flatten_length_le p.repoPath
      simp only [flatten_append, length_append, flatten_cons, flatten_nil,
        length_nil, Nat.add_zero] at hlen
      exact ⟨spaceFree_of_fields_length (by omega), spaceFree_of_fields_length (by omega)⟩
    · rintro ⟨h1, h2⟩
      rw [fields_of_spaceFree hu h1, fields_of_spaceFree hp h2]
      rfl
  rw [ClonesURL, cloneCommand_argv, ← hargs]
  simp

variable {uni : Unicode} {isIPv6 : GoString → Bool} {res : RunnerRepoResolver} {ans : Answers}
  {userID : UserID} {root : GoString} {repoName : RepoName} {p : Place}

/-- In a user root without white space, git gets the arguments that were meant exactly if the
name is one word, the URL gives single words and the path does not begin with a dash. -/
theorem git_arguments (huni : uni.Lawful) (hroot : res.manager ans userID = .ok root)
    (hp : res.place ans root repoName = .ok p) (hfree : spaceFree p.workingDir = true) :
    (∀ name cmd, normalizeRepoName name = .ok repoName →
      (res.createRepo ans userID name).1.head? = some cmd →
      (InitsPath cmd p.repoPath ↔
        spaceFree repoName = true ∧ dashedIn p.workingDir repoName = false)) ∧
    (∀ url cloneURL cmd, normalizeGitURL uni isIPv6 url = .ok (cloneURL, repoName) →
      cmd ∈ (res.openOrCloneURL ans uni isIPv6 userID url).1 →
      (ClonesURL cmd cloneURL p.repoPath ↔
        singleWords uni isIPv6 url = true ∧ dashedIn p.workingDir repoName = false)) := by
  have hpath : ∀ h : Plain repoName, p.repoPath ≠ [] ∧
      spaceFree p.repoPath = spaceFree repoName ∧
      startsWithDash p.repoPath = dashedIn p.workingDir repoName := by
    intro h
    obtain ⟨hne, hjoin⟩ := place_ok (manager_ok hroot) h hp
    rw [hjoin]
    refine ⟨join_ne_nil hne _, spaceFree_join hne h hfree, ?_⟩
    rw [startsWithDash, head?_join_plain hne h, dashedIn, startsWithDash]
  constructor
  · intro name cmd hname hcmd
    obtain ⟨hne, hs, hd⟩ := hpath (normalizeRepoName_ok hname).1
    rw [createRepo_head hroot hname hp hcmd, initsPath_iff hne, hs, hd]
  · intro url cloneURL cmd hurl hcmd
    obtain ⟨hne, hs, hd⟩ := hpath (normalizeGitURL_plain hurl)
    rw [openOrCloneURL_mem hroot hurl hp hcmd,
      clonesURL_iff hne (normalizeGitURL_ne_nil huni hurl), hs,
      hd, ← singleWords_iff huni hurl]
    simp only [startsWithDash, decide_eq_false_iff_not]
    tauto

/-- A resolver of which every command succeeds, with a runner that mounts the repositories
elsewhere. -/
def reposResolver : RunnerRepoResolver := ⟨lit "/repos", by decide⟩

def freshAnswers : Answers :=
  ⟨none, .missing, false, .missing, .ok ⟨lit "/work", []⟩, fun _ => none⟩

def appPlace : Place := ⟨lit "/repos/alice/app", lit "/work/alice", lit "/work/alice/app", []⟩

theorem git_arguments_app :
    InitsPath (initCommand appPlace) (lit "/work/alice/app") ∧
      ClonesURL (cloneCommand appPlace (lit "git@example.com:me/app.git"))
        (lit "git@example.com:me/app.git") (lit "/work/alice/app") := by
  have h := @git_arguments Unicode.ascii (fun _ => false) reposResolver freshAnswers (lit "alice")
    (lit "/repos/alice") (lit "app") appPlace Unicode.ascii_lawful rfl rfl (by decide)
  exact ⟨(h.1 (lit "app") _ rfl rfl).mpr (by decide),
    (h.2 (lit "git@example.com:me/app") _ (cloneCommand appPlace (lit "git@example.com:me/app.git"))
      rfl (mem_singleton.mpr rfl)).mpr (by decide)⟩

/-- A word of a repository name becomes an option of `git init`. -/
theorem option_in_repoName :
    normalizeRepoName (lit "app --bare") = .ok (lit "app --bare") ∧
      (reposResolver.createRepo freshAnswers (lit "alice") (lit "app --bare")).1.head?.map
        commandForRequest =
          some (.ok [lit "git", lit "init", lit "/work/alice/app", lit "--bare"]) ∧
      (reposResolver.openOrCloneURL freshAnswers Unicode.ascii (fun _ => false) (lit "alice")
        (lit "-u@host:app")).1.map commandForRequest =
          [.ok [lit "git", lit "clone", lit "-u@host:app.git", lit "/work/alice/app"]] := by
  refine ⟨by decide, rfl, rfl⟩

end Centaurx
