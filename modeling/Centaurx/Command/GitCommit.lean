import Centaurx.Command.Parse
import Centaurx.Core.Tab
import Centaurx.Lib.ShellWords
import Centaurx.Output.Producers
import Centaurx.Repo.GitCommands

namespace Centaurx.Command
open Go List Shell

def shellQuote (value : GoString) : GoString :=
  if value = [] then lit "''"
  else lit "'" ++ (value.flatMap fun b => if b = 0x27 then lit "'\\'\\''" else [b]) ++ lit "'"

def addRequest (workingDir sshAuthSock : GoString) : RunCommandRequest :=
  ⟨workingDir, lit "git add -A", false, sshAuthSock⟩

def commitRequest (workingDir sshAuthSock message : GoString) : RunCommandRequest :=
  ⟨workingDir, lit "git commit -m " ++ shellQuote message, true, sshAuthSock⟩

inductive GitError
  | message (text : GoString)
  | schema (err : SchemaError)
  | path (err : PathError)
  /-- An error of the runner or of codex. -/
  | host (err : GoString)
  deriving DecidableEq

/-- What `/git` does that can be seen. -/
inductive GitAct
  | status (message : GoString)
  | error (err : GitError)
  | run (req : RunCommandRequest)
  | output (lines : List GoString)
  deriving DecidableEq

/-- What the service and the runner answer in the course of one command. -/
structure GitAnswers where
  /-- Whether runners are configured. -/
  runners : Bool
  lookupTab : Except GitError TabView
  generateCommitMessage : Except GitError GoString
  runnerFor : Except GoString RunnerInfo
  runCommandAndCapture : RunCommandRequest → Except GoString GoString

variable (repoRoot : GoString) (userID : UserID) (ans : GitAnswers)

def commitWorkingDir (info : RunnerInfo) (repo : RepoName) : Except PathError GoString := do
  let workingDir ← repoPath repoRoot userID repo
  if info.repoRoot ≠ [] ∧ repoRoot ≠ [] then mapRepoPath repoRoot info.repoRoot workingDir
  else pure workingDir

def commitOutput (output : GoString) : List GoString :=
  lit "git commit completed" ::
    if blank output then [] else (Output.trimNewlines output).splitOn 0x0A

/-- The second half of `handleGit`, with the message. -/
def commitChanges (tab : TabView) (message : GoString) : List GitAct × Except GitError Unit :=
  match ans.runnerFor with
  | .error err => ([.error (.host err)], .error (.host err))
  | .ok info =>
    match commitWorkingDir repoRoot userID info tab.repo with
    | .error err => ([.error (.path err)], .error (.path err))
    | .ok workingDir =>
      let add := addRequest workingDir info.sshAuthSock
      let commit := commitRequest workingDir info.sshAuthSock message
      match ans.runCommandAndCapture add with
      | .error err =>
        ([.status (lit "running git add"), .run add, .error (.host err)], .error (.host err))
      | .ok _ =>
        let acts := [.status (lit "running git add"), .run add,
          .status (lit "committing changes"), .run commit]
        match ans.runCommandAndCapture commit with
        | .error err => (acts ++ [.error (.host err)], .error (.host err))
        | .ok output => (acts ++ [.output (commitOutput output)], .ok ())

def handleGit (uni : Unicode) (cmd : Command) : List GitAct × Except GitError Unit :=
  match cmd.args with
  | [] => ([], .error (.message (lit "usage: /git commit [message]")))
  | arg :: _ =>
    let sub := uni.toLower arg
    if sub ≠ lit "commit" then
      ([], .error (.message (lit "unsupported /git subcommand: " ++ sub)))
    else if ans.runners = false then ([], .error (.message (lit "runner not configured")))
    else
      match ans.lookupTab with
      | .error err => ([.error err], .error err)
      | .ok tab =>
        if tab.status = .running then ([.error (.schema .tabBusy)], .error (.schema .tabBusy))
        else
          let message := remainderAfterTokens cmd.raw 2
          if blank message then
            let generating := .status (lit "generating commit message")
            match ans.generateCommitMessage with
            | .error err => ([generating, .error err], .error err)
            | .ok generated =>
              let (acts, result) := commitChanges repoRoot userID ans tab generated
              (generating :: acts, result)
          else commitChanges repoRoot userID ans tab message

theorem mem_commitChanges {tab : TabView} {message : GoString} {req : RunCommandRequest}
    (h : .run req ∈ (commitChanges repoRoot userID ans tab message).1) :
    ∃ workingDir sshAuthSock, req = addRequest workingDir sshAuthSock ∨
      req = commitRequest workingDir sshAuthSock message := by
  rw [commitChanges] at h
  cases hinfo : ans.runnerFor with
  | error err => simp [hinfo] at h
  | ok info =>
    cases hdir : commitWorkingDir repoRoot userID info tab.repo with
    | error err => simp [hinfo, hdir] at h
    | ok workingDir =>
      refine ⟨workingDir, info.sshAuthSock, ?_⟩
      simp only [hinfo, hdir] at h
      cases hadd : ans.runCommandAndCapture (addRequest workingDir info.sshAuthSock) with
      | error err =>
        left
        simpa [hadd] using h
      | ok output =>
        simp only [hadd] at h
        split at h <;> simpa using h

/-- A message that was typed is the one that is committed. -/
theorem mem_handleGit {uni : Unicode} {cmd : Command} {req : RunCommandRequest}
    (htyped : blank (remainderAfterTokens cmd.raw 2) = false)
    (h : .run req ∈ (handleGit repoRoot userID ans uni cmd).1) :
    ∃ workingDir sshAuthSock, req = addRequest workingDir sshAuthSock ∨
      req = commitRequest workingDir sshAuthSock (remainderAfterTokens cmd.raw 2) := by
  rw [handleGit] at h
  cases hargs : cmd.args with
  | nil => simp [hargs] at h
  | cons arg args =>
    simp only [hargs, htyped, Bool.false_eq_true, if_false] at h
    split_ifs at h with hsub hrunners
    · simp at h
    · simp at h
    · cases htab : ans.lookupTab with
      | error err => simp [htab] at h
      | ok tab =>
        simp only [htab] at h
        split_ifs at h with hstatus
        · simp at h
        · exact mem_commitChanges repoRoot userID ans h

/-- The text with its quotes written twice. -/
def doubled (value : GoString) : GoString :=
  value.flatMap fun b => if b = quote then [quote, quote] else [b]

theorem doubled_quote {b : UInt8} (hb : b = quote) (value : GoString) :
    doubled (b :: value) = [quote, quote] ++ doubled value := by
  rw [doubled, flatMap_cons, if_pos hb, doubled]

theorem doubled_cons {b : UInt8} (hb : b ≠ quote) (value : GoString) :
    doubled (b :: value) = [b] ++ doubled value := by
  rw [doubled, flatMap_cons, if_neg hb, doubled]

theorem length_doubled (value : GoString) :
    (doubled value).length = value.length + value.count quote := by
  induction value with
  | nil => rfl
  | cons b value ih =>
    by_cases hb : b = quote
    · rw [doubled_quote hb, hb, count_cons_self, length_append, ih, length_cons,
        length_cons, length_cons, length_nil]
      omega
    · rw [doubled_cons hb, count_cons_of_ne hb, length_append, ih, length_cons,
        length_cons, length_nil]
      omega

theorem doubled_eq_iff (value : GoString) : doubled value = value ↔ quote ∉ value := by
  constructor
  · intro h
    have hlength := length_doubled value
    rw [h] at hlength
    exact count_eq_zero.mp (by omega)
  · intro h
    induction value with
    | nil => rfl
    | cons b value ih =>
      rw [mem_cons, not_or] at h
      rw [doubled_cons (Ne.symm h.1), ih h.2, singleton_append]

theorem lit_quote : lit "'" = [quote] := by decide

theorem lit_escapedQuote : lit "'\\'\\''" = [quote, backslash, quote,
    backslash, quote, quote] := by decide

theorem wordsFrom_escaped (value word s : GoString) :
    wordsFrom .quoted (some word)
        ((value.flatMap fun b => if b = 0x27 then lit "'\\'\\''" else [b]) ++ lit "'" ++ s) =
      wordsFrom .plain (some (word ++ doubled value)) s := by
  have hbackslash : backslash ≠ quote := by decide
  have hnewline : quote ≠ newline := by decide
  induction value generalizing word with
  | nil => simp [lit_quote, wordsFrom, doubled]
  | cons b value ih =>
    rw [flatMap_cons, append_assoc, append_assoc, ← append_assoc _ (lit "'")]
    by_cases hb : b = 0x27
    · -- The quoted part ends, two quotes are escaped, and another one begins.
      have hstep : wordsFrom .quoted (some word) (lit "'\\'\\''" ++
          ((value.flatMap fun b => if b = 0x27 then lit "'\\'\\''" else [b]) ++ lit "'" ++ s)) =
            wordsFrom .quoted (some (word ++ [quote, quote]))
              ((value.flatMap fun b => if b = 0x27 then lit "'\\'\\''" else [b]) ++ lit "'" ++
                s) := by
        rw [lit_escapedQuote]
        simp [wordsFrom, hbackslash, hnewline]
      rw [if_pos hb, hstep, ih, doubled_quote hb, append_assoc]
    · have hmem : quote ∉ [b] := by
        rw [mem_singleton]
        exact fun h => hb h.symm
      rw [if_neg hb, wordsFrom_quoted hmem, ih, doubled_cons hb, append_assoc]

theorem wordsFrom_shellQuote (value : GoString) :
    wordsFrom .plain none (shellQuote value) = some [doubled value] := by
  rw [shellQuote]
  split_ifs with hvalue
  · rw [hvalue]
    decide
  · have h := wordsFrom_escaped value [] []
    rw [append_nil, nil_append] at h
    rw [append_assoc]
    exact h

theorem nul_notMem_shellQuote {value : GoString} (h : 0x00 ∉ value) : 0x00 ∉ shellQuote value := by
  have hlit : (0x00 : UInt8) ∉ lit "''" ∧ (0x00 : UInt8) ∉ lit "'" ∧
      (0x00 : UInt8) ∉ lit "'\\'\\''" := by decide
  rw [shellQuote]
  split_ifs
  · exact hlit.1
  · rw [mem_append, mem_append, mem_flatMap]
    rintro ((hmem | ⟨b, hb, hmem⟩) | hmem)
    · exact hlit.2.1 hmem
    · split_ifs at hmem
      · exact hlit.2.2 hmem
      · exact h (mem_singleton.mp hmem ▸ hb)
    · exact hlit.2.1 hmem

variable {value : GoString} (hnul : 0x00 ∉ value)

include hnul

theorem words_shellQuote : words (shellQuote value) = some [doubled value] := by
  rw [words, if_neg (nul_notMem_shellQuote hnul), wordsFrom_shellQuote]

theorem words_commitRequest (workingDir sshAuthSock : GoString) :
    words (commitRequest workingDir sshAuthSock value).command =
      some [lit "git", lit "commit", lit "-m", doubled value] := by
  have hmem : (0x00 : UInt8) ∉ lit "git commit -m " ++ shellQuote value := by
    rw [mem_append, not_or]
    exact ⟨by decide, nul_notMem_shellQuote hnul⟩
  have hsplit : lit "git commit -m " ++ shellQuote value =
      lit "git" ++ 0x20 :: (lit "commit" ++ 0x20 :: (lit "-m" ++ 0x20 :: shellQuote value)) := by
    have hlit : lit "git commit -m " =
        lit "git" ++ 0x20 :: (lit "commit" ++ 0x20 :: (lit "-m" ++ [0x20])) := by decide
    rw [hlit]
    simp
  have hwords : ∀ w ∈ [lit "git", lit "commit", lit "-m"],
      (∀ b ∈ w, ordinary b = true) ∧ w ≠ [] := by decide
  simp only [forall_mem_cons] at hwords
  obtain ⟨hgit, hcommit, hm, -⟩ := hwords
  rw [commitRequest, words, if_neg hmem, hsplit, wordsFrom_word hgit.1 hgit.2,
    wordsFrom_word hcommit.1 hcommit.2, wordsFrom_word hm.1 hm.2, wordsFrom_shellQuote]
  rfl

/-- **Quoting.** A typed message reaches the command line, and it is read back as one word, and as
the message of the commit, exactly if it has no single quote. -/
theorem shellQuote_iff (workingDir sshAuthSock : GoString) :
    (words (shellQuote value) = some [value] ↔ quote ∉ value) ∧
      (words (commitRequest workingDir sshAuthSock value).command =
        some [lit "git", lit "commit", lit "-m", value] ↔ quote ∉ value) ∧
      ∀ uni cmd req, remainderAfterTokens cmd.raw 2 = value → blank value = false →
        .run req ∈ (handleGit repoRoot userID ans uni cmd).1 →
          ∃ workingDir sshAuthSock, req = addRequest workingDir sshAuthSock ∨
            req = commitRequest workingDir sshAuthSock value := by
  rw [words_shellQuote hnul, words_commitRequest hnul, ← doubled_eq_iff]
  refine ⟨by simp, by simp, ?_⟩
  rintro uni cmd req rfl htyped h
  exact mem_handleGit repoRoot userID ans htyped h

omit hnul in
/-- Double quotes, dollar signs and line breaks are kept. -/
theorem shellQuote_signs :
    words (shellQuote (lit "a \"b\" $c\n`d`")) = some [lit "a \"b\" $c\n`d`"] :=
  (shellQuote_iff [] [] ⟨false, .error (.host []), .error (.host []), .error [], fun _ => .error []⟩
    (by decide) [] []).1.mpr (by decide)

omit hnul in
/-- A single quote arrives twice. -/
theorem shellQuote_apostrophe :
    shellQuote (lit "don't") = lit "'don'\\'\\''t'" ∧
      words (shellQuote (lit "don't")) = some [lit "don''t"] ∧
      words (commitRequest (lit "/repos/me/app") [] (lit "don't")).command =
        some [lit "git", lit "commit", lit "-m", lit "don''t"] := by
  decide

end Centaurx.Command
