import Centaurx.Core.RoundTrip
import Centaurx.Paths.Tenants
import Centaurx.RunnerContainer.TrackedTabs

namespace Centaurx.RunnerContainer
open Go Function Runs

structure Sound (isOpen : UserID → TabID → Prop) (s : Provider) : Prop where
  wf : s.core.Wf
  tended : s.core.Tended
  tracked : Tracked isOpen s

section Sound
variable {cfg : Config} {isOpen : UserID → TabID → Prop} {s : Provider}

theorem Sound.step (hscope : cfg.scope = .user) (h : Sound isOpen s) {l : Label}
    (hl : ∀ user tab, l ≠ .closeTab user tab)
    (hrunner : ∀ user tab, l = .runnerFor user tab → isOpen user tab) :
    Sound isOpen (s.step cfg l) :=
  ⟨Provider.wf_step h.wf l, (Provider.step_move h.wf l).tended h.wf h.tended,
    h.tracked.step hscope h.wf hl hrunner⟩

theorem Sound.background (hscope : cfg.scope = .user) (h : Sound isOpen s) {ls : List Label}
    (hls : ∀ l ∈ ls, l.background = true) : Sound isOpen (exec (Provider.step cfg) s ls) := by
  refine exec_invariant_of_mem (fun s l hs hl => hs.step hscope ?_ ?_) h hls
  · rintro user tab rfl
    cases hl
  · rintro user tab rfl
    cases hl

theorem Sound.runnerFor (hscope : cfg.scope = .user) (h : Sound isOpen s) (hcalm : Calm s)
    {user : UserID} {tab : TabID} (htab : isOpen user tab) (answers : ℕ → Option GoString) :
    Sound isOpen (runnerFor cfg s user tab answers).1 ∧
      Calm (runnerFor cfg s user tab answers).1 := by
  have hfirst : Sound isOpen (s.step cfg (.runnerFor user tab)) := by
    refine h.step hscope (fun _ _ heq => by cases heq) fun user' tab' heq => ?_
    cases heq
    exact htab
  refine ⟨?_, (Rests.runnerFor cfg ⟨h.wf, h.tended, hcalm⟩ user tab answers).calm⟩
  simp only [RunnerContainer.runnerFor, labels_advance]
  exact hfirst.background hscope advance_background

theorem Sound.closeRunner (hscope : cfg.scope = .user) (h : Sound isOpen s) (hcalm : Calm s)
    {user : UserID} (huser : blank user = false) (tab : TabID) :
    Sound (fun u t => isOpen u t ∧ ¬(u = user ∧ t = tab)) (closeRunner cfg s user tab) ∧
      Calm (closeRunner cfg s user tab) := by
  have hfirst : Sound (fun u t => isOpen u t ∧ ¬(u = user ∧ t = tab))
      (s.step cfg (.closeTab user tab)) :=
    ⟨Provider.wf_step h.wf _, (Provider.step_move h.wf _).tended h.wf h.tended,
      h.tracked.closeTab hscope h.wf hcalm huser⟩
  refine ⟨?_, (Rests.closeRunner cfg ⟨h.wf, h.tended, hcalm⟩ user tab).calm⟩
  simp only [RunnerContainer.closeRunner, ← List.map_replicate]
  exact hfirst.background hscope advance_background

theorem Sound.useRunner (hscope : cfg.scope = .user) (h : Sound isOpen s) (hcalm : Calm s) (i : ℕ)
    (launch : Launch) : Sound isOpen (useRunner cfg s i launch) ∧
      Calm (useRunner cfg s i launch) := by
  have hlabels : ∀ l ∈ launch.labels s i, l.background = true := by
    cases launch <;> simp [Launch.labels, Label.background]
  exact ⟨h.background hscope hlabels, hcalm.background hlabels⟩

theorem Sound.runCommands (hscope : cfg.scope = .user) (h : Sound isOpen s) (hcalm : Calm s)
    (i n : ℕ) : Sound isOpen (runCommands cfg i n s) ∧ Calm (runCommands cfg i n s) := by
  induction n generalizing s with
  | zero => exact ⟨h, hcalm⟩
  | succ n ih =>
    obtain ⟨hsound, hcalm⟩ := h.useRunner hscope hcalm i .ended
    exact ih hsound hcalm

theorem Sound.resolveRepo (hscope : cfg.scope = .user) (h : Sound isOpen s) (hcalm : Calm s)
    {user : UserID} {tab : TabID} (htab : isOpen user tab) (make : Bool) (commands : ℕ)
    (resolved : Bool) (answers : ℕ → Option GoString) :
    Sound isOpen (resolveRepo cfg s user tab make commands resolved answers).1 ∧
      Calm (resolveRepo cfg s user tab make commands resolved answers).1 := by
  have hasked := h.runnerFor hscope hcalm htab answers
  rw [RunnerContainer.resolveRepo]
  by_cases hmake : make = true
  · rw [if_pos hmake]
    dsimp only
    by_cases hgives : (RunnerContainer.runnerFor cfg s user tab answers).2 = true
    · rw [if_pos hgives]
      exact hasked.1.runCommands hscope hasked.2 s.begun commands
    · rw [if_neg hgives]
      exact hasked
  · rw [if_neg hmake]
    exact ⟨h, hcalm⟩

theorem Sound.mono {isOpen' : UserID → TabID → Prop} (h : Sound isOpen s)
    (himp : ∀ u tab, isOpen u tab → isOpen' u tab) : Sound isOpen' s :=
  ⟨h.wf, h.tended, h.tracked.mono himp⟩

end Sound

/-- The provider tracks only open tabs. -/
structure Host.Ok (s : Host) : Prop where
  sound : Sound (fun u tab => tab ∈ (s.users u).tabs) s.provider
  calm : Calm s.provider
  keyed : ∀ u, Keyed (s.users u)

section Requests
variable {Text : Type} {env : Env Text} {cfg : Config} {s : Host}

theorem start_ok (cfg : Centaurx.Config) (files : UserID → LoadResult) :
    (Host.start cfg files).Ok where
  sound := by
    refine ⟨wf_new, ?_, ?_⟩
    · intro e he
      exact absurd he (Nat.not_lt_zero e)
    · exact ⟨fun _ _ h => (by cases h), fun _ _ _ h => (by cases h)⟩
  calm _ := rfl
  keyed u := loadUserState_keyed cfg (files u)

theorem serveSection_users (session : ℕ) (user u : UserID) (op : Op) :
    (serveSection env s session user op).users u =
      if u = user then (serve env (s.sessions session) (s.users user) op).state else s.users u :=
  update_apply ..

theorem serveSection_keyed (h : ∀ u, Keyed (s.users u)) (session : ℕ) (user : UserID) {op : Op}
    (hop : op.admitted env.uni = true) (u : UserID) :
    Keyed ((serveSection env s session user op).users u) := by
  rw [serveSection_users]
  split_ifs
  · exact (serve_step env _ _ hop).ids (h user)
  · exact h u

theorem serveSection_mem (session : ℕ) (user : UserID) {op : Op} (hop : ∀ id, op ≠ .closeTab id)
    {u : UserID} {tab : TabID} (htab : tab ∈ (s.users u).tabs) :
    tab ∈ ((serveSection env s session user op).users u).tabs := by
  rw [serveSection_users]
  split_ifs with hu
  · subst hu
    exact mem_serve env _ _ hop htab
  · exact htab

/-- A section that closes no tab, and a provider that tracks the tabs that were open before it. -/
theorem Host.Ok.section (h : s.Ok) (session : ℕ) (user : UserID) {op : Op}
    (hop : op.admitted env.uni = true) (hclose : ∀ id, op ≠ .closeTab id) :
    (serveSection env s session user op).Ok where
  sound := h.sound.mono fun _ _ htab => serveSection_mem session user hclose htab
  calm := h.calm
  keyed := serveSection_keyed h.keyed session user hop

theorem Host.Ok.setProvider (h : s.Ok) {p : Provider}
    (hp : Sound (fun u tab => tab ∈ (s.users u).tabs) p ∧ Calm p) : { s with provider := p }.Ok :=
  ⟨hp.1, hp.2, h.keyed⟩

theorem Host.Ok.createTab (hscope : cfg.scope = .user) (h : s.Ok) (session : ℕ) (user : UserID)
    (asked : RepoRequest) (rand : Option (Vector UInt8 8)) (repoName : RepoName) (tabName : TabName)
    (make : Bool) (commands : ℕ) (resolved : Bool) (answers : ℕ → Option GoString) :
    (createTab env cfg s session user asked rand repoName tabName make commands resolved
      answers).Ok := by
  rw [RunnerContainer.createTab]
  split_ifs with hasked
  · obtain ⟨huser, -⟩ := Bool.and_eq_true_iff.mp hasked
    -- the provider may track the new tab before it is open
    have hwide : Sound (fun u tab => tab ∈ (s.users u).tabs ∨ u = user ∧ tab = newID rand)
        s.provider := h.sound.mono fun _ _ => .inl
    obtain ⟨hsound, hcalm⟩ :=
      hwide.resolveRepo hscope h.calm (.inr ⟨rfl, rfl⟩) make commands resolved answers
    dsimp only
    split_ifs
    · refine ⟨hsound.mono fun u tab htab => ?_, hcalm, serveSection_keyed h.keyed _ _ rfl⟩
      rcases htab with htab | ⟨rfl, rfl⟩
      · exact serveSection_mem session user (fun _ heq => by cases heq) htab
      · rw [serveSection_users, if_pos rfl]
        exact Finmap.mem_insert.mpr (.inl rfl)
    · -- the repository could not be made: the tab is given back before it was ever open
      obtain ⟨hclosed, hcalm⟩ :=
        hsound.closeRunner hscope hcalm (validateUserID_not_blank huser) (newID rand)
      exact h.setProvider ⟨hclosed.mono fun u tab htab => htab.1.resolve_right htab.2, hcalm⟩
  · exact h

theorem Host.Ok.sendPrompt (hscope : cfg.scope = .user) (h : s.Ok) (session : ℕ) (user : UserID)
    (tab : TabID) (prompt : GoString) (summary : ℕ) (handle : RunHandle) (cancel : CancelFunc)
    (launch : Launch) (answers : ℕ → Option GoString) :
    (sendPrompt env cfg s session user tab prompt summary handle cancel launch answers).Ok := by
  rw [RunnerContainer.sendPrompt]
  have hcheck : (serveSection env s session user (.sendPromptCheck tab)).Ok :=
    h.section session user rfl fun _ heq => by cases heq
  have hsame : ∀ p, Sound (fun u tab => tab ∈ (s.users u).tabs) p ∧ Calm p →
      { serveSection env s session user (.sendPromptCheck tab) with provider := p }.Ok := by
    intro p hp
    refine hcheck.setProvider ⟨hp.1.mono fun _ _ htab => ?_, hp.2⟩
    exact serveSection_mem session user (fun _ heq => by cases heq) htab
  by_cases hbad : (blank prompt || !validateUserID user) = true
  · rw [if_pos hbad]
    exact h
  rw [if_neg hbad]
  dsimp only
  cases htab : (s.users user).tabs.lookup tab with
  | none => exact hcheck
  | some t =>
    have hopen : t.id ∈ (s.users user).tabs := by
      rw [h.keyed user tab t htab]
      exact Finmap.mem_of_lookup_eq_some htab
    have hasked := h.sound.runnerFor hscope h.calm hopen answers
    have hsummed := hasked.1.runCommands hscope hasked.2 s.provider.begun summary
    have hused := hsame _ (hsummed.1.useRunner hscope hsummed.2 s.provider.begun launch)
    dsimp only
    by_cases hrunning : t.status = .running
    · rw [if_pos hrunning]
      exact hcheck
    rw [if_neg hrunning]
    by_cases hgives : (runnerFor cfg s.provider user t.id answers).2 = true
    · rw [if_pos hgives]
      by_cases hstarted : launch = .started
      · rw [if_pos hstarted]
        exact hused.section session user rfl fun _ heq => by cases heq
      · rw [if_neg hstarted]
        exact hused
    · rw [if_neg hgives]
      exact hsame _ hasked

theorem mem_of_lookupTab (h : s.Ok) {user : UserID} {tab : TabID}
    (htab : lookupTab s user tab = true) : tab ∈ (s.users user).tabs := by
  simp only [lookupTab, Bool.and_eq_true, List.any_eq_true, decide_eq_true_eq] at htab
  obtain ⟨-, t, ht, rfl⟩ := htab
  obtain ⟨id, -, hid⟩ := List.mem_filterMap.mp ht
  rw [h.keyed user id t hid]
  exact Finmap.mem_of_lookup_eq_some hid

theorem Host.Ok.handleShell (hscope : cfg.scope = .user) (h : s.Ok) (user : UserID) {tab : TabID}
    (htab : tab ≠ []) (input : GoString) (launch : Launch) (answers : ℕ → Option GoString) :
    (handleShell cfg s user tab input launch answers).Ok := by
  rw [RunnerContainer.handleShell]
  by_cases hempty : cmdText input = []
  · rw [if_pos hempty]
    exact h
  rw [if_neg hempty]
  by_cases hfound : lookupTab s user tab = true
  · rw [if_neg (by simp [hfound]), if_neg htab]
    have hasked := h.sound.runnerFor hscope h.calm (mem_of_lookupTab h hfound) answers
    refine h.setProvider ?_
    split_ifs
    · exact hasked.1.useRunner hscope hasked.2 _ launch
    · exact hasked
  · rw [if_pos ⟨htab, hfound⟩]
    exact h

theorem Host.Ok.closeTab (hscope : cfg.scope = .user) (h : s.Ok) (session : ℕ) (user : UserID)
    (tab : TabID) : (closeTab env cfg s session user tab).Ok := by
  rw [RunnerContainer.closeTab]
  split_ifs with hfound
  · simp only [Bool.and_eq_true] at hfound
    obtain ⟨hsound, hcalm⟩ :=
      h.sound.closeRunner hscope h.calm (validateUserID_not_blank hfound.1) tab
    refine ⟨hsound.mono fun u t ht => ?_, hcalm, serveSection_keyed h.keyed _ _ rfl⟩
    rw [serveSection_users]
    split_ifs with hu
    · subst hu
      exact mem_serve_closeTab env _ _ ht.1 fun heq => ht.2 ⟨rfl, heq⟩
    · exact ht.1
  · exact h

theorem Host.Ok.handle (hscope : cfg.scope = .user) (h : s.Ok) {r : Request} (hr : r.FromTab) :
    (handle env cfg s r).Ok := by
  cases r with
  | createTab session user asked rand repoName tabName make commands resolved answers =>
    exact h.createTab hscope ..
  | sendPrompt session user tab prompt summary handle cancel launch answers =>
    exact h.sendPrompt hscope ..
  | handleShell user tab input launch answers => exact h.handleShell hscope user hr ..
  | closeTab session user tab => exact h.closeTab hscope ..
  | other session user op =>
    simp only [RunnerContainer.handle]
    split_ifs with hop
    · simp only [Bool.and_eq_true] at hop
      refine h.section session user hop.1.2 ?_
      rintro id rfl
      cases hop.2
    · exact h
  | background l =>
    simp only [RunnerContainer.handle]
    split_ifs with hl
    · have hone : ∀ l' ∈ [l], l'.background = true := by simpa using hl
      exact h.setProvider ⟨h.sound.background hscope hone, h.calm.background hone⟩
    · exact h

/-- **The shared runner is released with the last tab**, whether or not runs are outstanding, if
every shell command comes from a tab. -/
theorem released_with_last_tab (env : Env Text) (cfg : Config) (hscope : cfg.scope = .user)
    (files : UserID → LoadResult) {requests : List Request} (hshell : ∀ r ∈ requests, r.FromTab)
    {u : UserID} (hclosed : ((exec (handle env cfg) (Host.start env.cfg files) requests).users
      u).tabs = ∅) {key : TabKey} (hkey : key.user = u) :
    (exec (handle env cfg) (Host.start env.cfg files) requests).provider.table key = none := by
  have hok : (exec (handle env cfg) (Host.start env.cfg files) requests).Ok :=
    exec_invariant_of_mem (fun _ _ hs hr => hs.handle hscope hr) (start_ok env.cfg files) hshell
  rw [Option.eq_none_iff_forall_ne_some]
  intro e he
  obtain ⟨-, hsome, htabs⟩ := hok.sound.tracked.entries key e he
  obtain ⟨tab, htab⟩ := Finset.nonempty_iff_ne_empty.mpr hsome
  have hopen := (htabs tab htab).1
  rw [hkey, hclosed] at hopen
  exact Finmap.notMem_empty hopen

/-- A repository is cloned for a tab, a command runs and ends, and the tab is closed. -/
def commandRequests (tab : TabID) : List Request :=
  [.createTab 0 (lit "alice") { url := lit "https://host/repo" } (some (randBytes 1)) (lit "repo")
      [] true 1 true (fun _ => none),
    .handleShell (lit "alice") tab (lit "!ls") .started (fun _ => none),
    .background (.finishRun 1),
    .closeTab 0 (lit "alice") (lit "0000000000000001")]

theorem released_with_last_tab_command :
    let s := exec (handle (Env.stock Json.plain) { tabConfig with scope := .user })
      (Host.start stockConfig fun _ => .missing) (commandRequests (lit "0000000000000001"))
    (s.users (lit "alice")).tabs = ∅ ∧ s.provider.table ⟨lit "alice", []⟩ = none := by
  have hclosed : ((exec (handle (Env.stock Json.plain) { tabConfig with scope := .user })
      (Host.start stockConfig fun _ => .missing)
        (commandRequests (lit "0000000000000001"))).users (lit "alice")).tabs = ∅ := by
    decide
  exact ⟨hclosed, released_with_last_tab (Env.stock Json.plain) { tabConfig with scope := .user }
    rfl (fun _ => .missing) (by decide) hclosed rfl⟩

/-- After a command without an active tab the entry is left, with no tab and no run. -/
theorem system_shell_not_released :
    let s := exec (handle (Env.stock Json.plain) { tabConfig with scope := .user })
      (Host.start stockConfig fun _ => .missing) (commandRequests [])
    (s.users (lit "alice")).tabs = ∅ ∧ s.provider.runs.all Run.finished = true ∧
      s.provider.table ⟨lit "alice", []⟩ = some 0 := by
  decide

end Requests

end Centaurx.RunnerContainer
