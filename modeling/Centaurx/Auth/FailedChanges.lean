import Centaurx.Auth.Accounts
import Centaurx.Lib.Runs

namespace Centaurx.Auth
open Go Runs List

structure UserFile where
  /-- The users in the file, or the error of reading it. -/
  contents : Except GoString (List User)
  state : FileState

def UserFile.disk (file : UserFile) : Disk := ⟨.ok file.state, file.contents, .ok file.state⟩

/-- A store and its file. -/
structure Accounts where
  store : Store
  file : UserFile

/-- What the file system answers to `saveLocked`. -/
structure Saving where
  /-- The error of one of the steps up to the rename. -/
  err : Option GoString := none
  /-- The state of the new file. -/
  state : FileState
  /-- The stat after the rename succeeds. -/
  statOK : Bool := true

structure AccountCall where
  op : AccountOp
  saving : Saving

namespace Accounts

/-- The store after the refresh that every call and every query begins with. -/
def view (a : Accounts) : Except GoString Store := refreshIfNeeded a.file.disk a.store

variable (coding : Coding) {Key : Type} (crypto : Crypto Key)

def saveLocked (a : Accounts) (saving : Saving) : Accounts × Option GoString :=
  match saving.err with
  | some err => (a, some err)
  | none =>
    let file := ⟨.ok ((records a.store.users).map (User.coded coding)), saving.state⟩
    let state := if saving.statOK then saving.state else a.store.fileState
    ({ store := { a.store with fileState := state }, file := file }, none)

def call (a : Accounts) (c : AccountCall) : Accounts × Result :=
  match a.view with
  | .error err => (a, { err := some err })
  | .ok store =>
    let a := { a with store := store }
    match c.op.edit crypto store.users with
    | .error r => (a, r)
    | .ok (users, index) =>
      match saveLocked coding { a with store := { store with users := users } } c.saving with
      | (a, some err) => (a, { err := some err })
      | (a, none) => (a, { index := index })

def step (a : Accounts) (c : AccountCall) : Accounts := (a.call coding crypto c).1

/-- The calls of a run that return no error. -/
def succeeded (a : Accounts) : List AccountCall → List AccountCall
  | [] => []
  | c :: cs =>
    let rest := succeeded (a.step coding crypto c) cs
    if (a.call coding crypto c).2.err = none then c :: rest else rest

/-- The same file, and the same users for every call and query that comes next. -/
structure Alike (a b : Accounts) : Prop where
  file : a.file = b.file
  view : a.view = b.view

/-- The save does not fail, or the call is refused, or it gives the user what the user has. -/
def Harmless (a : Accounts) (c : AccountCall) : Prop :=
  c.saving.err = none ∨ ∀ store, a.view = .ok store →
    ¬ c.op.Passes crypto store.users ∨ c.op.Repeats store.users

variable {coding crypto} {a b : Accounts}

theorem Alike.refl (a : Accounts) : Alike a a := ⟨rfl, rfl⟩

theorem Alike.symm (h : Alike a b) : Alike b a := ⟨h.file.symm, h.view.symm⟩

theorem Alike.trans {c : Accounts} (h : Alike a b) (h' : Alike b c) : Alike a c :=
  ⟨h.file.trans h'.file, h.view.trans h'.view⟩

theorem view_fileState {store : Store} (h : a.view = .ok store) :
    store.fileState = a.file.state := by
  simp only [view, refreshIfNeeded, UserFile.disk] at h
  split_ifs at h with heq
  · cases h
    exact heq
  · simp only [loadFromDisk] at h
    split at h
    · cases h
    · split_ifs at h
      cases h
      rfl

theorem view_of_fileState (h : a.store.fileState = a.file.state) : a.view = .ok a.store := by
  simp only [view, refreshIfNeeded, UserFile.disk]
  exact if_pos h

/-- What comes of a call depends on the file and the refreshed store only. -/
theorem call_congr (h : Alike a b) (c : AccountCall) :
    (a.call coding crypto c).2 = (b.call coding crypto c).2 ∧
      Alike (a.step coding crypto c) (b.step coding crypto c) := by
  obtain ⟨store, file⟩ := a
  obtain ⟨store', file'⟩ := b
  obtain ⟨hfile, hview⟩ := h
  dsimp only at hfile
  subst hfile
  simp only [step, call, hview]
  cases hv : view ⟨store', file⟩ with
  | error err => exact ⟨rfl, rfl, hview⟩
  | ok s => exact ⟨rfl, Alike.refl _⟩

/-- Where a call returns an error, the next call finds the same users if and only if the failed one
is harmless. -/
theorem failed_iff {c : AccountCall} (hfail : (a.call coding crypto c).2.err ≠ none) :
    Alike (a.step coding crypto c) a ↔ a.Harmless crypto c := by
  simp only [step, call] at hfail ⊢
  cases hview : a.view with
  | error err =>
    exact iff_of_true (Alike.refl a) (.inr fun store h => by rw [hview] at h; cases h)
  | ok store =>
    have hstate := view_fileState hview
    simp only [hview] at hfail ⊢
    cases hedit : c.op.edit crypto store.users with
    | error r =>
      refine iff_of_true ⟨rfl, ?_⟩ (.inr fun store' h => .inl fun hpasses => ?_)
      · rw [hview]
        exact view_of_fileState hstate
      · obtain rfl := Except.ok.inj (hview.symm.trans h)
        obtain ⟨r', hok⟩ := AccountOp.edit_ok_iff.mpr hpasses
        rw [hedit] at hok
        cases hok
    | ok r =>
      obtain ⟨users, index⟩ := r
      simp only [hedit, saveLocked] at hfail ⊢
      cases herr : c.saving.err with
      | none => simp [herr] at hfail
      | some err =>
        have hnew : view { a with store := { store with users := users } } =
            .ok { store with users := users } := view_of_fileState hstate
        constructor
        · -- the users in memory are the new ones
          intro halike
          have heq : { store with users := users } = store :=
            Except.ok.inj (hnew.symm.trans (halike.view.trans hview))
          refine .inr fun store' h => .inr ?_
          obtain rfl := Except.ok.inj (hview.symm.trans h)
          exact (AccountOp.edit_eq_self_iff hedit).mp (congrArg Store.users heq)
        · rintro (hnone | hsame)
          · rw [herr] at hnone
            cases hnone
          · have hrepeats := (hsame store hview).resolve_left fun hrefused =>
              hrefused (AccountOp.edit_ok_iff.mp ⟨_, hedit⟩)
            obtain rfl := (AccountOp.edit_eq_self_iff hedit).mpr hrepeats
            exact ⟨rfl, hnew.trans hview.symm⟩

theorem harmless_of_succeeded {c : AccountCall} (h : (a.call coding crypto c).2.err = none) :
    a.Harmless crypto c := by
  by_cases herr : c.saving.err = none
  · exact .inl herr
  · obtain ⟨err, herr⟩ := Option.ne_none_iff_exists'.mp herr
    refine .inr fun store hview => .inl fun hpasses => ?_
    obtain ⟨⟨users, index⟩, hedit⟩ := AccountOp.edit_ok_iff.mpr hpasses
    simp [call, hview, hedit, saveLocked, herr] at h

theorem prefix_alike_iff (h : Alike a b) (run : List AccountCall) :
    (∀ part, part <+: run → Alike (exec (step coding crypto) a part)
        (exec (step coding crypto) b (a.succeeded coding crypto part))) ↔
      Meets (step coding crypto) (Harmless crypto) a run := by
  induction run generalizing a b with
  | nil =>
    refine iff_of_true (fun part hpart => ?_) trivial
    rw [prefix_nil.mp hpart]
    exact h
  | cons c run ih =>
    rw [meets_cons, forall_prefix_cons]
    refine (and_iff_right h).trans ?_
    by_cases hok : (a.call coding crypto c).2.err = none
    · -- the call is made in both runs
      rw [← ih (call_congr h c).2, and_iff_right (harmless_of_succeeded hok)]
      simp [succeeded, hok, exec]
    · by_cases hc : a.Harmless crypto c
      · have halike : Alike (a.step coding crypto c) b := ((failed_iff hok).mpr hc).trans h
        rw [← ih halike, and_iff_right hc]
        simp [succeeded, hok, exec]
      · refine iff_of_false (fun hall => hc ?_) fun hmeets => hc hmeets.1
        have hfirst := hall [] nil_prefix
        simp only [succeeded, hok, if_false, exec, foldl_cons, foldl_nil] at hfirst
        exact (failed_iff hok).mp (hfirst.trans h.symm)

end Accounts

/-- `Authenticate`, where `compare` is the comparison of a password with its hash. -/
def authenticate {Key : Type} (crypto : Crypto Key) (compare : GoString → GoString → Bool)
    (m : Moment) (username password totpCode : GoString) : Except GoString Unit :=
  match refreshIfNeeded m.disk m.store with
  | .error err => .error err
  | .ok s =>
    match s.users.lookup username with
    | none => .error (lit "invalid credentials")
    | some user =>
      if !compare user.passwordHash password then .error (lit "invalid credentials")
      else if !crypto.validate m.now totpCode user.totpSecret then .error (lit "invalid totp")
      else .ok ()

def Accounts.moment (a : Accounts) (now : ℕ) : Moment := ⟨a.store, a.file.disk, now⟩

/-- What the queries answer: `Authenticate`, `ValidateTOTP` and `HasLoginPubKey`. -/
def Accounts.answers {Key : Type} (crypto : Crypto Key) (compare : GoString → GoString → Bool)
    (a : Accounts) (now : ℕ) (name password code : GoString) (key : Key) :
    Except GoString Unit × Except GoString Unit × Except GoString Bool :=
  (authenticate crypto compare (a.moment now) name password code,
    validateTOTP crypto (a.moment now) name code, hasLoginPubKey crypto (a.moment now) name key)

theorem Accounts.Alike.answers {a b : Accounts} (h : Alike a b) {Key : Type} (crypto : Crypto Key)
    (compare : GoString → GoString → Bool) :
    a.answers crypto compare = b.answers crypto compare := by
  have hview : refreshIfNeeded a.file.disk a.store = refreshIfNeeded b.file.disk b.store := h.view
  have hfind : ∀ now name missing, findUser (a.moment now) name missing =
      findUser (b.moment now) name missing := by
    intro now name missing
    simp only [findUser, Accounts.moment, hview]
  funext now name password code key
  refine congrArg₂ Prod.mk ?_ (congrArg₂ Prod.mk ?_ ?_)
  · simp only [authenticate, Accounts.moment, hview]
    rfl
  · simp only [validateTOTP, hfind]
    rfl
  · simp only [hasLoginPubKey, hfind]

/-- **Failed changes.** From any store and file: after every part of the run, the file, the users
that the next call finds and the answers of the queries are those of the same run without the calls
that failed, if and only if a save fails only in calls that are refused before it or repeat what
is there. -/
theorem failed_changes_without_effect (coding : Coding) {Key : Type} (crypto : Crypto Key)
    (compare : GoString → GoString → Bool) (a : Accounts) (run : List AccountCall) :
    (∀ part, part <+: run →
      let s := exec (Accounts.step coding crypto) a part
      let t := exec (Accounts.step coding crypto) a (a.succeeded coding crypto part)
      Accounts.Alike s t ∧ s.answers crypto compare = t.answers crypto compare) ↔
      Meets (Accounts.step coding crypto) (Accounts.Harmless crypto) a run := by
  rw [← Accounts.prefix_alike_iff (Accounts.Alike.refl a) run]
  exact forall₂_congr fun part _ => and_iff_left_of_imp fun h => h.answers crypto compare

/-- Strings that are not valid become empty. -/
def plainCoding : Coding where
  str s := if validUTF8 s then s else []
  str_valid s h := if_pos h
  valid_str s := by
    split_ifs with h
    · exact h
    · decide

/-- No key parses and no code is valid. -/
def noCrypto : Crypto Unit := ⟨fun _ => none, fun _ => [], fun _ _ _ => false⟩

def aliceFile : UserFile := ⟨.ok [⟨lit "alice", lit "old", lit "secret", []⟩], ⟨0, 1, 1, 1⟩⟩

/-- The store of a process that has just started. -/
def aliceAccounts : Accounts :=
  ⟨⟨userMap [⟨lit "alice", lit "old", lit "secret", []⟩], ⟨0, 1, 1, 1⟩⟩, aliceFile⟩

/-- The new password of a call that failed is written by the next one. -/
theorem failed_password_is_saved :
    let failing : AccountCall := ⟨.updatePassword (lit "alice") (lit "new"),
      { err := some (lit "disk full"), state := ⟨0, 2, 2, 1⟩ }⟩
    let next : AccountCall := ⟨.updateTOTP (lit "alice") (lit "other"), { state := ⟨0, 3, 3, 1⟩ }⟩
    (aliceAccounts.call plainCoding noCrypto failing).2.err = some (lit "disk full") ∧
      (exec (Accounts.step plainCoding noCrypto) aliceAccounts
        [failing, next]).file.contents.toOption =
        some [⟨lit "alice", lit "new", lit "other", []⟩] := by
  decide

end Centaurx.Auth
