import Centaurx.Auth.Store
import Centaurx.Lib.Maps
import Mathlib.Data.List.Sort
import Mathlib.Data.List.Lex

namespace Centaurx.Auth
open Go Maps List

theorem insertionSort_congr {l l' : List GoString} (h : l.Perm l') :
    l.insertionSort (· ≤ ·) = l'.insertionSort (· ≤ ·) :=
  List.Perm.eq_of_pairwise (fun _ _ _ _ => Std.Antisymm.antisymm _ _)
    (pairwise_insertionSort _ _) (pairwise_insertionSort _ _)
    (((perm_insertionSort _ _).trans h).trans (perm_insertionSort _ _).symm)

theorem keys_congr (l l' : AList fun _ : GoString => User) (h : l.entries.Perm l'.entries) :
    l.keys.insertionSort (· ≤ ·) = l'.keys.insertionSort (· ≤ ·) :=
  insertionSort_congr (h.map Sigma.fst)

/-- The keys of the map, as `sort.Strings` orders them. -/
def sortedKeys (users : UserMap) : List GoString :=
  users.liftOn (fun l => l.keys.insertionSort (· ≤ ·)) keys_congr

/-- The users that `saveLocked` writes. -/
def records (users : UserMap) : List User := (sortedKeys users).filterMap users.lookup

/-- What a string becomes when it is encoded as JSON and decoded again. -/
structure Coding where
  str : GoString → GoString
  str_valid : ∀ s, validUTF8 s = true → str s = s
  valid_str : ∀ s, validUTF8 (str s) = true

def User.coded (coding : Coding) (u : User) : User where
  username := coding.str u.username
  passwordHash := coding.str u.passwordHash
  totpSecret := coding.str u.totpSecret
  loginPubKeys := u.loginPubKeys.map coding.str

inductive AccountOp
  | addUser (user : User)
  | deleteUser (username : GoString)
  | updatePassword (username passwordHash : GoString)
  | updateTOTP (username secret : GoString)
  | addLoginPubKey (userID : UserID) (pubKey : GoString)
  | removeLoginPubKey (userID : UserID) (index : Int)
  deriving DecidableEq

/-- What a call returns; the index is that of a login key, and 0 for the other calls. -/
structure Result where
  index : ℕ := 0
  err : Option GoString := none
  deriving DecidableEq

def fail (text : String) : Except Result (UserMap × ℕ) := .error { err := some (lit text) }

/-- `normalizeLoginPubKey`. -/
def normalizeLoginPubKey {Key : Type} (crypto : Crypto Key) (raw : GoString) :
    Except GoString (GoString × Key) :=
  let trimmed := trimSpace raw
  if trimmed = [] then .error (lit "pubkey is required")
  else
    match crypto.parseAuthorizedKey trimmed with
    | none => .error (lit "invalid pubkey")
    | some key => .ok (trimmed, key)

/-- The lookup of a user who must be there, and the new record. -/
def editUser (users : UserMap) (username : GoString)
    (edit : User → Except Result (User × ℕ)) : Except Result (UserMap × ℕ) :=
  match users.lookup username with
  | none => fail "user not found"
  | some user =>
    match edit user with
    | .error r => .error r
    | .ok (user, index) => .ok (users.insert username user, index)

/-- The check of the username that a call begins with. -/
def withUsername (username : GoString) (next : GoString → Except Result (UserMap × ℕ)) :
    Except Result (UserMap × ℕ) :=
  match validateUsername username with
  | .error err => .error { err := some err }
  | .ok username => next username

variable {Key : Type} (crypto : Crypto Key)

/-- The checks of a call after its refresh, and the new users it goes on to save. -/
def AccountOp.edit (op : AccountOp) (users : UserMap) : Except Result (UserMap × ℕ) :=
  match op with
  | .addUser user =>
    withUsername user.username fun username =>
      match users.lookup username with
      | some _ => fail "user already exists"
      | none => .ok (users.insert username { user with username := username }, 0)
  | .deleteUser username =>
    withUsername username fun username =>
      match users.lookup username with
      | none => fail "user not found"
      | some _ => .ok (users.erase username, 0)
  | .updatePassword username passwordHash =>
    withUsername username fun username =>
      if blank passwordHash then fail "password hash is required"
      else editUser users username fun user => .ok ({ user with passwordHash := passwordHash }, 0)
  | .updateTOTP username secret =>
    withUsername username fun username =>
      if blank secret then fail "totp secret is required"
      else editUser users username fun user => .ok ({ user with totpSecret := secret }, 0)
  | .addLoginPubKey userID pubKey =>
    withUsername userID fun username =>
      match normalizeLoginPubKey crypto pubKey with
      | .error err => .error { err := some err }
      | .ok (normalized, parsed) =>
        editUser users username fun user =>
          match user.loginPubKeys.findIdx? fun existing => keyEqual crypto existing parsed with
          | some idx => .error ⟨idx + 1, some (lit "login pubkey already exists")⟩
          | none =>
            let keys := user.loginPubKeys ++ [normalized]
            .ok ({ user with loginPubKeys := keys }, keys.length)
  | .removeLoginPubKey userID index =>
    withUsername userID fun username =>
      if index ≤ 0 then fail "login pubkey id must be positive"
      else
        editUser users username fun user =>
          if index > user.loginPubKeys.length then
            .error { err := some (lit "login pubkey id out of range") }
          else .ok ({ user with loginPubKeys := user.loginPubKeys.eraseIdx (index.toNat - 1) }, 0)

def AccountOp.target : AccountOp → GoString
  | .addUser user => user.username
  | .deleteUser username => username
  | .updatePassword username _ => username
  | .updateTOTP username _ => username
  | .addLoginPubKey userID _ => userID
  | .removeLoginPubKey userID _ => userID

/-- The record of the target after a change that succeeded. -/
def AccountOp.effect : AccountOp → Option User → Option User
  | .addUser user, _ => some user
  | .deleteUser _, _ => none
  | .updatePassword _ hash, user => user.map fun u => { u with passwordHash := hash }
  | .updateTOTP _ secret, user => user.map fun u => { u with totpSecret := secret }
  | .addLoginPubKey _ pubKey, user =>
    user.map fun u => { u with loginPubKeys := u.loginPubKeys ++ [trimSpace pubKey] }
  | .removeLoginPubKey _ index, user =>
    user.map fun u => { u with loginPubKeys := u.loginPubKeys.eraseIdx (index.toNat - 1) }

/-- What a call checks of the users and of its arguments. -/
def AccountOp.Passes (op : AccountOp) (users : UserMap) : Prop :=
  validateUserID op.target = true ∧ match op with
    | .addUser user => users.lookup user.username = none
    | .deleteUser username => ∃ user, users.lookup username = some user
    | .updatePassword username value | .updateTOTP username value =>
      blank value = false ∧ ∃ user, users.lookup username = some user
    | .addLoginPubKey userID pubKey => trimSpace pubKey ≠ [] ∧
      ∃ key, crypto.parseAuthorizedKey (trimSpace pubKey) = some key ∧
        ∃ user, users.lookup userID = some user ∧
          ∀ existing ∈ user.loginPubKeys, keyEqual crypto existing key = false
    | .removeLoginPubKey userID index =>
      0 < index ∧ ∃ user, users.lookup userID = some user ∧ index ≤ user.loginPubKeys.length

/-- A call that gives the user what the user has. -/
def AccountOp.Repeats (op : AccountOp) (users : UserMap) : Prop :=
  match op with
  | .updatePassword username hash => (users.lookup username).map User.passwordHash = some hash
  | .updateTOTP username secret => (users.lookup username).map User.totpSecret = some secret
  | _ => False

variable {crypto} {users users' : UserMap} {index : ℕ}

theorem withUsername_ok {username : GoString} {next : GoString → Except Result (UserMap × ℕ)}
    {r : UserMap × ℕ} (h : withUsername username next = .ok r) :
    validateUserID username = true ∧ next username = .ok r := by
  rw [withUsername, validateUsername] at h
  by_cases hv : validateUserID username = true
  · rw [if_pos hv] at h
    exact ⟨hv, h⟩
  · rw [if_neg hv] at h
    cases h

/-- A successful edit finds the user and puts the new record in its place. -/
theorem editUser_ok {username : GoString} {edit : User → Except Result (User × ℕ)}
    (h : editUser users username edit = .ok (users', index)) :
    ∃ user user', users.lookup username = some user ∧ edit user = .ok (user', index) ∧
      users' = users.insert username user' := by
  rw [editUser] at h
  split at h
  · cases h
  · rename_i user huser
    split at h
    · cases h
    · rename_i user' index' hedit
      cases h
      exact ⟨user, user', huser, hedit, rfl⟩

theorem normalizeLoginPubKey_ok {raw normalized : GoString} {key : Key}
    (h : normalizeLoginPubKey crypto raw = .ok (normalized, key)) : normalized = trimSpace raw := by
  simp only [normalizeLoginPubKey] at h
  split at h
  · cases h
  · split at h
    · cases h
    · cases h
      rfl

/-- What a successful change does: the record of its target is changed as `effect` says, the
others stay. -/
theorem AccountOp.edit_ok {op : AccountOp} (h : op.edit crypto users = .ok (users', index)) :
    validateUserID op.target = true ∧ ∀ name, users'.lookup name =
      if name = op.target then op.effect (users.lookup name) else users.lookup name := by
  -- the new record, when an existing one is replaced
  have hinsert : ∀ {username : GoString} {user user' : User}, users.lookup username = some user →
      op.target = username → op.effect (some user) = some user' →
      users' = users.insert username user' →
      ∀ name, users'.lookup name =
        if name = op.target then op.effect (users.lookup name) else users.lookup name := by
    intro username user user' hlookup htarget heffect husers name
    rw [husers, lookup_insert_eq, htarget]
    split_ifs with hname
    · rw [hname, hlookup, heffect]
    · rfl
  cases op with
  | addUser user =>
    obtain ⟨hv, h⟩ := withUsername_ok h
    refine ⟨hv, fun name => ?_⟩
    split at h
    · cases h
    · cases h
      exact lookup_insert_eq _ _ _ _
  | deleteUser username =>
    obtain ⟨hv, h⟩ := withUsername_ok h
    refine ⟨hv, fun name => ?_⟩
    split at h
    · cases h
    · cases h
      exact lookup_erase_eq _ _ _
  | updatePassword username value | updateTOTP username value =>
    obtain ⟨hv, h⟩ := withUsername_ok h
    split at h
    · cases h
    · obtain ⟨user, user', hlookup, hedit, husers⟩ := editUser_ok h
      cases hedit
      exact ⟨hv, hinsert hlookup rfl rfl husers⟩
  | addLoginPubKey userID pubKey =>
    obtain ⟨hv, h⟩ := withUsername_ok h
    split at h
    · cases h
    · rename_i normalized parsed hnormalize
      obtain rfl := normalizeLoginPubKey_ok hnormalize
      obtain ⟨user, user', hlookup, hedit, husers⟩ := editUser_ok h
      split at hedit
      · cases hedit
      · cases hedit
        exact ⟨hv, hinsert hlookup rfl rfl husers⟩
  | removeLoginPubKey userID index =>
    obtain ⟨hv, h⟩ := withUsername_ok h
    split at h
    · cases h
    · obtain ⟨user, user', hlookup, hedit, husers⟩ := editUser_ok h
      split at hedit
      · cases hedit
      · cases hedit
        exact ⟨hv, hinsert hlookup rfl rfl husers⟩

theorem withUsername_ok_iff {username : GoString} {next : GoString → Except Result (UserMap × ℕ)} :
    (∃ r, withUsername username next = .ok r) ↔
      validateUserID username = true ∧ ∃ r, next username = .ok r := by
  constructor
  · rintro ⟨r, h⟩
    obtain ⟨hv, h⟩ := withUsername_ok h
    exact ⟨hv, r, h⟩
  · rintro ⟨hv, r, h⟩
    exact ⟨r, by simp only [withUsername, validateUsername, if_pos hv, h]⟩

theorem editUser_ok_iff {username : GoString} {edit : User → Except Result (User × ℕ)} :
    (∃ r, editUser users username edit = .ok r) ↔
      ∃ user, users.lookup username = some user ∧ ∃ r, edit user = .ok r := by
  constructor
  · rintro ⟨⟨users', index⟩, h⟩
    obtain ⟨user, user', hlookup, hedit, -⟩ := editUser_ok h
    exact ⟨user, hlookup, _, hedit⟩
  · rintro ⟨user, hlookup, ⟨user', index⟩, hedit⟩
    exact ⟨(users.insert username user', index), by simp only [editUser, hlookup, hedit]⟩

theorem ite_fail_ok_iff {p : Prop} [Decidable p] {text : String}
    {next : Except Result (UserMap × ℕ)} :
    (∃ r, (if p then fail text else next) = .ok r) ↔ ¬p ∧ ∃ r, next = .ok r := by
  by_cases hp : p <;> simp [hp, fail]

/-- A call comes to its save if and only if it passes its checks. -/
theorem AccountOp.edit_ok_iff {op : AccountOp} :
    (∃ r, op.edit crypto users = .ok r) ↔ op.Passes crypto users := by
  cases op with
  | addUser user | deleteUser username =>
    refine withUsername_ok_iff.trans (and_congr_right fun _ => ?_)
    split <;> simp_all [fail]
  | updatePassword username value | updateTOTP username value =>
    refine withUsername_ok_iff.trans (and_congr_right fun _ => ite_fail_ok_iff.trans ?_)
    refine and_congr (by simp) (editUser_ok_iff.trans (exists_congr fun user => ?_))
    exact and_iff_left ⟨_, rfl⟩
  | addLoginPubKey userID pubKey =>
    refine withUsername_ok_iff.trans (and_congr_right fun _ => ?_)
    by_cases htrim : trimSpace pubKey = []
    · simp [normalizeLoginPubKey, htrim]
    · cases hparse : crypto.parseAuthorizedKey (trimSpace pubKey) with
      | none => simp [normalizeLoginPubKey, htrim, hparse]
      | some key =>
        simp only [normalizeLoginPubKey, htrim, hparse, if_false, ne_eq, not_false_eq_true,
          true_and, Option.some.injEq, exists_eq_left']
        refine editUser_ok_iff.trans (exists_congr fun user => and_congr_right fun _ => ?_)
        rw [← findIdx?_eq_none_iff]
        split <;> simp_all
  | removeLoginPubKey userID index =>
    refine withUsername_ok_iff.trans (and_congr_right fun _ => ite_fail_ok_iff.trans ?_)
    refine and_congr (by simp) (editUser_ok_iff.trans (exists_congr fun user => ?_))
    refine and_congr_right fun _ => ?_
    split <;> simp_all

/-- A change that is made leaves the users as they are if and only if it repeats what is there. -/
theorem AccountOp.edit_eq_self_iff {op : AccountOp}
    (h : op.edit crypto users = .ok (users', index)) : users' = users ↔ op.Repeats users := by
  obtain ⟨-, hlookup⟩ := edit_ok h
  obtain ⟨-, hpasses⟩ := edit_ok_iff.mp ⟨_, h⟩
  have hself : users' = users ↔ op.effect (users.lookup op.target) = users.lookup op.target := by
    constructor
    · rintro rfl
      exact ((hlookup op.target).trans (if_pos rfl)).symm
    · intro heffect
      refine Finmap.ext_lookup fun name => ?_
      rw [hlookup]
      split_ifs with hname
      · rw [hname, heffect]
      · rfl
  rw [hself]
  cases op with
  | addUser user =>
    simp [effect, target, Repeats, show users.lookup user.username = none from hpasses]
  | deleteUser username =>
    obtain ⟨user, huser⟩ := hpasses
    simp [effect, target, Repeats, huser]
  | updatePassword username value | updateTOTP username value =>
    obtain ⟨-, user, huser⟩ := hpasses
    simp only [effect, target, Repeats, huser, Option.map_some, Option.some.injEq]
    exact ⟨fun heq => (congrArg _ heq).symm, fun heq => by rw [← heq]⟩
  | addLoginPubKey userID pubKey =>
    obtain ⟨-, key, -, user, huser, -⟩ := hpasses
    simp only [effect, target, Repeats, huser, Option.map_some, Option.some.injEq, iff_false]
    intro heq
    have hkeys := congrArg (fun u => u.loginPubKeys.length) heq
    simp at hkeys
  | removeLoginPubKey userID index =>
    obtain ⟨hpos, user, huser, hle⟩ := hpasses
    simp only [effect, target, Repeats, huser, Option.map_some, Option.some.injEq, iff_false]
    intro heq
    have hkeys := congrArg (fun u => u.loginPubKeys.length) heq
    simp only [length_eraseIdx] at hkeys
    split_ifs at hkeys <;> omega

end Centaurx.Auth
