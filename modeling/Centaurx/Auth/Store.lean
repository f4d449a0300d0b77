import Centaurx.Schema
import Mathlib.Data.Finmap

namespace Centaurx
open Go

namespace Auth

structure User where
  username : GoString
  passwordHash : GoString
  totpSecret : GoString
  loginPubKeys : List GoString
  deriving DecidableEq

abbrev UserMap := Finmap (fun _ : GoString => User)

structure FileState where
  modTime : Int
  size : Int
  inode : ℕ
  dev : ℕ
  deriving DecidableEq

/-- What the file system answers to one query: a stat, and if the file has changed, the parsed
contents and a second stat. -/
structure Disk where
  stat : Except GoString FileState
  read : Except GoString (List User)
  restat : Except GoString FileState

structure Store where
  users : UserMap
  fileState : FileState

/-- The keys and codes of other packages. -/
structure Crypto (Key : Type) where
  parseAuthorizedKey : GoString → Option Key
  marshal : Key → GoString
  /-- `totp.Validate` at a time. -/
  validate : (now : ℕ) → (code secret : GoString) → Bool

def validateUsername (username : GoString) : Except GoString GoString :=
  if validateUserID username then .ok username else .error (lit "invalid username")

/-- A later record of a username replaces an earlier one. -/
def userMap (users : List User) : UserMap := users.foldl (fun next u => next.insert u.username u) ∅

def loadFromDisk (disk : Disk) : Except GoString Store :=
  match disk.read with
  | .error err => .error err
  | .ok users =>
    match disk.restat with
    | .error err => .error err
    | .ok state =>
      if users.all (fun u => validateUserID u.username) then .ok ⟨userMap users, state⟩
      else .error (lit "invalid username")

def refreshIfNeeded (disk : Disk) (s : Store) : Except GoString Store :=
  match disk.stat with
  | .error err => .error err
  -- An unchanged file is not read, even if it would fail to load.
  | .ok latest => if s.fileState = latest then .ok s else loadFromDisk disk

/-- A query meets the store and the disk as they are then. -/
structure Moment where
  store : Store
  disk : Disk
  now : ℕ

variable {Key : Type} (crypto : Crypto Key)

def keyEqual (raw : GoString) (key : Key) : Bool :=
  match crypto.parseAuthorizedKey (trimSpace raw) with
  | none => false
  | some parsed => crypto.marshal parsed = crypto.marshal key

/-- The refresh, the check of the username and the lookup that a query begins with. -/
def findUser (m : Moment) (username missing : GoString) : Except GoString User :=
  match refreshIfNeeded m.disk m.store with
  | .error err => .error err
  | .ok s =>
    match validateUsername username with
    | .error err => .error err
    | .ok username =>
      match s.users.lookup username with
      | none => .error missing
      | some user => .ok user

def hasLoginPubKey (m : Moment) (userID : UserID) (key : Key) : Except GoString Bool :=
  (findUser m userID (lit "user not found")).map
    (fun user => user.loginPubKeys.any (fun raw => keyEqual crypto raw key))

def validateTOTP (m : Moment) (username totpCode : GoString) : Except GoString Unit :=
  match findUser m username (lit "invalid credentials") with
  | .error err => .error err
  | .ok user =>
    if crypto.validate m.now totpCode user.totpSecret then .ok ()
    else .error (lit "invalid totp")

/-- The record of a user at a moment. -/
def IsUser (m : Moment) (username : GoString) (user : User) : Prop :=
  ∃ s, refreshIfNeeded m.disk m.store = .ok s ∧ s.users.lookup username = some user

/-- The user has a login key that is the given one. -/
def Registered (m : Moment) (username : GoString) (key : Key) : Prop :=
  ∃ user, IsUser m username user ∧ ∃ raw ∈ user.loginPubKeys, ∃ parsed,
    crypto.parseAuthorizedKey (trimSpace raw) = some parsed ∧
      crypto.marshal parsed = crypto.marshal key

/-- The code is valid at the moment for the secret of the user. -/
def ValidCode (m : Moment) (username code : GoString) : Prop :=
  ∃ user, IsUser m username user ∧ crypto.validate m.now code user.totpSecret = true

theorem findUser_ok {m : Moment} {username missing : GoString} {user : User}
    (h : findUser m username missing = .ok user) : IsUser m username user := by
  simp only [findUser] at h
  split at h
  · cases h
  · next s hs =>
    by_cases hv : validateUserID username = true
    · simp only [validateUsername, hv, if_true] at h
      split at h
      · cases h
      · next hu =>
        cases h
        exact ⟨s, hs, hu⟩
    · simp [validateUsername, hv] at h

variable {crypto}

theorem keyEqual_iff {raw : GoString} {key : Key} : keyEqual crypto raw key = true ↔
    ∃ parsed, crypto.parseAuthorizedKey (trimSpace raw) = some parsed ∧
      crypto.marshal parsed = crypto.marshal key := by
  simp only [keyEqual]
  split
  · next h => simp [h]
  · next parsed h => simp [h]

theorem hasLoginPubKey_true {m : Moment} {userID : UserID} {key : Key}
    (h : hasLoginPubKey crypto m userID key = .ok true) : Registered crypto m userID key := by
  simp only [hasLoginPubKey] at h
  cases hfind : findUser m userID (lit "user not found") with
  | error err => simp [hfind, Except.map] at h
  | ok user =>
    simp only [hfind, Except.map, Except.ok.injEq, List.any_eq_true] at h
    obtain ⟨raw, hraw, heq⟩ := h
    exact ⟨user, findUser_ok hfind, raw, hraw, keyEqual_iff.mp heq⟩

theorem validateTOTP_ok {m : Moment} {username code : GoString}
    (h : validateTOTP crypto m username code = .ok ()) : ValidCode crypto m username code := by
  simp only [validateTOTP] at h
  split at h
  · cases h
  · next user hfind =>
    split_ifs at h with hv
    exact ⟨user, findUser_ok hfind, hv⟩

end Auth

end Centaurx
