import Centaurx.Auth.Store
import Centaurx.Lib.Runs

namespace Centaurx
open Go Runs List

namespace SshServer

open Auth

/-- How the SSH library tells the handlers and the session the user of a connection, from the
users that its requests have named. When all name one user, it is that one. -/
structure Library where
  user : List UserID → UserID
  sessionUser : List UserID → UserID
  user_eq : ∀ u us, us ≠ [] → (∀ v ∈ us, v = u) → user us = u
  sessionUser_eq : ∀ u us, us ≠ [] → (∀ v ∈ us, v = u) → sessionUser us = u

inductive AuthRequest (Key : Type)
  /-- An offer of a key, or a request with a signature, which verifies under the key or not. -/
  | publicKey (user : UserID) (key : Key) (signature : Option Bool)
  /-- The answers to the challenge, unless it fails. -/
  | keyboardInteractive (user : UserID) (answers : Option (List GoString))

def AuthRequest.user {Key : Type} : AuthRequest Key → UserID
  | .publicKey user _ _ => user
  | .keyboardInteractive user _ => user

structure Context where
  /-- The users named by the requests so far. -/
  users : List UserID
  loginPubKeyOK : Bool
  /-- A request has been granted. -/
  granted : Bool

def Context.init : Context := { users := [], loginPubKeyOK := false, granted := false }

variable {Key : Type} (lib : Library) (crypto : Crypto Key)

def handlePublicKey (ctx : Context) (m : Moment) (key : Key) : Context × Bool :=
  let userID := lib.user ctx.users
  if userID = [] then (ctx, false)
  else
    match hasLoginPubKey crypto m userID key with
    | .error _ => (ctx, false)
    | .ok false => (ctx, false)
    -- The request fails all the same; the mark is its only effect.
    | .ok true => ({ ctx with loginPubKeyOK := true }, false)

def handleKeyboardInteractive (ctx : Context) (m : Moment) (answers : Option (List GoString)) :
    Bool :=
  if ctx.loginPubKeyOK ≠ true then false
  else
    match answers with
    | some [code] =>
      match validateTOTP crypto m (lib.user ctx.users) code with
      | .error _ => false
      | .ok () => true
    | _ => false

/-- One request. The library asks for no more of them after it has granted one. -/
def step (ctx : Context) (request : Moment × AuthRequest Key) : Context :=
  if ctx.granted then ctx
  else
    let ctx := { ctx with users := ctx.users ++ [request.2.user] }
    match request with
    | (m, .publicKey _ key signature) =>
      -- The library looks at the signature only of a key that the handler accepts.
      let (ctx, accepted) := handlePublicKey lib crypto ctx m key
      { ctx with granted := accepted && signature = some true }
    | (m, .keyboardInteractive _ answers) =>
      { ctx with granted := handleKeyboardInteractive lib crypto ctx m answers }

/-- `handleSession`: the text of a rejection, or the user of the terminal session. -/
def handleSession (user : UserID) (pty : Bool) : Except GoString UserID :=
  if user = [] then .error (lit "missing user\n")
  else if pty = false then .error (lit "pty required\n")
  else .ok user

/-- The user of the terminal session that the connection gets. -/
def terminal (ctx : Context) (pty : Bool) : Option UserID :=
  if ctx.granted then (handleSession (lib.sessionUser ctx.users) pty).toOption else none

/-- The request names the user `u`, and if it offers a login key of that user on a connection
that is not marked yet, it is signed. -/
def Signed (u : UserID) (ctx : Context) : Moment × AuthRequest Key → Prop
  | (m, .publicKey user key signature) => user = u ∧ (ctx.loginPubKeyOK = false →
      hasLoginPubKey crypto m u key = .ok true → signature = some true)
  | (_, .keyboardInteractive user _) => user = u

instance (u : UserID) (ctx : Context) :
    (r : Moment × AuthRequest Key) → Decidable (Signed crypto u ctx r)
  | (_, .publicKey ..) => inferInstanceAs (Decidable (_ ∧ _))
  | (_, .keyboardInteractive ..) => inferInstanceAs (Decidable (_ = _))

/-- The client has proved that it has a login key of the user. -/
def KeyProved (u : UserID) (rs : List (Moment × AuthRequest Key)) : Prop :=
  ∃ m key, (m, .publicKey u key (some true)) ∈ rs ∧ Registered crypto m u key

/-- The client has given a code of the user. -/
def CodeGiven (u : UserID) (rs : List (Moment × AuthRequest Key)) : Prop :=
  ∃ m code, (m, .keyboardInteractive u (some [code])) ∈ rs ∧ ValidCode crypto m u code

/-- What a connection on which all requests are for `u` says about them. -/
structure Proved (u : UserID) (past : List (Moment × AuthRequest Key)) (ctx : Context) : Prop where
  users : ∀ v ∈ ctx.users, v = u
  key : ctx.loginPubKeyOK = true → KeyProved crypto u past
  granted : ctx.granted = true → ctx.users ≠ [] ∧ KeyProved crypto u past ∧ CodeGiven crypto u past

variable {lib crypto} {u : UserID} {past rs : List (Moment × AuthRequest Key)} {ctx : Context}

theorem KeyProved.append (h : KeyProved crypto u past) : KeyProved crypto u (past ++ rs) := by
  obtain ⟨m, key, hin, hreg⟩ := h
  exact ⟨m, key, mem_append_left _ hin, hreg⟩

theorem CodeGiven.append (h : CodeGiven crypto u past) : CodeGiven crypto u (past ++ rs) := by
  obtain ⟨m, code, hin, hvalid⟩ := h
  exact ⟨m, code, mem_append_left _ hin, hvalid⟩

theorem Proved.append (h : Proved crypto u past ctx) (rs : List (Moment × AuthRequest Key)) :
    Proved crypto u (past ++ rs) ctx where
  users := h.users
  key hk := (h.key hk).append
  granted hg := by
    obtain ⟨hne, hkey, hcode⟩ := h.granted hg
    exact ⟨hne, hkey.append, hcode.append⟩

theorem Proved.named (h : Proved crypto u past ctx) :
    Proved crypto u past { ctx with users := ctx.users ++ [u] } where
  users v hv := by
    rcases mem_append.mp hv with hv | hv
    · exact h.users v hv
    · exact mem_singleton.mp hv
  key := h.key
  granted hg := ⟨by simp, (h.granted hg).2⟩

theorem Proved.user (h : Proved crypto u past ctx) (lib : Library) (hne : ctx.users ≠ []) :
    lib.user ctx.users = u := lib.user_eq u _ hne h.users

/-- The handler for public keys grants nothing, and marks the connection when the key is one of
the user's. -/
theorem handlePublicKey_cases (lib : Library) (crypto : Crypto Key) (ctx : Context) (m : Moment)
    (key : Key) :
    handlePublicKey lib crypto ctx m key = (ctx, false) ∨
      hasLoginPubKey crypto m (lib.user ctx.users) key = .ok true ∧
        handlePublicKey lib crypto ctx m key = ({ ctx with loginPubKeyOK := true }, false) := by
  simp only [handlePublicKey]
  split_ifs
  · exact .inl rfl
  · split
    · exact .inl rfl
    · exact .inl rfl
    · next h => exact .inr ⟨h, rfl⟩

theorem handleKeyboardInteractive_true {m : Moment} {answers : Option (List GoString)}
    (h : handleKeyboardInteractive lib crypto ctx m answers = true) :
    ctx.loginPubKeyOK = true ∧ ∃ code, answers = some [code] ∧
      validateTOTP crypto m (lib.user ctx.users) code = .ok () := by
  simp only [handleKeyboardInteractive] at h
  split_ifs at h with hok
  split at h
  · next code =>
    split at h
    · cases h
    · next hv => exact ⟨not_not.mp hok, code, rfl, hv⟩
  · cases h

theorem Proved.publicKey (h : Proved crypto u past ctx) (hg : ctx.granted = false) {m : Moment}
    {key : Key} {signature : Option Bool}
    (hs : ctx.loginPubKeyOK = false → hasLoginPubKey crypto m u key = .ok true →
      signature = some true) :
    Proved crypto u (past ++ [(m, .publicKey u key signature)])
      (step lib crypto ctx (m, .publicKey u key signature)) := by
  have hnamed := h.named
  have huser := hnamed.user lib (by simp)
  have happ := hnamed.append [(m, .publicKey u key signature)]
  rw [step, if_neg (by simp [hg])]
  simp only [AuthRequest.user]
  rcases handlePublicKey_cases lib crypto { ctx with users := ctx.users ++ [u] } m key with
    heq | ⟨hhas, heq⟩
  · simp only [heq]
    exact ⟨happ.users, happ.key, by simp⟩
  · rw [huser] at hhas
    simp only [heq]
    refine ⟨happ.users, fun _ => ?_, by simp⟩
    -- The connection was marked before, by a proved key, or this request marks it.
    cases hok : ctx.loginPubKeyOK with
    | true => exact happ.key hok
    | false =>
      refine ⟨m, key, ?_, hasLoginPubKey_true hhas⟩
      rw [hs hok hhas]
      simp

theorem Proved.keyboardInteractive (h : Proved crypto u past ctx) (hg : ctx.granted = false)
    {m : Moment} {answers : Option (List GoString)} :
    Proved crypto u (past ++ [(m, .keyboardInteractive u answers)])
      (step lib crypto ctx (m, .keyboardInteractive u answers)) := by
  have hnamed := h.named
  have huser := hnamed.user lib (by simp)
  have happ := hnamed.append [(m, .keyboardInteractive u answers)]
  rw [step, if_neg (by simp [hg])]
  simp only [AuthRequest.user]
  refine ⟨happ.users, happ.key, ?_⟩
  intro hgrant
  obtain ⟨hok, code, rfl, hvalid⟩ := handleKeyboardInteractive_true hgrant
  rw [huser] at hvalid
  exact ⟨by simp, happ.key hok, m, code, by simp, validateTOTP_ok hvalid⟩

theorem Proved.step (h : Proved crypto u past ctx) {r : Moment × AuthRequest Key}
    (hr : Signed crypto u ctx r) :
    Proved crypto u (past ++ [r]) (SshServer.step lib crypto ctx r) := by
  cases hg : ctx.granted with
  | true =>
    simp only [SshServer.step, hg, if_true]
    exact h.append _
  | false =>
    obtain ⟨m, request⟩ := r
    cases request with
    | publicKey user key signature =>
      obtain ⟨rfl, hs⟩ := hr
      exact h.publicKey hg hs
    | keyboardInteractive user answers =>
      obtain rfl : user = u := hr
      exact h.keyboardInteractive hg

/-- On a connection whose requests all name one user, and on which the first offer of one of that
user's login keys is signed, a terminal session is opened only after a signature with a key of
its user and a valid code. -/
theorem two_factors (lib : Library) (crypto : Crypto Key) (rs : List (Moment × AuthRequest Key))
    (v : UserID) (hsigned : Meets (step lib crypto) (Signed crypto v) Context.init rs)
    (pty : Bool) (u : UserID)
    (hopen : terminal lib (exec (step lib crypto) Context.init rs) pty = some u) :
    KeyProved crypto u rs ∧ CodeGiven crypto u rs := by
  have hinit : Proved crypto v [] Context.init :=
    ⟨by simp [Context.init], by simp [Context.init], by simp [Context.init]⟩
  have h : Proved crypto v rs (exec (step lib crypto) Context.init rs) :=
    hsigned.history (I := Proved crypto v) (fun _ _ _ h hr => h.step hr) hinit
  simp only [terminal] at hopen
  split_ifs at hopen with hg
  obtain ⟨hne, hkey, hcode⟩ := h.granted hg
  rw [lib.sessionUser_eq v _ hne h.users] at hopen
  have hu : v = u := by
    simp only [handleSession] at hopen
    split_ifs at hopen
    · cases hopen
    · cases hopen
    · exact Option.some.inj hopen
  exact hu ▸ ⟨hkey, hcode⟩

/-- The context of a connection keeps the user of the first request, its session is that of the
last. -/
def keptUser : Library where
  user us := us.headD []
  sessionUser us := us.getLastD []
  user_eq u us hne h := by
    rw [headD_eq_head?_getD, head?_eq_some_head hne]
    exact h _ (head_mem hne)
  sessionUser_eq u us hne h := by
    rw [getLastD_eq_getLast?, getLast?_eq_some_getLast hne]
    exact h _ (getLast_mem hne)

/-- Keys that are their own text, and codes that are the secret. -/
def plainCrypto : Crypto GoString where
  parseAuthorizedKey := some
  marshal := id
  validate _ code secret := code = secret

/-- Two users with one login key each. -/
def twoUsers : Moment where
  store :=
    { users := userMap
        [⟨lit "alice", lit "hash", lit "111111", [lit "alice-key"]⟩,
          ⟨lit "bob", lit "hash", lit "222222", [lit "bob-key"]⟩]
      fileState := ⟨0, 0, 0, 0⟩ }
  disk := { stat := .ok ⟨0, 0, 0, 0⟩, read := .error [], restat := .error [] }
  now := 0

def signedLogin : List (Moment × AuthRequest GoString) :=
  [(twoUsers, .publicKey (lit "alice") (lit "alice-key") (some true)),
    (twoUsers, .keyboardInteractive (lit "alice") (some [lit "111111"]))]

theorem two_factors_signedLogin :
    terminal keptUser (exec (step keptUser plainCrypto) Context.init signedLogin) true =
        some (lit "alice") ∧
      KeyProved plainCrypto (lit "alice") signedLogin ∧
      CodeGiven plainCrypto (lit "alice") signedLogin := by
  refine ⟨by decide, ?_⟩
  exact two_factors keptUser plainCrypto signedLogin (lit "alice") (by decide) true _ (by decide)

/-- The public key alone, without a signature. -/
def unsignedLogin : List (Moment × AuthRequest GoString) :=
  [(twoUsers, .publicKey (lit "alice") (lit "alice-key") none),
    (twoUsers, .keyboardInteractive (lit "alice") (some [lit "111111"]))]

/-- The key and the code of one user, with the name of another at the end. -/
def otherKeyLogin : List (Moment × AuthRequest GoString) :=
  [(twoUsers, .publicKey (lit "bob") (lit "bob-key") (some true)),
    (twoUsers, .keyboardInteractive (lit "alice") (some [lit "222222"]))]

theorem login_without_key :
    (terminal keptUser (exec (step keptUser plainCrypto) Context.init unsignedLogin) true =
        some (lit "alice") ∧ ¬ KeyProved plainCrypto (lit "alice") unsignedLogin) ∧
      (terminal keptUser (exec (step keptUser plainCrypto) Context.init otherKeyLogin) true =
        some (lit "alice") ∧ ¬ KeyProved plainCrypto (lit "alice") otherKeyLogin ∧
        ¬ CodeGiven plainCrypto (lit "alice") otherKeyLogin) := by
  refine ⟨⟨by decide, ?_⟩, by decide, ?_, ?_⟩
  · rintro ⟨m, key, hin, -⟩
    simp [unsignedLogin] at hin
  · rintro ⟨m, key, hin, -⟩
    simp [otherKeyLogin] at hin
    exact absurd hin.2.1 (by decide)
  · rintro ⟨m, code, hin, hvalid⟩
    obtain ⟨rfl, rfl⟩ : m = twoUsers ∧ code = lit "222222" := by simpa [otherKeyLogin] using hin
    obtain ⟨user, ⟨store, hstore, hlookup⟩, hcode⟩ := hvalid
    obtain rfl : twoUsers.store = store := Except.ok.inj hstore
    obtain rfl := Option.some.inj (hlookup.symm.trans (show _ = some
      (⟨lit "alice", lit "hash", lit "111111", [lit "alice-key"]⟩ : User) by decide))
    exact absurd hcode (by decide)

end SshServer

end Centaurx
