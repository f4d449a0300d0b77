import Centaurx.Paths.Tenants

namespace Centaurx
open Go FilePath List

/-- `sanitize`. -/
def sanitize (uni : Unicode) (value : GoString) : GoString :=
  (runes value).flatMap fun r =>
    if uni.isLetter r.1 || uni.isDigit r.1 then encodeRune r.1
    else if r.1 = 0x2D || r.1 = 0x5F || r.1 = 0x2E then encodeRune r.1
    else [0x5F]

/-- `pathForUser` of the store in a directory. -/
def pathForUser (uni : Unicode) (dir : GoString) (userID : UserID) : GoString :=
  let name := sanitize uni userID
  let name := if name = [] then lit "unknown" else name
  join [dir, name ++ lit ".json"]

/-- The fields of the configuration that name files in the state directory. -/
structure StateConfig where
  stateDir : GoString
  userFile : GoString
  sessionStorePath : GoString
  deriving DecidableEq

/-- `DefaultConfig` for a home directory. -/
def defaultConfig (home : GoString) : StateConfig :=
  let stateDir := join [home, lit ".centaurx", lit "state"]
  { stateDir := stateDir
    userFile := join [stateDir, lit "users.json"]
    sessionStorePath := join [stateDir, lit "sessions.json"] }

theorem userByte_kept {uni : Unicode} (huni : uni.Lawful) {b : UInt8} (hb : userByte b = true) :
    (if uni.isLetter b.toNat || uni.isDigit b.toNat then encodeRune b.toNat
      else if b.toNat = 0x2D || b.toNat = 0x5F || b.toNat = 0x2E then encodeRune b.toNat
      else [0x5F]) = [b] := by
  have hlt : b.toNat < 0x80 := UInt8.lt_iff_toNat_lt.mp (userByte_lt hb)
  have henc : encodeRune b.toNat = [b] := by
    rw [encodeRune, if_pos hlt, ofNat_of_toNat rfl]
  rw [huni.isLetter _ hlt, huni.isDigit _ hlt, henc]
  simp only [userByte, Bool.or_eq_true, Bool.and_eq_true, decide_eq_true_eq] at hb
  simp only [Unicode.ascii, Bool.or_eq_true, Bool.and_eq_true, decide_eq_true_eq]
  split_ifs with h1 h2
  · rfl
  · rfl
  · exact absurd hb (by omega)

theorem sanitize_userID {uni : Unicode} (huni : uni.Lawful) {u : UserID}
    (hu : validateUserID u = true) : sanitize uni u = u := by
  have hb := validateUserID_bytes hu
  have hrunes := runes_ascii (fun b hub => userByte_lt (hb b hub))
  rw [sanitize, hrunes, flatMap_map]
  clear hu hrunes
  induction u with
  | nil => rfl
  | cons b u ih =>
    rw [flatMap_cons, ih (fun c hc => hb c (mem_cons_of_mem _ hc))]
    exact congrArg (· ++ u) (userByte_kept huni (hb b (by simp)))

theorem pathForUser_userID {uni : Unicode} (huni : uni.Lawful) {u : UserID}
    (hu : validateUserID u = true) (dir : GoString) :
    pathForUser uni dir u = join [dir, u ++ lit ".json"] := by
  simp [pathForUser, sanitize_userID huni hu, validateUserID_ne_nil hu]

theorem plain_json {u : UserID} (hu : validateUserID u = true) : Plain (u ++ lit ".json") := by
  have hlen : 6 ≤ (u ++ lit ".json").length := by
    have h5 : (lit ".json").length = 5 := by decide
    have hpos : 0 < u.length := length_pos_iff.mpr (validateUserID_ne_nil hu)
    rw [length_append]
    omega
  refine ⟨?_, ?_, ?_, ?_⟩
  · intro h
    rw [h] at hlen
    exact absurd hlen (by decide)
  · intro h
    rw [h] at hlen
    exact absurd hlen (by decide)
  · intro h
    rw [h] at hlen
    exact absurd hlen (by decide)
  · intro h
    rcases mem_append.mp h with h | h
    · exact userByte_ne_sep (validateUserID_bytes hu sep h) rfl
    · exact absurd h (by decide)

theorem join_json_iff {dir : GoString} (hdir : dir ≠ []) {u v : UserID}
    (hu : validateUserID u = true) (hv : validateUserID v = true) :
    join [dir, u ++ lit ".json"] = join [dir, v ++ lit ".json"] ↔ u = v := by
  constructor
  · intro h
    exact append_cancel_right (join_plain_inj hdir (plain_json hu) (plain_json hv) h)
  · rintro rfl
    rfl

/-- No two snapshots share a file, and no snapshot is the file of another store. -/
structure FilesApart (uni : Unicode) (cfg : StateConfig) (u v : UserID) : Prop where
  snapshots : pathForUser uni cfg.stateDir u ≠ pathForUser uni cfg.stateDir v
  users : ∀ w ∈ [u, v], pathForUser uni cfg.stateDir w ≠ cfg.userFile
  sessions : ∀ w ∈ [u, v], pathForUser uni cfg.stateDir w ≠ cfg.sessionStorePath

/-- Snapshots never collide with each other, and with the two other files only for the users
that are called like them. -/
theorem state_files_apart {uni : Unicode} (huni : uni.Lawful) {home : GoString} (hhome : home ≠ [])
    {u v : UserID} (hu : validateUserID u = true) (hv : validateUserID v = true) (huv : u ≠ v) :
    FilesApart uni (defaultConfig home) u v ↔
      ∀ w ∈ [u, v], w ≠ lit "users" ∧ w ≠ lit "sessions" := by
  have hdir : (defaultConfig home).stateDir ≠ [] := by
    rw [defaultConfig, join_triple hhome]
    exact join_ne_nil (join_ne_nil hhome _) _
  have hvalid : ∀ w ∈ [u, v], validateUserID w = true := by
    simp [hu, hv]
  have husers : ∀ w ∈ [u, v], (pathForUser uni (defaultConfig home).stateDir w =
      (defaultConfig home).userFile ↔ w = lit "users") := by
    intro w hw
    have hname : lit "users.json" = lit "users" ++ lit ".json" := by decide
    rw [pathForUser_userID huni (hvalid w hw), defaultConfig, hname]
    exact join_json_iff hdir (hvalid w hw) (by decide)
  have hsessions : ∀ w ∈ [u, v], (pathForUser uni (defaultConfig home).stateDir w =
      (defaultConfig home).sessionStorePath ↔ w = lit "sessions") := by
    intro w hw
    have hname : lit "sessions.json" = lit "sessions" ++ lit ".json" := by decide
    rw [pathForUser_userID huni (hvalid w hw), defaultConfig, hname]
    exact join_json_iff hdir (hvalid w hw) (by decide)
  constructor
  · intro h w hw
    exact ⟨fun he => h.users w hw ((husers w hw).mpr he),
      fun he => h.sessions w hw ((hsessions w hw).mpr he)⟩
  · intro h
    refine ⟨?_, fun w hw he => (h w hw).1 ((husers w hw).mp he),
      fun w hw he => (h w hw).2 ((hsessions w hw).mp he)⟩
    rw [pathForUser_userID huni hu, pathForUser_userID huni hv]
    exact fun he => huv ((join_json_iff hdir hu hv).mp he)

theorem state_files_apart_aliceAndBob :
    FilesApart Unicode.ascii (defaultConfig (lit "/home/cx")) (lit "alice") (lit "bob") :=
  (state_files_apart Unicode.ascii_lawful (by decide) (by decide) (by decide) (by decide)).mpr
    (by decide)

/-- The user `users` is accepted, and its snapshot is written over the file of all accounts. -/
theorem snapshot_is_user_file :
    validateUserID (lit "users") = true ∧
      pathForUser Unicode.ascii (defaultConfig (lit "/home/cx")).stateDir (lit "users") =
        (defaultConfig (lit "/home/cx")).userFile ∧
      validateUserID (lit "sessions") = true ∧
      pathForUser Unicode.ascii (defaultConfig (lit "/home/cx")).stateDir (lit "sessions") =
        (defaultConfig (lit "/home/cx")).sessionStorePath := by
  decide

end Centaurx
