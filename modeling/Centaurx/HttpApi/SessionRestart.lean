import Centaurx.HttpApi.Sessions

namespace Centaurx.HttpSessions
open Go List

structure HttpSession where
  id : GoString
  userID : UserID
  expiresAt : Int
  deriving DecidableEq

abbrev Items := Finmap fun _ : GoString => HttpSession

/-- `sessionRecord`; the encoder keeps its fields. -/
structure StoredSession where
  token : GoString
  sessionID : GoString
  userID : UserID
  expiresAt : Int
  deriving DecidableEq

/-- `newSession`; `drawn` is a new random id. -/
def newSession (userID : UserID) (expiresAt : Int) (sessionID drawn : GoString) : HttpSession :=
  ⟨if blank sessionID then drawn else sessionID, userID, expiresAt⟩

/-- The session that `get` returns. -/
def answer (items : Items) (now : Int) (token : GoString) : Option HttpSession :=
  match items.lookup token with
  | none => none
  | some entry => if now > entry.expiresAt then none else some entry

inductive SessionCall
  /-- With the random token and the random id. -/
  | create (userID : UserID) (token id : GoString)
  | get (token : GoString)
  | delete (token : GoString)

/-- The map after a call. -/
def call (ttl : Int) (items : Items) (now : Int) : SessionCall → Items
  | .create userID token id => items.insert token (newSession userID (now + ttl) [] id)
  | .get token =>
    match items.lookup token with
    | none => items
    | some entry => if now > entry.expiresAt then items.erase token else items
  | .delete token => items.erase token

/-- Calls with the times at which they are made. -/
def serve (ttl : Int) (calls : List (Int × SessionCall)) : Items :=
  calls.foldl (fun items c => call ttl items c.1 c.2) ∅

/-- Names of users are not blank, and neither is what the random source gives. -/
def SessionCall.Works : SessionCall → Prop
  | .create userID token id => blank userID = false ∧ blank token = false ∧ blank id = false
  | .get _ | .delete _ => True

instance : (c : SessionCall) → Decidable c.Works
  | .create .. => inferInstanceAs (Decidable (_ ∧ _ ∧ _))
  | .get _ | .delete _ => isTrue trivial

/-- The map of the records that are kept. -/
def collect (keep : StoredSession → Bool) (session : StoredSession → HttpSession)
    (records : List StoredSession) : Items :=
  records.foldl (fun items r => if keep r then items.insert r.token (session r) else items) ∅

/-- `snapshot`: the records of the map, in any order. -/
structure Snapshot (items : Items) (records : List StoredSession) : Prop where
  nodup : (records.map StoredSession.token).Nodup
  collect_eq : collect (fun _ => true) (fun r => ⟨r.sessionID, r.userID, r.expiresAt⟩) records =
    items

def StoredSession.loadable (now : Int) (r : StoredSession) : Bool :=
  !blank r.token && !blank r.userID && !decide (now > r.expiresAt)

/-- `load`. -/
def load (now : Int) (drawn : StoredSession → GoString) : List StoredSession → Items :=
  collect (StoredSession.loadable now) fun r =>
    newSession r.userID r.expiresAt r.sessionID (drawn r)

/-- Nothing in the map is blank. -/
def Named (items : Items) : Prop := ∀ token entry, items.lookup token = some entry →
  blank token = false ∧ blank entry.userID = false ∧ blank entry.id = false

variable {items : Items}

theorem Named.erase (h : Named items) (token : GoString) : Named (items.erase token) := by
  intro t entry hlookup
  rw [Maps.lookup_erase_eq] at hlookup
  split_ifs at hlookup
  exact h t entry hlookup

theorem Named.call (h : Named items) (ttl now : Int) {c : SessionCall} (hc : c.Works) :
    Named (call ttl items now c) := by
  cases c with
  | create userID token id =>
    intro t entry hlookup
    rw [HttpSessions.call, Maps.lookup_insert_eq] at hlookup
    split_ifs at hlookup with htoken
    · obtain rfl := Option.some.inj hlookup
      exact ⟨htoken ▸ hc.2.1, hc.1, hc.2.2⟩
    · exact h t entry hlookup
  | get token =>
    simp only [HttpSessions.call]
    split
    · exact h
    · split_ifs
      · exact h.erase token
      · exact h
  | delete token => exact h.erase token

theorem named_serve (ttl : Int) {calls : List (Int × SessionCall)}
    (hcalls : ∀ c ∈ calls, c.2.Works) : Named (serve ttl calls) := by
  induction calls using reverseRecOn with
  | nil => exact fun _ _ h => by simp [serve] at h
  | append_singleton calls c ih =>
    rw [serve, foldl_append]
    exact (ih fun c' hc' => hcalls c' (mem_append_left _ hc')).call ttl c.1 (hcalls c (by simp))

theorem Snapshot.lookup {records : List StoredSession} (h : Snapshot items records)
    (token : GoString) (entry : HttpSession) : items.lookup token = some entry ↔
      ⟨token, entry.id, entry.userID, entry.expiresAt⟩ ∈ records := by
  rw [← h.collect_eq, collect, Maps.lookup_foldl_insert h.nodup]
  constructor
  · rintro ⟨r, hr, -, rfl, rfl⟩
    exact hr
  · exact fun hr => ⟨_, hr, rfl, rfl, rfl⟩

theorem lookup_load (hnamed : Named items) {records : List StoredSession}
    (hrecords : Snapshot items records) (start : Int) (drawn : StoredSession → GoString)
    (token : GoString) (entry : HttpSession) :
    (load start drawn records).lookup token = some entry ↔
      items.lookup token = some entry ∧ start ≤ entry.expiresAt := by
  rw [load, collect, Maps.lookup_foldl_insert hrecords.nodup]
  constructor
  · rintro ⟨⟨token, sessionID, userID, expiresAt⟩, hr, hload, rfl, rfl⟩
    have hlookup := (hrecords.lookup token ⟨sessionID, userID, expiresAt⟩).mpr hr
    have hid := (hnamed _ _ hlookup).2.2
    simp only [StoredSession.loadable, Bool.and_eq_true, Bool.not_eq_true', decide_eq_false_iff_not,
      not_lt, gt_iff_lt] at hload
    simp only [newSession, hid]
    exact ⟨hlookup, hload.2⟩
  · rintro ⟨hlookup, hstart⟩
    obtain ⟨htoken, huser, hid⟩ := hnamed token entry hlookup
    refine ⟨_, (hrecords.lookup token entry).mp hlookup, ?_, rfl, ?_⟩
    · simp [StoredSession.loadable, htoken, huser, hstart]
    · simp [newSession, hid]

theorem answer_eq_some {now : Int} {token : GoString} {entry : HttpSession} :
    answer items now token = some entry ↔
      items.lookup token = some entry ∧ now ≤ entry.expiresAt := by
  rw [answer]
  cases items.lookup token with
  | none => simp
  | some e =>
    dsimp only
    split_ifs with hexpired
    · refine iff_of_false nofun fun ⟨heq, hnow⟩ => ?_
      obtain rfl := Option.some.inj heq
      exact absurd hnow (not_le.mpr hexpired)
    · refine (and_iff_left_of_imp fun heq => ?_).symm
      exact Option.some.inj heq ▸ not_lt.mp hexpired

/-- **Restart.** The sessions are written to the file, and a new process loads them. From then on
`get` answers every token as the old process would: with the same user, session id and expiry, or
not at all. -/
theorem sessions_survive_restart (ttl : Int) (calls : List (Int × SessionCall))
    (hcalls : ∀ c ∈ calls, c.2.Works) (records : List StoredSession)
    (hrecords : Snapshot (serve ttl calls) records) (drawn : StoredSession → GoString)
    (start now : Int) (hnow : start ≤ now) (token : GoString) :
    answer (load start drawn records) now token = answer (serve ttl calls) now token := by
  have hload := lookup_load (named_serve ttl hcalls) hrecords start drawn token
  refine Option.ext fun entry => ?_
  rw [answer_eq_some, answer_eq_some, hload, and_assoc]
  exact and_congr_right fun _ => and_iff_right_of_imp hnow.trans

/-- One session is left, one was deleted and one has expired. -/
theorem sessions_survive_restart_three :
    let calls : List (Int × SessionCall) := [(-60, .create (lit "alice") (lit "e") (lit "s1")),
      (0, .create (lit "alice") (lit "t") (lit "s2")),
      (0, .create (lit "bob") (lit "d") (lit "s3")), (10, .delete (lit "d"))]
    let records : List StoredSession :=
      [⟨lit "t", lit "s2", lit "alice", 100⟩, ⟨lit "e", lit "s1", lit "alice", 40⟩]
    Snapshot (serve 100 calls) records ∧
      [lit "t", lit "d", lit "e"].map (answer (load 50 (fun _ => []) records) 60) =
        [some ⟨lit "s2", lit "alice", 100⟩, none, none] := by
  intro calls records
  have hsnapshot : Snapshot (serve 100 calls) records := ⟨by decide, by decide⟩
  refine ⟨hsnapshot, ?_⟩
  rw [map_congr_left fun token _ =>
    sessions_survive_restart 100 calls (by decide) records hsnapshot _ 50 60 (by decide) token]
  decide

/-- The store is this one without the ids of the sessions. -/
def Forgets (items : Items) (sessions : Sessions) : Prop :=
  ∀ token, sessions.lookup token = (items.lookup token).map fun e => ⟨e.userID, e.expiresAt⟩

def SessionCall.step : SessionCall → SessionStep
  | .create userID token _ => .create userID token
  | .get token => .get token
  | .delete token => .delete token

def StoredSession.record (r : StoredSession) : SessionRecord := ⟨r.token, ⟨r.userID, r.expiresAt⟩⟩

theorem Forgets.erase {sessions : Sessions} (h : Forgets items sessions) (token : GoString) :
    Forgets (items.erase token) (sessions.erase token) := fun t => by
  rw [Maps.lookup_erase_eq, Maps.lookup_erase_eq]
  split_ifs
  · rfl
  · exact h t

theorem Forgets.call {s : SessionStore} (h : Forgets items s.items) (ttl : Int) (c : SessionCall) :
    Forgets (call ttl items s.now c) (s.step ttl c.step).items := by
  cases c with
  | create userID token id =>
    intro t
    simp only [SessionCall.step, SessionStore.step, SessionStore.create, HttpSessions.call,
      Maps.lookup_insert_eq]
    split_ifs
    · rfl
    · exact h t
  | get token =>
    simp only [SessionCall.step, SessionStore.step, SessionStore.get, HttpSessions.call, h token]
    cases items.lookup token with
    | none => exact h
    | some entry =>
      simp only [Option.map_some]
      split_ifs
      · exact h.erase token
      · exact h
  | delete token =>
    simp only [SessionCall.step, SessionStore.step, SessionStore.delete, HttpSessions.call]
    cases hentry : s.items.lookup token with
    | none =>
      -- there is nothing to erase
      intro t
      rw [← h.erase token t, Maps.lookup_erase_eq]
      split_ifs with heq
      · rw [heq, hentry]
      · rfl
    | some entry => exact h.erase token

/-- **The store without ids.** From states that agree but for the ids, every call leads to such
states again, `get` finds the same sessions, and a file is loaded alike. -/
theorem store_without_ids {s : SessionStore} (h : Forgets items s.items) (ttl : Int) :
    (∀ c, Forgets (call ttl items s.now c) (s.step ttl c.step).items) ∧
      (∀ token, s.lookup token =
        (answer items s.now token).map fun e => ⟨e.userID, e.expiresAt⟩) ∧
      ∀ records drawn, (records.map StoredSession.token).Nodup →
        Forgets (load s.now drawn records)
          (Centaurx.collect (SessionRecord.loadable s.now) (records.map StoredSession.record)) := by
  refine ⟨h.call ttl, fun token => ?_, fun records drawn hnodup token => Option.ext fun e => ?_⟩
  · rw [SessionStore.lookup, answer, h token]
    cases items.lookup token with
    | none => rfl
    | some entry =>
      simp only [Option.map_some]
      split_ifs <;> rfl
  · rw [lookup_collect (by rwa [map_map]), Option.map_eq_some_iff, mem_map]
    simp only [load, collect, Maps.lookup_foldl_insert hnodup]
    constructor
    · rintro ⟨hload, r, hr, heq⟩
      obtain ⟨rfl, rfl⟩ := SessionRecord.mk.inj heq
      exact ⟨_, ⟨r, hr, hload, rfl, rfl⟩, rfl⟩
    · rintro ⟨_, ⟨r, hr, hload, rfl, rfl⟩, rfl⟩
      exact ⟨hload, r, hr, rfl⟩

end Centaurx.HttpSessions
