import Centaurx.Lib.Maps
import Centaurx.Lib.Runs
import Centaurx.Schema

namespace Centaurx
open Go Runs List

structure Session where
  userID : UserID
  expiresAt : Int
  deriving DecidableEq

structure SessionRecord where
  token : GoString
  session : Session
  deriving DecidableEq

abbrev Sessions := Finmap (fun _ : GoString => Session)

/-- The map of the records that are kept. -/
def collect (keep : SessionRecord → Bool) (records : List SessionRecord) : Sessions :=
  records.foldl (fun entries r => if keep r then entries.insert r.token r.session else entries) ∅

/-- The checks of `load`. -/
def SessionRecord.loadable (now : Int) (r : SessionRecord) : Bool :=
  !blank r.token && !blank r.session.userID && !decide (now > r.session.expiresAt)

/-- A map is read in any order. -/
structure Lists (records : List SessionRecord) (items : Sessions) : Prop where
  nodup : (records.map SessionRecord.token).Nodup
  collect_eq : collect (fun _ => true) records = items

instance (records : List SessionRecord) (items : Sessions) : Decidable (Lists records items) :=
  decidable_of_iff ((records.map SessionRecord.token).Nodup ∧
    collect (fun _ => true) records = items) ⟨fun h => ⟨h.1, h.2⟩, fun h => ⟨h.1, h.2⟩⟩

/-- The store and its file. -/
structure SessionStore where
  items : Sessions := ∅
  file : Option (List SessionRecord) := none
  now : Int := 0
  /-- The number of calls that have changed the map and not taken their snapshot. -/
  owing : ℕ := 0
  /-- Snapshots that are not renamed yet, in the order in which they were taken. -/
  writes : List (List SessionRecord) := []
  /-- All tokens that were created. Nothing reads this. -/
  created : List SessionRecord := []
  /-- All tokens that were removed by `delete`. Nothing reads this. -/
  deleted : List GoString := []

inductive SessionStep
  | tick (d : ℕ)
  | create (userID : UserID) (token : GoString)
  | get (token : GoString)
  | delete (token : GoString)
  | snapshot (records : List SessionRecord)
  | rename (i : ℕ)
  /-- The process starts again when no call is in flight; the records are written if some were
  not loaded. -/
  | restart (records : List SessionRecord)

namespace SessionStore

/-- The session that `get` returns. -/
def lookup (s : SessionStore) (token : GoString) : Option Session :=
  match s.items.lookup token with
  | none => none
  | some entry => if s.now > entry.expiresAt then none else some entry

def create (ttl : Int) (s : SessionStore) (userID : UserID) (token : GoString) : SessionStore :=
  let entry : Session := ⟨userID, s.now + ttl⟩
  { s with
    items := s.items.insert token entry
    owing := s.owing + 1
    created := s.created ++ [⟨token, entry⟩] }

def get (s : SessionStore) (token : GoString) : SessionStore :=
  match s.items.lookup token with
  | none => s
  | some entry =>
    if s.now > entry.expiresAt then
      { s with items := s.items.erase token, owing := s.owing + 1 }
    else s

def delete (s : SessionStore) (token : GoString) : SessionStore :=
  match s.items.lookup token with
  | none => s
  | some _ =>
    { s with
      items := s.items.erase token
      owing := s.owing + 1
      deleted := s.deleted ++ [token] }

def snapshot (s : SessionStore) (records : List SessionRecord) : SessionStore :=
  if 0 < s.owing ∧ Lists records s.items then
    { s with owing := s.owing - 1, writes := s.writes ++ [records] }
  else s

def rename (s : SessionStore) (i : ℕ) : SessionStore :=
  match s.writes[i]? with
  | none => s
  | some records => { s with file := some records, writes := s.writes.eraseIdx i }

/-- `newSessionStore`. -/
def restart (s : SessionStore) (records : List SessionRecord) : SessionStore :=
  let old := s.file.getD []
  let items := collect (SessionRecord.loadable s.now) old
  if s.owing = 0 ∧ s.writes = [] ∧ Lists records items then
    let file := if old.length ≠ items.keys.card then some records else s.file
    { s with items := items, file := file }
  else s

def step (ttl : Int) (s : SessionStore) : SessionStep → SessionStore
  | .tick d => { s with now := s.now + d }
  | .create userID token => s.create ttl userID token
  | .get token => s.get token
  | .delete token => s.delete token
  | .snapshot records => s.snapshot records
  | .rename i => s.rename i
  | .restart records => s.restart records

/-- Tokens are new and, like the names of users, not blank; and snapshots are renamed in the order
in which they were taken. -/
def InTurn (s : SessionStore) : SessionStep → Prop
  | .create userID token => token ∉ s.created.map SessionRecord.token ∧ blank token = false ∧
      blank userID = false
  | .rename i => i = 0
  | .tick _ | .get _ | .delete _ | .snapshot _ | .restart _ => True

instance (s : SessionStore) : ∀ op, Decidable (s.InTurn op)
  | .create .. => inferInstanceAs (Decidable (_ ∧ _))
  | .rename _ => inferInstanceAs (Decidable (_ = _))
  | .tick _ | .get _ | .delete _ | .snapshot _ | .restart _ => isTrue trivial

end SessionStore

theorem lookup_collect {keep : SessionRecord → Bool} {records : List SessionRecord}
    (h : (records.map SessionRecord.token).Nodup) (token : GoString) (session : Session) :
    (collect keep records).lookup token = some session ↔
      keep ⟨token, session⟩ = true ∧ ⟨token, session⟩ ∈ records := by
  rw [collect, Maps.lookup_foldl_insert h]
  constructor
  · rintro ⟨⟨t, e⟩, hmem, hkeep, rfl, rfl⟩
    exact ⟨hkeep, hmem⟩
  · rintro ⟨hkeep, hmem⟩
    exact ⟨_, hmem, hkeep, rfl, rfl⟩

theorem Lists.lookup {records : List SessionRecord} {items : Sessions} (h : Lists records items)
    (token : GoString) (session : Session) :
    items.lookup token = some session ↔ ⟨token, session⟩ ∈ records := by
  rw [← h.collect_eq, lookup_collect h.nodup]
  simp

namespace SessionStore

/-- The newest snapshot, on its way or in the file. -/
def latest (s : SessionStore) : List SessionRecord := s.writes.getLast?.getD (s.file.getD [])

structure Inv (s : SessionStore) : Prop where
  known : ∀ token session, s.items.lookup token = some session → ⟨token, session⟩ ∈ s.created
  distinct : (s.created.map SessionRecord.token).Nodup
  nonblank : ∀ r ∈ s.created, blank r.token = false ∧ blank r.session.userID = false
  deleted_known : ∀ token ∈ s.deleted, token ∈ s.created.map SessionRecord.token
  gone : ∀ token ∈ s.deleted, s.items.lookup token = none
  kept : ∀ r ∈ s.created, r.token ∉ s.deleted → s.now ≤ r.session.expiresAt →
    s.items.lookup r.token = some r.session
  latest_nodup : (s.latest.map SessionRecord.token).Nodup
  /-- When nothing is owed, the newest snapshot has the sessions that have not expired. -/
  saved : s.owing = 0 → ∀ token session, s.now ≤ session.expiresAt →
    (s.items.lookup token = some session ↔ ⟨token, session⟩ ∈ s.latest)

variable {s : SessionStore}

theorem inv_new : ({} : SessionStore).Inv :=
  ⟨by simp, by simp, by simp, by simp, by simp, by simp, by simp [latest], by simp [latest]⟩

theorem Inv.tick (h : s.Inv) (d : ℕ) : { s with now := s.now + d }.Inv := by
  refine ⟨h.known, h.distinct, h.nonblank, h.deleted_known, h.gone, fun r hr hdel hnow => ?_,
    h.latest_nodup, fun howing token session hnow => ?_⟩
  · exact h.kept r hr hdel (by dsimp only at hnow; omega)
  · exact h.saved howing token session (by dsimp only at hnow; omega)

theorem Inv.create (h : s.Inv) (ttl : Int) {userID : UserID} {token : GoString}
    (hop : s.InTurn (.create userID token)) : (s.create ttl userID token).Inv := by
  obtain ⟨hfresh, htoken, huser⟩ := hop
  have hdel : token ∉ s.deleted := fun hmem => hfresh (h.deleted_known token hmem)
  refine ⟨fun t e hlookup => ?_, ?_, fun r hr => ?_, fun t ht => ?_, fun t ht => ?_,
    fun r hr hgone hnow => ?_, h.latest_nodup, fun howing => absurd howing (Nat.succ_ne_zero _)⟩
  · by_cases heq : t = token
    · subst heq
      simp only [SessionStore.create, Finmap.lookup_insert, Option.some.injEq] at hlookup
      simp [SessionStore.create, hlookup]
    · simp only [SessionStore.create, Finmap.lookup_insert_of_ne _ heq] at hlookup
      exact mem_append_left _ (h.known t e hlookup)
  · simp only [SessionStore.create, map_append, map_singleton]
    exact nodup_append.mpr ⟨h.distinct, nodup_singleton _, fun t ht t' ht' heq =>
      hfresh (by rw [← mem_singleton.mp ht', ← heq]; exact ht)⟩
  · rcases mem_append.mp hr with hr | hr
    · exact h.nonblank r hr
    · rw [mem_singleton.mp hr]
      exact ⟨htoken, huser⟩
  · simp only [SessionStore.create, map_append]
    exact mem_append_left _ (h.deleted_known t ht)
  · have hne : t ≠ token := fun heq => hdel (heq ▸ ht)
    simp only [SessionStore.create, Finmap.lookup_insert_of_ne _ hne]
    exact h.gone t ht
  · rcases mem_append.mp hr with hr | hr
    · have hne : r.token ≠ token := fun heq => hfresh (heq ▸ mem_map_of_mem hr)
      simp only [SessionStore.create, Finmap.lookup_insert_of_ne _ hne]
      exact h.kept r hr hgone hnow
    · rw [mem_singleton.mp hr]
      exact Finmap.lookup_insert _

theorem lookup_erase_some {items : Sessions} {token t : GoString} {e : Session}
    (h : (items.erase token).lookup t = some e) : t ≠ token ∧ items.lookup t = some e := by
  by_cases heq : t = token
  · subst heq
    rw [Finmap.lookup_erase] at h
    cases h
  · rw [Finmap.lookup_erase_ne heq] at h
    exact ⟨heq, h⟩

/-- A session leaves the table when it has expired, or is deleted. -/
theorem Inv.erase (h : s.Inv) {token : GoString} {session : Session} {deleted : List GoString}
    (hitem : s.items.lookup token = some session)
    (hdeleted : ∀ t ∈ deleted, t = token ∨ t ∈ s.deleted) (hstill : ∀ t ∈ s.deleted, t ∈ deleted)
    (hlost : s.now ≤ session.expiresAt → token ∈ deleted) :
    Inv { s with items := s.items.erase token, owing := s.owing + 1, deleted := deleted } := by
  refine ⟨fun t e hlookup => h.known t e (lookup_erase_some hlookup).2, h.distinct, h.nonblank,
    fun t ht => ?_, fun t ht => ?_, fun r hr hgone hnow => ?_, h.latest_nodup,
    fun howing => absurd howing (Nat.succ_ne_zero _)⟩
  · rcases hdeleted t ht with rfl | ht
    · exact mem_map_of_mem (h.known t session hitem)
    · exact h.deleted_known t ht
  · by_cases heq : t = token
    · rw [heq]
      exact Finmap.lookup_erase _ _
    · rw [Finmap.lookup_erase_ne heq]
      exact h.gone t ((hdeleted t ht).resolve_left heq)
  · have hkept := h.kept r hr (fun hmem => hgone (hstill _ hmem)) hnow
    have hne : r.token ≠ token := by
      intro heq
      rw [heq, hitem] at hkept
      obtain rfl := Option.some.inj hkept
      exact hgone (heq ▸ hlost hnow)
    rw [Finmap.lookup_erase_ne hne]
    exact hkept

theorem Inv.get (h : s.Inv) (token : GoString) : (s.get token).Inv := by
  rw [SessionStore.get]
  split
  · exact h
  · next entry hentry =>
    split
    · next hexpired =>
      refine h.erase hentry (fun _ => .inr) (fun _ => id) fun hnow => ?_
      exact absurd hexpired (not_lt.mpr hnow)
    · exact h

theorem Inv.delete (h : s.Inv) (token : GoString) : (s.delete token).Inv := by
  rw [SessionStore.delete]
  split
  · exact h
  · next entry hentry =>
    refine h.erase hentry (fun t ht => ?_) (fun t => mem_append_left _) fun _ => ?_
    · exact (mem_append.mp ht).symm.imp_left mem_singleton.mp
    · exact mem_append_right _ (mem_singleton_self token)

theorem Inv.snapshot (h : s.Inv) (records : List SessionRecord) : (s.snapshot records).Inv := by
  rw [SessionStore.snapshot]
  split
  · rename_i hop
    have hlatest : latest { s with owing := s.owing - 1, writes := s.writes ++ [records] } =
        records := by
      simp [latest]
    refine ⟨h.known, h.distinct, h.nonblank, h.deleted_known, h.gone, h.kept, ?_,
      fun _ token session _ => ?_⟩
    · rw [hlatest]
      exact hop.2.nodup
    · rw [hlatest]
      exact hop.2.lookup token session
  · exact h

theorem Inv.rename (h : s.Inv) {i : ℕ} (hop : s.InTurn (.rename i)) : (s.rename i).Inv := by
  have hi : i = 0 := hop
  subst hi
  cases hwrites : s.writes with
  | nil =>
    simp only [SessionStore.rename, hwrites, getElem?_nil]
    exact h
  | cons w ws =>
    have hlatest : (s.rename 0).latest = s.latest := by
      simp only [latest, SessionStore.rename, hwrites, getElem?_cons_zero,
        eraseIdx_cons_zero, getLast?_cons, Option.getD_some]
    have hlatest' := h.latest_nodup
    have hsaved := h.saved
    rw [← hlatest] at hlatest' hsaved
    simp only [SessionStore.rename, hwrites, getElem?_cons_zero] at hlatest' hsaved ⊢
    exact ⟨h.known, h.distinct, h.nonblank, h.deleted_known, h.gone, h.kept, hlatest', hsaved⟩

/-- The file has what had not expired, so a new process has it, too. -/
theorem Inv.restart (h : s.Inv) (records : List SessionRecord) : (s.restart records).Inv := by
  rw [SessionStore.restart]
  dsimp only
  split
  · rename_i hop
    obtain ⟨howing, hwrites, hlists⟩ := hop
    have hfile : s.file.getD [] = s.latest := by simp [latest, hwrites]
    have hload : ∀ token session,
        (collect (SessionRecord.loadable s.now) (s.file.getD [])).lookup token = some session ↔
          s.now ≤ session.expiresAt ∧ s.items.lookup token = some session := by
      intro token session
      rw [hfile, lookup_collect h.latest_nodup]
      constructor
      · rintro ⟨hloadable, hmem⟩
        simp only [SessionRecord.loadable, Bool.and_eq_true, Bool.not_eq_true',
          decide_eq_false_iff_not, not_lt, gt_iff_lt] at hloadable
        exact ⟨hloadable.2, (h.saved howing token session hloadable.2).mpr hmem⟩
      · rintro ⟨hnow, hlookup⟩
        obtain ⟨htoken, huser⟩ := h.nonblank _ (h.known token session hlookup)
        refine ⟨?_, (h.saved howing token session hnow).mp hlookup⟩
        simp only [SessionRecord.loadable, Bool.and_eq_true, Bool.not_eq_true',
          decide_eq_false_iff_not, not_lt, gt_iff_lt]
        exact ⟨⟨htoken, huser⟩, hnow⟩
    have hlatest : ∀ file, latest { s with
        items := collect (SessionRecord.loadable s.now) (s.file.getD []), file := file } =
        file.getD [] := by
      intro file
      simp [latest, hwrites]
    refine ⟨fun token session hlookup => h.known token session ((hload token session).mp hlookup).2,
      h.distinct, h.nonblank, h.deleted_known, fun token ht => ?_, fun r hr hgone hnow => ?_, ?_,
      fun _ token session hnow => ?_⟩
    · cases hlookup : (collect (SessionRecord.loadable s.now) (s.file.getD [])).lookup token with
      | none => rfl
      | some session =>
        have hold := ((hload token session).mp hlookup).2
        rw [h.gone token ht] at hold
        cases hold
    · exact (hload r.token r.session).mpr ⟨hnow, h.kept r hr hgone hnow⟩
    · rw [hlatest]
      split
      · exact hlists.nodup
      · rw [hfile]
        exact h.latest_nodup
    · rw [hlatest]
      split
      · exact hlists.lookup token session
      · have hsaved := h.saved howing token session hnow
        rw [← hfile] at hsaved
        exact ((hload token session).trans (and_iff_right hnow)).trans hsaved
  · exact h

theorem Inv.step (h : s.Inv) {ttl : Int} {op : SessionStep} (hop : s.InTurn op) :
    (s.step ttl op).Inv := by
  cases op with
  | tick d => exact h.tick d
  | create userID token => exact h.create ttl hop
  | get token => exact h.get token
  | delete token => exact h.delete token
  | snapshot records => exact h.snapshot records
  | rename i => exact h.rename hop
  | restart records => exact h.restart records

end SessionStore

/-- **Logout.** In a run in which snapshots are renamed in turn, with restarts whenever no call is
in flight, a token that was deleted gives no session, and a token that was created, not deleted
and has not expired gives the session of its user. -/
theorem logout_is_final (ttl : Int) (run : List SessionStep)
    (hrun : Meets (SessionStore.step ttl) SessionStore.InTurn {} run) :
    let s := exec (SessionStore.step ttl) {} run
    (∀ token ∈ s.deleted, s.lookup token = none) ∧
      ∀ r ∈ s.created, r.token ∉ s.deleted → s.now ≤ r.session.expiresAt →
        s.lookup r.token = some r.session := by
  intro s
  have h : s.Inv := hrun.invariant (I := SessionStore.Inv) (fun _ _ h hop => h.step hop)
    SessionStore.inv_new
  refine ⟨fun token ht => ?_, fun r hr hgone hnow => ?_⟩
  · rw [SessionStore.lookup, h.gone token ht]
  · rw [SessionStore.lookup, h.kept r hr hgone hnow]
    exact if_neg (not_lt.mpr hnow)

/-- A login, and a logout that waits for the file of the login. -/
theorem logout_is_final_restart :
    let alice : SessionRecord := ⟨lit "t", ⟨lit "alice", 100⟩⟩
    let s := exec (SessionStore.step 100) {} [.create (lit "alice") (lit "t"), .delete (lit "t"),
      .snapshot [], .snapshot [], .rename 0, .rename 0, .restart []]
    alice ∈ s.created ∧ lit "t" ∈ s.deleted ∧ s.lookup (lit "t") = none :=
  ⟨by decide, by decide, (logout_is_final 100 _ (by decide)).1 (lit "t") (by decide)⟩

/-- The snapshot of the login is renamed after that of the logout. -/
theorem logout_undone :
    let s := exec (SessionStore.step 100) {} [.create (lit "alice") (lit "t"),
      .snapshot [⟨lit "t", ⟨lit "alice", 100⟩⟩], .delete (lit "t"), .snapshot [], .rename 1,
      .rename 0, .restart [⟨lit "t", ⟨lit "alice", 100⟩⟩]]
    lit "t" ∈ s.deleted ∧ s.lookup (lit "t") = some ⟨lit "alice", 100⟩ := by
  decide

end Centaurx
