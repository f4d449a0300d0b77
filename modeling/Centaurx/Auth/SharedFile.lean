import Centaurx.Auth.FailedChanges
import Centaurx.Paths.Tenants

namespace Centaurx.Auth
open Go Maps Runs List Function User

/-- Where a call stands. What was read has with it the version of the file it was read from. -/
inductive CallPhase
  | stat
  | compare (latest : FileState)
  | read
  | restat (users : List User) (version : ℕ)
  | install (users : List User) (state : FileState) (version : ℕ)
  | locked
  deriving DecidableEq

/-- A change, or a query, which only refreshes. -/
structure SharedCall where
  store : ℕ
  op : Option AccountOp
  phase : CallPhase
  deriving DecidableEq

structure Shared where
  file : UserFile
  stores : ℕ → Store
  calls : List SharedCall := []
  /-- How often the file was saved. This and what follows is read by no call. -/
  version : ℕ := 0
  /-- The version that the users of a store come from; none for a store that was not loaded. -/
  origin : ℕ → Option ℕ := fun _ => none
  /-- The state of the file in each version. -/
  states : List FileState
  acknowledged : List AccountOp := []

inductive SharedStep
  /-- `NewStore`, when the file exists. -/
  | newStore (k : ℕ)
  | begin (k : ℕ) (op : Option AccountOp)
  /-- A call makes its next step; the state is that of the file it saves. -/
  | advance (i : ℕ) (state : FileState)

namespace Shared

def emptyStore : Store := ⟨∅, ⟨0, 0, 0, 0⟩⟩

def start (file : UserFile) : Shared where
  file := file
  stores := fun _ => emptyStore
  states := [file.state]

def newStore (s : Shared) (k : ℕ) : Shared :=
  if s.calls.all fun c => c.store ≠ k then
    { s with
      stores := update s.stores k emptyStore
      origin := update s.origin k none
      calls := s.calls ++ [⟨k, none, .read⟩] }
  else s

def setPhase (s : Shared) (i : ℕ) (c : SharedCall) (phase : CallPhase) : Shared :=
  { s with calls := s.calls.set i { c with phase := phase } }

def finish (s : Shared) (i : ℕ) : Shared := { s with calls := s.calls.eraseIdx i }

/-- `s.users = next`, under the lock. -/
def install (s : Shared) (k : ℕ) (users : List User) (state : FileState) (version : ℕ) : Shared :=
  { s with
    stores := update s.stores k ⟨userMap users, state⟩
    origin := update s.origin k (some version) }

variable (coding : Coding) {Key : Type} (crypto : Crypto Key)

/-- The new users and `saveLocked`, under the lock. -/
def save (s : Shared) (k : ℕ) (op : AccountOp) (users : UserMap) (state : FileState) : Shared :=
  { s with
    file := ⟨.ok ((records users).map (coded coding)), state⟩
    stores := update s.stores k ⟨users, state⟩
    version := s.version + 1
    origin := update s.origin k (some (s.version + 1))
    states := s.states ++ [state]
    acknowledged := s.acknowledged ++ [op] }

def advance (s : Shared) (i : ℕ) (state : FileState) : Shared :=
  match s.calls[i]? with
  | none => s
  | some c =>
    match c.phase with
    | .stat => s.setPhase i c (.compare s.file.state)
    | .compare latest =>
      s.setPhase i c (if (s.stores c.store).fileState = latest then .locked else .read)
    | .read =>
      match s.file.contents with
      | .error _ => s.finish i
      | .ok users => s.setPhase i c (.restat users s.version)
    | .restat users version => s.setPhase i c (.install users s.file.state version)
    | .install users state version =>
      if users.all fun u => validateUserID u.username then
        (s.install c.store users state version).setPhase i c .locked
      else s.finish i
    | .locked =>
      match c.op with
      | none => s.finish i
      | some op =>
        match op.edit crypto (s.stores c.store).users with
        | .error _ => s.finish i
        | .ok (users, _) => (s.save coding c.store op users state).finish i

def step (s : Shared) : SharedStep → Shared
  | .newStore k => s.newStore k
  | .begin k op => { s with calls := s.calls ++ [⟨k, op, .stat⟩] }
  | .advance i state => s.advance coding crypto i state

/-- What a call must find: users are installed only if the file was not saved since they were
read; a change is made only if the file was not saved by others since the store's users were read
or saved; and a new file can be told from all earlier ones. -/
def InTurnCall (s : Shared) (state : FileState) (c : SharedCall) : Prop :=
  match c.phase with
  | .install _ _ version => version = s.version
  | .locked => c.op ≠ none → s.origin c.store = some s.version ∧ state ∉ s.states
  | .stat | .compare _ | .read | .restat .. => True

instance (s : Shared) (state : FileState) : ∀ c, Decidable (s.InTurnCall state c)
  | ⟨_, _, .install ..⟩ => inferInstanceAs (Decidable (_ = _))
  | ⟨_, _, .locked⟩ => inferInstanceAs (Decidable (_ → _))
  | ⟨_, _, .stat⟩ | ⟨_, _, .compare _⟩ | ⟨_, _, .read⟩ | ⟨_, _, .restat ..⟩ => isTrue trivial

def InTurn (s : Shared) : SharedStep → Prop
  | .advance i state => ∀ c ∈ s.calls[i]?, s.InTurnCall state c
  | .newStore _ | .begin .. => True

instance (s : Shared) : ∀ op, Decidable (s.InTurn op)
  | .advance .. => inferInstanceAs (Decidable (∀ _, _))
  | .newStore _ | .begin .. => isTrue trivial

end Shared

section File

variable {coding : Coding} {users : UserMap}

/-- Users stand under their own names, and the names are valid. -/
def Keyed (users : UserMap) : Prop :=
  ∀ name user, users.lookup name = some user →
    user.username = name ∧ validateUserID name = true

variable {name : GoString}

theorem str_name (h : validateUserID name = true) : coding.str name = name :=
  coding.str_valid name (validUTF8_of_ascii fun b hb => userByte_lt (validateUserID_bytes h b hb))

theorem coded_coded (u : User) : (u.coded coding).coded coding = u.coded coding := by
  have hstr : ∀ s, coding.str (coding.str s) = coding.str s := fun s =>
    coding.str_valid _ (coding.valid_str s)
  simp [coded, hstr]

theorem sortedKeys_perm (l : AList fun _ : GoString => User) :
    (sortedKeys l.toFinmap).Perm l.keys := perm_insertionSort _ _

theorem mem_sortedKeys : name ∈ sortedKeys users ↔ name ∈ users := by
  induction users using Finmap.induction_on with
  | H l => exact (sortedKeys_perm l).mem_iff

theorem sortedKeys_nodup : (sortedKeys users).Nodup := by
  induction users using Finmap.induction_on with
  | H l => exact (sortedKeys_perm l).nodup_iff.mpr l.keys_nodup

theorem map_username_filterMap (h : Keyed users) {names : List GoString}
    (hnames : ∀ name ∈ names, name ∈ users) :
    (names.filterMap users.lookup).map username = names := by
  induction names with
  | nil => rfl
  | cons name names ih =>
    obtain ⟨user, huser⟩ := Finmap.mem_iff.mp (hnames name mem_cons_self)
    rw [filterMap_cons, huser, map_cons, (h name user huser).1,
      ih fun n hn => hnames n (mem_cons_of_mem _ hn)]

theorem mem_records {user : User} :
    user ∈ records users ↔ ∃ name, users.lookup name = some user := by
  rw [records, mem_filterMap]
  refine ⟨fun ⟨name, _, h⟩ => ⟨name, h⟩, fun ⟨name, h⟩ => ⟨name, ?_, h⟩⟩
  exact mem_sortedKeys.mpr (Finmap.mem_iff.mpr ⟨user, h⟩)

variable {l : List User}

theorem lookup_userMap (h : (l.map username).Nodup) {user : User} :
    (userMap l).lookup name = some user ↔ user ∈ l ∧ user.username = name := by
  have hmap := @lookup_foldl_insert _ _ _ _ (fun _ => true) username id l h name user
  simp only [if_true, id, true_and] at hmap
  rw [userMap, hmap]
  constructor
  · rintro ⟨u, hu, hname, rfl⟩
    exact ⟨hu, hname⟩
  · rintro ⟨hu, hname⟩
    exact ⟨user, hu, hname, rfl⟩

theorem mem_of_lookup_userMap {user : User} (h : (userMap l).lookup name = some user) :
    user ∈ l := by
  induction l using reverseRecOn with
  | nil => simp [userMap] at h
  | append_singleton l u ih =>
    rw [userMap, foldl_append, foldl_cons, foldl_nil, lookup_insert_eq] at h
    split_ifs at h
    · cases h
      exact mem_append_right _ (mem_singleton_self _)
    · exact mem_append_left _ (ih h)

theorem coded_lookup (h : ∀ u ∈ l, u.coded coding = u) (name : GoString) :
    ((userMap l).lookup name).map (coded coding) = (userMap l).lookup name := by
  cases hname : (userMap l).lookup name with
  | none => rfl
  | some user => exact congrArg some (h user (mem_of_lookup_userMap hname))

theorem userMap_keyed (h : ∀ u ∈ l, validateUserID u.username = true) : Keyed (userMap l) := by
  induction l using reverseRecOn with
  | nil =>
    intro name user hlookup
    simp [userMap] at hlookup
  | append_singleton l u ih =>
    intro name user hlookup
    rw [userMap, foldl_append, foldl_cons, foldl_nil, lookup_insert_eq] at hlookup
    split_ifs at hlookup with hname
    · cases hlookup
      rw [hname]
      exact ⟨rfl, h u (by simp)⟩
    · exact ih (fun u hu => h u (mem_append_left _ hu)) name user hlookup

/-- A saved file has the users of the map. -/
theorem lookup_saved (h : Keyed users) (name : GoString) :
    (userMap ((records users).map (coded coding))).lookup name =
      (users.lookup name).map (coded coding) := by
  have husername : ∀ u ∈ records users, (u.coded coding).username = u.username := by
    intro u hu
    obtain ⟨n, hn⟩ := mem_records.mp hu
    obtain ⟨hname, hvalid⟩ := h n u hn
    exact str_name (by rw [hname]; exact hvalid)
  have hnodup : (((records users).map (coded coding)).map username).Nodup := by
    have hmap : ((records users).map (coded coding)).map username =
        (records users).map username := by
      rw [map_map]
      exact map_congr_left husername
    rw [hmap, records, map_username_filterMap h fun n hn => mem_sortedKeys.mp hn]
    exact sortedKeys_nodup
  refine Option.ext fun user => ?_
  rw [lookup_userMap hnodup, Option.map_eq_some_iff, mem_map]
  constructor
  · rintro ⟨⟨u, hu, rfl⟩, hname⟩
    rw [husername u hu] at hname
    obtain ⟨n, hn⟩ := mem_records.mp hu
    obtain rfl := (h n u hn).1.symm.trans hname
    exact ⟨u, hn, rfl⟩
  · rintro ⟨u, hu, rfl⟩
    have hmem := mem_records.mpr ⟨name, hu⟩
    exact ⟨⟨u, hmem, rfl⟩, (husername u hmem).trans (h name u hu).1⟩

end File

/-- The record of a user after changes. -/
def replay (ops : List AccountOp) (name : GoString) (user : Option User) : Option User :=
  ops.foldl (fun user op => if op.target = name then op.effect user else user) user

theorem replay_append (ops : List AccountOp) (op : AccountOp) (name : GoString)
    (user : Option User) : replay (ops ++ [op]) name user =
      if op.target = name then op.effect (replay ops name user) else replay ops name user := by
  rw [replay, foldl_append]
  rfl

theorem map_coded {coding : Coding} {f g : User → User} {user user' : Option User}
    (hfg : ∀ u, (f u).coded coding = g (u.coded coding))
    (h : user.map (coded coding) = user'.map (coded coding)) :
    (user.map f).map (coded coding) = (user'.map f).map (coded coding) := by
  have hmap : ∀ o : Option User, (o.map f).map (coded coding) =
      (o.map (coded coding)).map g := by
    intro o
    cases o with
    | none => rfl
    | some u => exact congrArg some (hfg u)
  rw [hmap, hmap, h]

/-- Changes do not look at what the coding of strings has changed. -/
theorem AccountOp.effect_coded {coding : Coding} (op : AccountOp) {user user' : Option User}
    (h : user.map (coded coding) = user'.map (coded coding)) :
    (op.effect user).map (coded coding) = (op.effect user').map (coded coding) := by
  cases op with
  | addUser u | deleteUser name => rfl
  | updatePassword name hash =>
    exact map_coded (g := fun u => { u with passwordHash := coding.str hash }) (fun _ => rfl) h
  | updateTOTP name secret =>
    exact map_coded (g := fun u => { u with totpSecret := coding.str secret }) (fun _ => rfl) h
  | addLoginPubKey name key =>
    exact map_coded (g := fun u =>
      { u with loginPubKeys := u.loginPubKeys ++ [coding.str (trimSpace key)] })
      (fun _ => by simp [coded]) h
  | removeLoginPubKey name index =>
    exact map_coded (g := fun u =>
      { u with loginPubKeys := u.loginPubKeys.eraseIdx (index.toNat - 1) })
      (fun _ => by simp [coded, eraseIdx_map]) h

theorem AccountOp.effect_username {op : AccountOp} {user : Option User} {u : User}
    (h : op.effect user = some u) (huser : ∀ u' ∈ user, u'.username = op.target) :
    u.username = op.target := by
  have hmap : ∀ {f : User → User}, user.map f = some u → (∀ u, (f u).username = u.username) →
      u.username = op.target := by
    intro f hu hf
    obtain ⟨u', hu', rfl⟩ := Option.map_eq_some_iff.mp hu
    rw [hf]
    exact huser u' hu'
  cases op with
  | addUser user' =>
    cases h
    rfl
  | deleteUser name => cases h
  | updatePassword name hash | updateTOTP name secret => exact hmap h fun _ => rfl
  | addLoginPubKey name key | removeLoginPubKey name index => exact hmap h fun _ => rfl

theorem AccountOp.edit_keyed {Key : Type} {crypto : Crypto Key} {op : AccountOp}
    {users users' : UserMap} {index : ℕ} (hk : Keyed users)
    (h : op.edit crypto users = .ok (users', index)) : Keyed users' := by
  obtain ⟨hvalid, hlookup⟩ := op.edit_ok h
  intro name user hname
  rw [hlookup] at hname
  split_ifs at hname with htarget
  · subst htarget
    exact ⟨op.effect_username hname fun u hu => (hk _ u hu).1, hvalid⟩
  · exact hk name user hname

namespace Shared

variable {coding : Coding} {Key : Type} {crypto : Crypto Key} {seed : List User} {s : Shared}

/-- The record of a user when the acknowledged changes are made one after the other. -/
def expected (coding : Coding) (seed : List User) (s : Shared) (name : GoString) : Option User :=
  (replay s.acknowledged name ((userMap (seed.map (coded coding))).lookup name)).map
    (coded coding)

/-- What a call has read is what is in the file, as long as the file was not saved. -/
def CallOk (s : Shared) (c : SharedCall) : Prop :=
  match c.phase with
  | .restat users version => version ≤ s.version ∧
      (version = s.version → s.file.contents = .ok users)
  | .install users state version => version ≤ s.version ∧
      (version = s.version → s.file.contents = .ok users ∧ state = s.file.state)
  | .stat | .compare _ | .read | .locked => True

structure Inv (coding : Coding) (seed : List User) (s : Shared) : Prop where
  contents : ∃ users, s.file.contents = .ok users ∧ (∀ u ∈ users, u.coded coding = u) ∧
    (∀ name, (userMap users).lookup name = s.expected coding seed name) ∧
    ∀ k, s.origin k ≠ none → ∀ u ∈ users, validateUserID u.username = true
  keyed : ∀ k, Keyed (s.stores k).users
  current : ∀ k, s.origin k = some s.version → ∀ name,
    ((s.stores k).users.lookup name).map (coded coding) = s.expected coding seed name
  state : ∀ k version, s.origin k = some version →
    s.states[version]? = some (s.stores k).fileState
  states_length : s.states.length = s.version + 1
  states_last : s.states[s.version]? = some s.file.state
  states_nodup : s.states.Nodup
  calls : ∀ c ∈ s.calls, s.CallOk c

theorem Inv.setCalls (h : s.Inv coding seed) {calls : List SharedCall}
    (hcalls : ∀ c ∈ calls, s.CallOk c) : { s with calls := calls }.Inv coding seed :=
  ⟨h.contents, h.keyed, h.current, h.state, h.states_length, h.states_last, h.states_nodup, hcalls⟩

theorem Inv.finish (h : s.Inv coding seed) (i : ℕ) : (s.finish i).Inv coding seed :=
  h.setCalls fun c hc => h.calls c (mem_of_mem_eraseIdx hc)

theorem Inv.setPhase (h : s.Inv coding seed) (i : ℕ) (c : SharedCall) {phase : CallPhase}
    (hc : s.CallOk { c with phase := phase }) : (s.setPhase i c phase).Inv coding seed :=
  h.setCalls fun c' hc' => (mem_or_eq_of_mem_set hc').elim (h.calls c') fun heq => heq ▸ hc

theorem Inv.newStore (h : s.Inv coding seed) (k : ℕ) : (s.newStore k).Inv coding seed := by
  rw [Shared.newStore]
  split_ifs with hk
  · obtain ⟨users, hok, hcoded, hlookup, hvalid⟩ := h.contents
    have horigin : ∀ {k' v}, update s.origin k none k' = some v →
        k' ≠ k ∧ s.origin k' = some v := by
      intro k' v hv
      by_cases hkk : k' = k
      · rw [hkk, update_self] at hv
        cases hv
      · rw [update_of_ne hkk] at hv
        exact ⟨hkk, hv⟩
    refine ⟨⟨users, hok, hcoded, hlookup, fun k' hk' => ?_⟩, fun k' => ?_, fun k' hk' => ?_,
      fun k' v hk' => ?_, h.states_length, h.states_last, h.states_nodup, ?_⟩
    · obtain ⟨v, hv⟩ := Option.ne_none_iff_exists'.mp hk'
      exact hvalid k' (by rw [(horigin hv).2]; exact Option.some_ne_none v)
    · dsimp only
      by_cases hkk : k' = k
      · rw [hkk, update_self]
        intro name user hname
        cases hname
      · rw [update_of_ne hkk]
        exact h.keyed k'
    · dsimp only
      rw [update_of_ne (horigin hk').1]
      exact h.current k' (horigin hk').2
    · dsimp only
      rw [update_of_ne (horigin hk').1]
      exact h.state k' v (horigin hk').2
    · intro c hc
      rcases mem_append.mp hc with hc | hc
      · exact h.calls c hc
      · rw [mem_singleton.mp hc]
        trivial
  · exact h

theorem Inv.install (h : s.Inv coding seed) {k : ℕ} {users : List User}
    (hok : s.file.contents = .ok users) (hvalid : ∀ u ∈ users, validateUserID u.username = true) :
    (s.install k users s.file.state s.version).Inv coding seed := by
  obtain ⟨users', hok', hcoded, hlookup, -⟩ := h.contents
  rw [hok] at hok'
  cases hok'
  refine ⟨⟨users, hok, hcoded, hlookup, fun _ _ => hvalid⟩, fun k' => ?_, fun k' hk' name => ?_,
    fun k' v hk' => ?_, h.states_length, h.states_last, h.states_nodup, h.calls⟩
  · by_cases hkk : k' = k
    · simp only [Shared.install, hkk, update_self]
      exact userMap_keyed hvalid
    · simp only [Shared.install, update_of_ne hkk]
      exact h.keyed k'
  · by_cases hkk : k' = k
    · simp only [Shared.install, hkk, update_self]
      rw [coded_lookup hcoded]
      exact hlookup name
    · simp only [Shared.install, update_of_ne hkk] at hk' ⊢
      exact h.current k' hk' name
  · by_cases hkk : k' = k
    · simp only [Shared.install, hkk, update_self] at hk' ⊢
      cases hk'
      exact h.states_last
    · simp only [Shared.install, update_of_ne hkk] at hk' ⊢
      exact h.state k' v hk'

theorem Inv.save (h : s.Inv coding seed) {k : ℕ} {op : AccountOp} {users : UserMap} {index : ℕ}
    {state : FileState} (hedit : op.edit crypto (s.stores k).users = .ok (users, index))
    (horigin : s.origin k = some s.version) (hstate : state ∉ s.states) :
    (s.save coding k op users state).Inv coding seed := by
  have hkeyed := op.edit_keyed (h.keyed k) hedit
  have hnew : ∀ name, (users.lookup name).map (coded coding) =
      (s.save coding k op users state).expected coding seed name := by
    intro name
    rw [(op.edit_ok hedit).2 name]
    simp only [expected, Shared.save, replay_append, eq_comm (a := op.target)]
    split_ifs with hname
    · exact op.effect_coded (h.current k horigin name)
    · exact h.current k horigin name
  have hold : ∀ {v : ℕ} {st : FileState}, s.states[v]? = some st →
      (s.states ++ [state])[v]? = some st := by
    intro v st hv
    rw [getElem?_append_left (List.getElem?_eq_some_iff.mp hv).1]
    exact hv
  have hlast : (s.states ++ [state])[s.version + 1]? = some state := by
    rw [← h.states_length, getElem?_append_right (Nat.le_refl _), Nat.sub_self]
    rfl
  refine ⟨⟨_, rfl, ?_, fun name => ?_, fun _ _ => ?_⟩, fun k' => ?_, fun k' hk' name => ?_,
    fun k' v hk' => ?_, ?_, hlast, ?_, fun c hc => ?_⟩
  · intro u hu
    obtain ⟨u', -, rfl⟩ := mem_map.mp hu
    exact coded_coded u'
  · rw [lookup_saved hkeyed]
    exact hnew name
  · intro u hu
    obtain ⟨u', hu', rfl⟩ := mem_map.mp hu
    obtain ⟨name, hname⟩ := mem_records.mp hu'
    obtain ⟨rfl, hvalid⟩ := hkeyed name u' hname
    have hstr : coding.str u'.username = u'.username := str_name hvalid
    simp only [coded, hstr]
    exact hvalid
  · by_cases hkk : k' = k
    · simp only [Shared.save, hkk, update_self]
      exact hkeyed
    · simp only [Shared.save, update_of_ne hkk]
      exact h.keyed k'
  · by_cases hkk : k' = k
    · simp only [Shared.save, hkk, update_self]
      exact hnew name
    · -- the other stores are of earlier versions
      simp only [Shared.save, update_of_ne hkk] at hk'
      have hlt := (List.getElem?_eq_some_iff.mp (h.state k' _ hk')).1
      rw [h.states_length] at hlt
      exact absurd hlt (Nat.lt_irrefl _)
  · by_cases hkk : k' = k
    · simp only [Shared.save, hkk, update_self] at hk' ⊢
      cases hk'
      exact hlast
    · simp only [Shared.save, update_of_ne hkk] at hk' ⊢
      exact hold (h.state k' v hk')
  · simp only [Shared.save, length_append, h.states_length, length_singleton]
  · simp only [Shared.save]
    exact h.states_nodup.append (nodup_singleton _) (by simpa using hstate)
  · -- what other calls have read is of an earlier version
    have hcall := h.calls c hc
    simp only [CallOk, Shared.save] at hcall ⊢
    split at hcall
    · exact ⟨by omega, fun heq => by omega⟩
    · exact ⟨by omega, fun heq => by omega⟩
    all_goals trivial

theorem Inv.next (h : s.Inv coding seed) {l : SharedStep} (hturn : s.InTurn l) :
    (s.step coding crypto l).Inv coding seed := by
  cases l with
  | newStore k => exact h.newStore k
  | begin k op =>
    refine h.setCalls fun c hc => ?_
    rcases mem_append.mp hc with hc | hc
    · exact h.calls c hc
    · rw [mem_singleton.mp hc]
      trivial
  | advance i state =>
    simp only [Shared.step, Shared.advance]
    cases hi : s.calls[i]? with
    | none => exact h
    | some c =>
      have hcall := h.calls c (mem_of_getElem? hi)
      have hc : s.InTurnCall state c := hturn c hi
      obtain ⟨k, op, phase⟩ := c
      cases phase with
      | stat => exact h.setPhase i _ trivial
      | compare latest =>
        refine h.setPhase i _ ?_
        dsimp only
        split_ifs <;> trivial
      | read =>
        obtain ⟨users, hok, -⟩ := h.contents
        simp only [hok]
        exact h.setPhase i _ ⟨Nat.le_refl _, fun _ => hok⟩
      | restat users version =>
        exact h.setPhase i _ ⟨hcall.1, fun hv => ⟨hcall.2 hv, rfl⟩⟩
      | install users st version =>
        have hv : version = s.version := hc
        obtain ⟨hok, rfl⟩ := hcall.2 hv
        subst hv
        dsimp only
        split_ifs with hvalid
        · exact (h.install hok (all_eq_true.mp hvalid)).setPhase i _ trivial
        · exact h.finish i
      | locked =>
        cases op with
        | none => exact h.finish i
        | some op =>
          obtain ⟨horigin, hstate⟩ := hc (Option.some_ne_none op)
          dsimp only
          split
          · exact h.finish i
          · rename_i hedit
            exact (h.save hedit horigin hstate).finish i

theorem inv_start (state : FileState) :
    (start ⟨.ok (seed.map (coded coding)), state⟩).Inv coding seed := by
  have hcoded : ∀ u ∈ seed.map (coded coding), u.coded coding = u := by
    intro u hu
    obtain ⟨u', -, rfl⟩ := mem_map.mp hu
    exact coded_coded u'
  refine ⟨⟨_, rfl, hcoded, fun name => (coded_lookup hcoded name).symm, fun k hk => absurd rfl hk⟩,
    fun k name user hname => ?_, fun k hk => ?_, fun k v hk => ?_, rfl, rfl,
    nodup_singleton _, fun c hc => ?_⟩
  all_goals first | cases hname | cases hk | cases hc

theorem Inv.refreshed (h : s.Inv coding seed) {k : ℕ} (hk : s.origin k ≠ none) :
    ∃ store, refreshIfNeeded s.file.disk (s.stores k) = .ok store ∧
      ∀ name, (store.users.lookup name).map (coded coding) = s.expected coding seed name := by
  obtain ⟨version, hversion⟩ := Option.ne_none_iff_exists'.mp hk
  obtain ⟨users, hok, hcoded, hlookup, hvalid⟩ := h.contents
  have hstate := h.state k version hversion
  simp only [refreshIfNeeded, UserFile.disk]
  split_ifs with heq
  · -- files of different versions are told apart
    rw [heq, ← h.states_last] at hstate
    have hlt : version < s.states.length := by
      by_contra hge
      rw [getElem?_eq_none (Nat.le_of_not_lt hge), h.states_last] at hstate
      cases hstate
    obtain rfl := (getElem?_inj hlt h.states_nodup).mp hstate
    exact ⟨_, rfl, h.current k hversion⟩
  · simp only [loadFromDisk, hok, if_pos (all_eq_true.mpr (hvalid k hk))]
    exact ⟨_, rfl, fun name => (coded_lookup hcoded name).trans (hlookup name)⟩

end Shared

open Shared in
/-- **No lost updates.** In every run whose steps are all in turn, the file and the next refreshed
view of every loaded store have the users as the acknowledged changes leave them when they are made
one after the other. -/
theorem updates_are_kept (coding : Coding) {Key : Type} (crypto : Crypto Key) (seed : List User)
    (state : FileState) (run : List SharedStep)
    (h : Meets (step coding crypto) InTurn (start ⟨.ok (seed.map (coded coding)), state⟩)
      run) :
    let s := exec (step coding crypto) (start ⟨.ok (seed.map (coded coding)), state⟩) run
    (∃ users, s.file.contents = .ok users ∧
        ∀ name, (userMap users).lookup name = s.expected coding seed name) ∧
      ∀ k, s.origin k ≠ none → ∃ store, refreshIfNeeded s.file.disk (s.stores k) = .ok store ∧
        ∀ name, (store.users.lookup name).map (coded coding) =
          s.expected coding seed name := by
  have hinv := h.invariant (I := Inv coding seed) (fun _ _ hs hl => hs.next hl) (inv_start state)
  obtain ⟨users, hok, -, hlookup, -⟩ := hinv.contents
  exact ⟨⟨users, hok, hlookup⟩, fun k hk => hinv.refreshed hk⟩

def alice : User := ⟨lit "alice", lit "old", lit "secret", []⟩

def bob : User := ⟨lit "bob", lit "old", lit "secret", []⟩

/-- A store is made and its users are loaded. -/
def loading (k : ℕ) : List SharedStep :=
  .newStore k :: replicate 4 (.advance 0 ⟨0, 0, 0, 0⟩)

/-- One store deletes a user. -/
def deleting : List SharedStep :=
  loading 0 ++ .begin 0 (some (.deleteUser (lit "alice"))) ::
    replicate 3 (.advance 0 ⟨0, 2, 2, 1⟩)

theorem deleted_user_is_gone :
    (exec (Shared.step plainCoding noCrypto)
        (Shared.start ⟨.ok ([alice, bob].map (coded plainCoding)), ⟨0, 1, 1, 1⟩⟩)
        deleting).acknowledged = [.deleteUser (lit "alice")] ∧
      ∃ users, (exec (Shared.step plainCoding noCrypto)
          (Shared.start ⟨.ok ([alice, bob].map (coded plainCoding)), ⟨0, 1, 1, 1⟩⟩)
          deleting).file.contents = .ok users ∧
        ∀ name, (userMap users).lookup name = (exec (Shared.step plainCoding noCrypto)
          (Shared.start ⟨.ok ([alice, bob].map (coded plainCoding)), ⟨0, 1, 1, 1⟩⟩)
          deleting).expected plainCoding [alice, bob] name :=
  ⟨by decide, (updates_are_kept plainCoding noCrypto [alice, bob] ⟨0, 1, 1, 1⟩ deleting
    (by decide)).1⟩

/-- Two stores have both compared the file before one of them deletes a user and the other one
changes a password: the user is back. -/
theorem deleted_user_reappears :
    let run : List SharedStep := loading 0 ++ loading 1 ++
      [.begin 0 (some (.deleteUser (lit "alice"))),
        .begin 1 (some (.updatePassword (lit "bob") (lit "new"))),
        .advance 0 ⟨0, 0, 0, 0⟩, .advance 0 ⟨0, 0, 0, 0⟩,
        .advance 1 ⟨0, 0, 0, 0⟩, .advance 1 ⟨0, 0, 0, 0⟩,
        .advance 0 ⟨0, 2, 2, 1⟩, .advance 0 ⟨0, 3, 3, 1⟩]
    let s := exec (Shared.step plainCoding noCrypto) (Shared.start ⟨.ok [alice, bob], ⟨0, 1, 1, 1⟩⟩)
      run
    s.acknowledged = [.deleteUser (lit "alice"), .updatePassword (lit "bob") (lit "new")] ∧
      s.file.contents.toOption = some [alice, { bob with passwordHash := lit "new" }] := by
  decide

end Centaurx.Auth
