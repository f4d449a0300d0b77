import Centaurx.Core.RoundTrip
import Centaurx.Lib.Sole
import Centaurx.System.Invariant

namespace Centaurx
open Go Runs List Function

namespace World

variable {Text : Type} {n : ℕ} (env : Env Text) (u : UserID)

/-- The calls for the user read no views and their saves succeed; a snapshot is taken only when
every snapshot taken before it has been renamed. -/
def SavesInTurn (w : World Text n) : Label n → Prop
  | .enter _ _ v op _ => v = u → op.views = false
  | .advance i ok => (w.calls i).user = u →
      ok = true ∧
        (atPersist (w.calls i).todo = true → ∀ j, pendingSaves ((w.calls j).todoOf u) = [])
  | _ => True

instance [DecidableEq Text] (w : World Text n) : ∀ l, Decidable (w.SavesInTurn u l)
  | .enter .. | .advance .. => inferInstanceAs (Decidable (_ → _))
  | .connect _ | .restart => isTrue trivial

/-- The newest snapshot, on its way or in the file, is that of `st`; or none was needed since
the state was loaded. -/
def UpToDate (w : World Text n) (pending : List Text) (st : UserState) : Prop :=
  pending.getLast?.or (w.disk u) = some (env.json.marshal (snapshotUser st)) ∨
    (pending = [] ∧ w.log.saves u = 0 ∧ ∃ result, w.log.origin u = some result ∧
      snapshotUser st = snapshotUser (loadUserState env.cfg result))

structure Durable (w : World Text n) : Prop where
  theme : ∀ st, w.users u = some st → st.theme ≠ []
  unloaded : w.users u = none → w.log.saves u = 0 ∧ ∀ i, (Call.todoOf u ∘ w.calls) i = []
  plain : ∀ i, ((Call.todoOf u ∘ w.calls) i).all Act.plain = true
  current : ∃ pending, Sole (pendingSaves ∘ Call.todoOf u ∘ w.calls) pending ∧
    ∀ st, w.users u = some st →
      (∃ i, .persist ∈ (Call.todoOf u ∘ w.calls) i) ∨ w.UpToDate env u pending st

variable {env u} {w w' : World Text n}

theorem start_durable (disk : UserID → Option Text) (drawn : List TabID)
    (closed : UserID → List TabID) : (start disk drawn closed : World Text n).Durable env u where
  theme st h := by simp [start] at h
  unloaded _ := ⟨rfl, fun i => by simp [start, Call.todoOf]⟩
  plain i := by simp [start, Call.todoOf]
  current := by
    refine ⟨[], Sole.empty (fun i => ?_), fun st h => ?_⟩
    · simp [start, Call.todoOf, pendingSaves]
    · simp [start] at h

theorem Durable.agree (h : w.Durable env u) (ha : Agree u w w') : w'.Durable env u := by
  refine ⟨?_, ?_, ?_, ?_⟩
  · rw [ha.users]
    exact h.theme
  · rw [ha.users, ha.saves, ha.todo]
    exact h.unloaded
  · rw [ha.todo]
    exact h.plain
  · rw [ha.users, ha.todo]
    simpa only [UpToDate, ha.disk, ha.saves, ha.origin] using h.current

variable {i : Fin n}

theorem Durable.enter (h : w.Durable env u) {op : Op} (ha : w.admits env i u op = true)
    (hop : op.views = false) (session : ℕ) (readOK : Bool) :
    (w.enter env i session u op readOK).Durable env u := by
  simp only [World.enter]
  split
  · exact h
  · next st hf =>
    obtain ⟨pending, hsole, hcur⟩ := h.current
    have hadm := admitted_of_admits ha
    have htheme : st.theme ≠ [] := by
      cases hm : w.users u with
      | none =>
        rw [found_of_none hm hf]
        exact loadUserState_theme_ne _ _
      | some st₀ =>
        rw [found_of_memory hm (h.theme st₀ hm)] at hf
        exact Option.some.inj hf ▸ h.theme st₀ hm
    have hfree : (Call.todoOf u ∘ w.calls) i = [] := todoOf_of_admits ha
    refine ⟨?_, ?_, ?_, pending, ?_, ?_⟩
    · intro st' hst'
      obtain rfl : _ = st' := by simpa using hst'
      exact (serve_step env _ st hadm).theme_ne htheme
    · intro hu
      simp at hu
    · intro j
      rw [comp_update]
      by_cases hj : j = i
      · subst hj
        rw [update_self, Call.todoOf, if_pos rfl]
        exact serve_plain env _ st hop
      · rw [update_of_ne hj]
        exact h.plain j
    · -- The section leaves no snapshot, so the pending ones stay as they are.
      have hnone : (pendingSaves ∘ Call.todoOf u ∘ w.calls) i = [] := by
        simp only [comp_apply] at hfree ⊢
        rw [hfree]
        rfl
      rw [comp_update, comp_update, Call.todoOf, if_pos rfl,
        pendingSaves_of_initial (serve_initial env _ st op), ← hnone, update_eq_self]
      exact hsole
    · intro st' hst'
      obtain rfl : _ = st' := by simpa using hst'
      rcases serve_persist env (w.sessions session) st op with hp | hsame
      · refine .inl ⟨i, ?_⟩
        rw [comp_update, update_self, Call.todoOf, if_pos rfl]
        exact hp
      · -- Nothing that is saved has changed: the state is as up to date as before the section.
        cases hm : w.users u with
        | none =>
          right
          right
          obtain ⟨hsaves, htodo⟩ := h.unloaded hm
          have hempty : ∀ j, (pendingSaves ∘ Call.todoOf u ∘ w.calls) j = [] := by
            intro j
            rw [comp_apply, htodo j]
            rfl
          refine ⟨hsole.eq_nil hempty, hsaves, env.json.load (w.disk u) readOK, ?_, ?_⟩
          · simp [logEnter, hm]
          · rw [hsame, found_of_none hm hf]
        | some st₀ =>
          obtain rfl : st₀ = st := by
            rw [found_of_memory hm (h.theme st₀ hm)] at hf
            exact Option.some.inj hf
          rcases hcur st₀ hm with ⟨j, hj⟩ | hup
          · refine .inl ⟨j, ?_⟩
            have hji : j ≠ i := by
              rintro rfl
              rw [hfree] at hj
              simp at hj
            rwa [comp_update, update_of_ne hji]
          · right
            simpa only [UpToDate, logEnter, hm, hsame, Option.isNone_some, Bool.false_eq_true,
              if_false] using hup

variable {rest : List (Act Text)}

theorem mem_update_tail {f : Fin n → List (Act Text)} {a b : Act Text} (hi : f i = a :: rest)
    (hab : b ≠ a) (h : ∃ j, b ∈ f j) : ∃ j, b ∈ update f i rest j := by
  obtain ⟨j, hj⟩ := h
  refine ⟨j, ?_⟩
  by_cases hji : j = i
  · subst hji
    rw [update_self]
    rw [hi] at hj
    exact (mem_cons.mp hj).resolve_left hab
  · rwa [update_of_ne hji]

theorem all_update {f : Fin n → List (Act Text)} {todo : List (Act Text)}
    (h : ∀ j, (f j).all Act.plain = true) (ht : todo.all Act.plain = true) (j : Fin n) :
    (update f i todo j).all Act.plain = true := by
  by_cases hj : j = i
  · subst hj
    rwa [update_self]
  · rw [update_of_ne hj]
    exact h j

theorem Durable.plain_tail (h : w.Durable env u) (hu : (w.calls i).user = u) {a : Act Text}
    (htodo : (w.calls i).todo = a :: rest) : rest.all Act.plain = true := by
  have hall := h.plain i
  rw [todoOf_of_user hu, htodo, all_cons, Bool.and_eq_true] at hall
  exact hall.2

theorem Durable.loaded (h : w.Durable env u) (hu : (w.calls i).user = u) {a : Act Text}
    (htodo : (w.calls i).todo = a :: rest) : w.users u ≠ none := by
  intro hm
  have hnil := (h.unloaded hm).2 i
  rw [todoOf_of_user hu, htodo] at hnil
  cases hnil

theorem Durable.emit (h : w.Durable env u) (hu : (w.calls i).user = u) {e : SinkEvent}
    (htodo : (w.calls i).todo = .emit e :: rest) :
    ((w.emit env u e).setTodo i rest).Durable env u := by
  have hi := todoOf_of_user hu
  rw [htodo] at hi
  have hset : Call.todoOf u ∘ ((w.emit env u e).setTodo i rest).calls =
      update (Call.todoOf u ∘ w.calls) i rest := todo_setTodo hu rfl rest
  obtain ⟨pending, hsole, hcur⟩ := h.current
  have hrest := h.plain_tail hu htodo
  refine ⟨h.theme, ?_, ?_, pending, ?_, ?_⟩
  · exact fun hm => absurd hm (h.loaded hu htodo)
  · rw [hset]
    exact all_update h.plain hrest
  · rw [hset, comp_update]
    have hsame : pendingSaves rest = (pendingSaves ∘ Call.todoOf u ∘ w.calls) i := by
      rw [comp_apply, hi]
      rfl
    rwa [hsame, update_eq_self]
  · intro st hst
    rw [hset]
    exact (hcur st hst).imp (mem_update_tail hi (by simp)) id

theorem Durable.persist (h : w.Durable env u) (hu : (w.calls i).user = u)
    (htodo : (w.calls i).todo = .persist :: rest)
    (halone : ∀ j, pendingSaves ((w.calls j).todoOf u) = []) {st : UserState}
    (hst : w.users u = some st) :
    (w.setTodo i (.save (env.json.marshal (snapshotUser st)) :: rest)).Durable env u := by
  have hi := todoOf_of_user hu
  rw [htodo] at hi
  have hset := todo_setTodo hu (rfl : w.calls = w.calls)
    (.save (env.json.marshal (snapshotUser st)) :: rest)
  obtain ⟨pending, hsole, -⟩ := h.current
  have hrest := h.plain_tail hu htodo
  have hnone : pendingSaves rest = [] := by
    have := halone i
    rw [← comp_apply (f := Call.todoOf u), hi] at this
    exact this
  refine ⟨h.theme, ?_, ?_, [env.json.marshal (snapshotUser st)], ?_, ?_⟩
  · exact fun hm => absurd hm (h.loaded hu htodo)
  · rw [hset]
    exact all_update h.plain (by simpa [Act.plain] using hrest)
  · rw [hset, comp_update]
    have htext : pendingSaves (.save (env.json.marshal (snapshotUser st)) :: rest) =
        [env.json.marshal (snapshotUser st)] := by
      simpa [pendingSaves, Act.saved] using hnone
    have hfill := hsole.fill (i := i) (y := [env.json.marshal (snapshotUser st)]) (halone i)
      (fun _ => halone)
    rw [hsole.eq_nil halone] at hfill
    rwa [htext]
  · -- The new snapshot is the newest pending one, and it is that of the present state.
    intro st' hst'
    obtain rfl : st = st' := Option.some.inj (hst.symm.trans hst')
    exact .inr (.inl rfl)

theorem Durable.save (h : w.Durable env u) (hu : (w.calls i).user = u) {text : Text}
    (htodo : (w.calls i).todo = .save text :: rest) :
    ((w.rename u text).setTodo i rest).Durable env u := by
  have hi := todoOf_of_user hu
  rw [htodo] at hi
  have hset : Call.todoOf u ∘ ((w.rename u text).setTodo i rest).calls =
      update (Call.todoOf u ∘ w.calls) i rest := todo_setTodo hu rfl rest
  obtain ⟨pending, hsole, hcur⟩ := h.current
  have hrest := h.plain_tail hu htodo
  have hsplit : (pendingSaves ∘ Call.todoOf u ∘ w.calls) i = [text] ++ pendingSaves rest := by
    rw [comp_apply, hi]
    rfl
  obtain ⟨pending', hsole', rfl⟩ := hsole.consume hsplit
  refine ⟨h.theme, ?_, ?_, pending', ?_, ?_⟩
  · exact fun hm => absurd hm (h.loaded hu htodo)
  · rw [hset]
    exact all_update h.plain hrest
  · rwa [hset, comp_update]
  · intro st hst
    rw [hset]
    refine (hcur st hst).imp (mem_update_tail hi (by simp)) ?_
    rintro (hup | ⟨hnil, -⟩)
    · -- The renamed text was the oldest pending one, and the newest stays the newest.
      left
      cases pending' with
      | nil => simpa [setTodo, rename] using hup
      | cons t ts =>
        have hlast : (t :: ts).getLast? = some (env.json.marshal (snapshotUser st)) := by
          simpa [getLast?_cons_cons] using hup
        rw [hlast]
        rfl
    · simp at hnil

theorem Durable.advance (h : w.Durable env u) (hu : (w.calls i).user = u)
    (halone : atPersist (w.calls i).todo = true → ∀ j, pendingSaves ((w.calls j).todoOf u) = []) :
    (w.advance env i true).Durable env u := by
  have hplain := h.plain i
  have hi := todoOf_of_user hu
  rw [hi] at hplain
  simp only [World.advance, hu]
  split
  · exact h
  · next a rest htodo =>
    rw [htodo] at hplain halone
    cases a with
    | emit e => exact h.emit hu htodo
    | persist =>
      cases hst : w.users u with
      | none => exact absurd hst (h.loaded hu htodo)
      | some st =>
        simp only [perform, hst]
        exact h.persist hu htodo (halone rfl) hst
    | save text => exact h.save hu htodo
    | view | compare | store => simp [Act.plain] at hplain

theorem Durable.step (h : w.Durable env u) {l : Label n} (hl : w.SavesInTurn u l) :
    (w.step env l).Durable env u := by
  cases l with
  | connect session => exact h.agree ⟨rfl, rfl, rfl, rfl, rfl, rfl⟩
  | enter i session v op readOK =>
    refine step_enter h fun ha => ?_
    by_cases hv : v = u
    · subst hv
      exact h.enter ha (hl rfl) session readOK
    · exact h.agree (agree_enter hv ha session readOK)
  | advance i ok =>
    by_cases hu : (w.calls i).user = u
    · obtain ⟨rfl, halone⟩ := hl hu
      exact h.advance hu halone
    · exact h.agree (agree_advance hu ok)
  | restart => exact start_durable _ _ _

/-- In every run in which the snapshots of the user are renamed in turn: once the user's calls
have returned, the file holds the snapshot of the state in memory, unless nothing was saved
since the state was loaded, because nothing that is saved has changed. -/
theorem file_catches_up (env : Env Text) (disk : UserID → Option Text) (u : UserID)
    (ls : List (Label n))
    (hturn : Meets (step env) (SavesInTurn u) (start disk [] fun _ => []) ls) :
    let w := exec (step env) (start disk [] fun _ => []) ls
    (∀ i, (w.calls i).todoOf u = []) → ∀ st, w.users u = some st →
      w.disk u = some (env.json.marshal (snapshotUser st)) ∨
        (w.log.saves u = 0 ∧ ∃ result, w.log.origin u = some result ∧
          snapshotUser st = snapshotUser (loadUserState env.cfg result)) := by
  intro w hquiet st hst
  have h : w.Durable env u :=
    hturn.invariant (fun _ _ h hl => h.step hl) (start_durable disk [] _)
  obtain ⟨pending, hsole, hcur⟩ := h.current
  have hnil : pending = [] := by
    refine hsole.eq_nil (fun i => ?_)
    rw [comp_apply, comp_apply, hquiet i]
    rfl
  rcases hcur st hst with ⟨i, hi⟩ | hup
  · rw [comp_apply, hquiet i] at hi
    simp at hi
  · subst hnil
    simpa [UpToDate] using hup

/-- Two calls of `SetTheme` one after the other. -/
def themesRun (i j : Fin n) : List (Label n) :=
  [.enter i 0 (lit "alice") (.setTheme (lit "gruvbox")) true,
    .advance i true, .advance i true, .advance i true,
    .enter j 1 (lit "alice") (.setTheme (lit "tokyo-midnight")) true,
    .advance j true, .advance j true, .advance j true]

theorem file_catches_up_themesRun :
    let w := exec (step (Env.stock Json.plain)) birth (themesRun (0 : Fin 2) 1)
    Meets (step (Env.stock Json.plain)) (SavesInTurn (lit "alice")) birth
        (themesRun (0 : Fin 2) 1) ∧
      w.Quiet ∧ (w.users (lit "alice")).map UserState.theme = some (lit "tokyo-midnight") ∧
      w.disk (lit "alice") = (w.users (lit "alice")).map snapshotUser := by
  intro w
  have hturn : Meets (step (Env.stock Json.plain)) (SavesInTurn (lit "alice")) birth
      (themesRun (0 : Fin 2) 1) := by
    decide
  refine ⟨hturn, by decide, by decide, ?_⟩
  have h := file_catches_up (Env.stock Json.plain) (fun _ => none) (lit "alice") _ hturn
    (by decide) _ rfl
  exact h.resolve_right (fun hnone => absurd hnone.1 (by decide))

/-- Two calls of `SetTheme`, the first of which renames its snapshot last. -/
def staleRun (i j : Fin n) : List (Label n) :=
  [.enter i 0 (lit "alice") (.setTheme (lit "gruvbox")) true,
    .advance i true, .advance i true,
    .enter j 1 (lit "alice") (.setTheme (lit "tokyo-midnight")) true,
    .advance j true, .advance j true, .advance j true,
    .advance i true]

theorem file_stays_behind :
    let w := exec (step (Env.stock Json.plain)) birth (staleRun (0 : Fin 2) 1)
    w.Quiet ∧ w.log.saves (lit "alice") = 2 ∧
      (w.users (lit "alice")).map (fun st => (snapshotUser st).theme) =
        some (lit "tokyo-midnight") ∧
      (w.disk (lit "alice")).map UserSnapshot.theme = some (lit "gruvbox") := by
  decide

/-- What the files hold, and what is on its way to them, meets `P`. -/
structure Backed (P : UserID → Text → Prop) (w : World Text n) : Prop where
  disk : ∀ u, ∀ text ∈ w.disk u, P u text
  calls : ∀ i text, .save text ∈ (w.calls i).todo → P (w.calls i).user text

variable {P : UserID → Text → Prop}

theorem Backed.advance (h : w.Backed P)
    (hP : ∀ u st, w.users u = some st → P u (env.json.marshal (snapshotUser st))) (i : Fin n)
    (ok : Bool) : (w.advance env i ok).Backed P := by
  rw [World.advance]
  split
  · exact h
  · next a rest htodo =>
    have hcall := h.calls i
    rw [htodo] at hcall
    constructor
    · cases a with
      | save text =>
        simp only [setTodo, perform]
        split_ifs
        · exact (forall_update_iff w.disk fun u d => ∀ text ∈ d, P u text).mpr
            ⟨fun _ ht => Option.some.inj ht ▸ hcall text mem_cons_self, fun u _ => h.disk u⟩
        · exact h.disk
      | _ => exact h.disk
    · simp only [setTodo, perform_calls]
      refine (forall_update_iff w.calls fun _ c => ∀ text, .save text ∈ c.todo → P c.user text).mpr
        ⟨fun text ht => ?_, fun j _ => h.calls j⟩
      rcases mem_append.mp ht with ht | ht
      · -- only `persist` leaves a save, that of the state in memory
        cases a with
        | persist =>
          cases hst : w.users (w.calls i).user with
          | none => simp [perform, hst] at ht
          | some st =>
            obtain rfl : text = _ := by simpa [perform, hst] using ht
            exact hP _ st hst
        | _ =>
          simp only [perform] at ht
          (repeat' split at ht) <;> simp at ht
      · exact hcall text (mem_cons_of_mem a ht)

theorem Backed.step (h : w.Backed P)
    (hP : ∀ u st, w.users u = some st → P u (env.json.marshal (snapshotUser st))) (l : Label n) :
    (w.step env l).Backed P := by
  cases l with
  | connect session => exact ⟨h.disk, h.calls⟩
  | enter i session u op readOK =>
    refine step_enter h fun _ => ?_
    simp only [enter]
    split
    · exact h
    · refine ⟨h.disk, (forall_update_iff w.calls
        fun _ c => ∀ text, .save text ∈ c.todo → P c.user text).mpr
          ⟨fun text ht => ?_, fun j _ => h.calls j⟩⟩
      cases all_eq_true.mp (serve_initial ..) _ ht
  | advance i ok => exact h.advance hP i ok
  | restart => exact ⟨h.disk, fun i text ht => by cases ht⟩

/-- **Snapshots.** Whatever the interleaving of calls, failed loads and saves, and restarts, a
user's file is the whole snapshot of a state that this user had in memory at one moment, except for
the scroll offsets, which the views of a buffer write without the lock. -/
theorem files_are_past_states (env : Env Text) (u : UserID) (ls : List (Label n)) :
    let run := exec (step env) (birth : World Text n)
    (run ls).disk u = none ∨ ∃ part st snapshot, part <+: ls ∧ (run part).users u = some st ∧
      snapshot.unscrolled = (snapshotUser st).unscrolled ∧
      (run ls).disk u = some (env.json.marshal snapshot) := by
  intro run
  have h : ∀ part, part <+: ls → (run part).Backed fun u text => ∃ part st, part <+: ls ∧
      (run part).users u = some st ∧ text = env.json.marshal (snapshotUser st) := by
    intro part hpart
    induction part using reverseRecOn with
    | nil => exact ⟨fun u text ht => (by cases ht), fun i text ht => (by cases ht)⟩
    | append_singleton part l ih =>
      have hpast : part <+: ls := (prefix_append ..).trans hpart
      rw [show run (part ++ [l]) = (run part).step env l from exec_append ..]
      exact (ih hpast).step (fun _ st hst => ⟨part, st, hpast, hst, rfl⟩) l
  cases hd : (run ls).disk u with
  | none => exact .inl rfl
  | some text =>
    obtain ⟨part, st, hpart, hst, rfl⟩ := (h ls prefix_rfl).disk u text hd
    exact .inr ⟨part, st, snapshotUser st, hpart, hst, rfl, rfl⟩

end World

end Centaurx
