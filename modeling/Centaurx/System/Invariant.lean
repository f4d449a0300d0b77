import Centaurx.Core.RoundTrip
import Centaurx.System.World

namespace Centaurx
open Go List Function UserState

/-- A critical section keeps the buffers that were there, and shortens none. -/
theorem UserState.Step.buffer_le {cfg : Config} {st st' : UserState} (h : Step cfg st st')
    (hst : st.Ok cfg) {ref : BufRef} (hnew : ∀ id, Adds st st' id → ref ≠ .tab id) {b' : Buffer}
    (hb : st'.buffer ref = some b') :
    ∃ b, st.buffer ref = some b ∧ b.lines.length ≤ b'.lines.length := by
  cases h with
  | refl => exact ⟨b', hb, le_rfl⟩
  | add t ht =>
    refine ⟨b', ?_, le_rfl⟩
    cases ref with
    | system => exact hb
    | tab id =>
      have hid : id ≠ t.id := fun he => hnew t.id rfl (congrArg _ he)
      rwa [buffer, lookup_addTab, if_neg hid] at hb
  | delete id =>
    refine ⟨b', ?_, le_rfl⟩
    cases ref with
    | system => exact hb
    | tab id' =>
      rw [buffer, lookup_deleteTab] at hb
      split_ifs at hb
      · simp at hb
      · exact hb
  | tab id t t' hid ht =>
    cases ref with
    | system => exact ⟨b', hb, le_rfl⟩
    | tab id' =>
      rw [buffer, lookup_putTab] at hb
      split_ifs at hb with he
      · obtain rfl : t'.buffer = b' := by simpa using hb
        refine ⟨t.buffer, ?_, ht.length_le (hst.tab id t hid)⟩
        rw [buffer, he, hid, Option.map_some]
      · exact ⟨b', hb, le_rfl⟩
  | system ls =>
    cases ref with
    | tab id => exact ⟨b', hb, le_rfl⟩
    | system =>
      obtain rfl : st.system.append ls = b' := by simpa [buffer] using hb
      exact ⟨st.system, rfl, Buffer.length_le_append hst.system ls⟩
  | systemStore max h0 h1 =>
    cases ref with
    | tab id => exact ⟨b', hb, le_rfl⟩
    | system =>
      refine ⟨st.system, rfl, ?_⟩
      obtain rfl : ({ st.system with scrollOffset := max } : Buffer) = b' := by
        simpa [buffer] using hb
      exact le_rfl
  | theme theme h => exact ⟨b', hb, le_rfl⟩

/-- A store of an offset within the buffer is one of the steps of a user's state. -/
theorem UserState.storeOffset_step (cfg : Config) {st : UserState} {ref : BufRef} {max : Int}
    (h0 : 0 ≤ max) (h1 : ∀ b, st.buffer ref = some b → max ≤ b.lines.length) :
    Step cfg st (st.storeOffset ref max) := by
  cases ref with
  | system => exact .systemStore st max h0 (h1 _ rfl)
  | tab id =>
    simp only [storeOffset]
    split
    · exact .refl st
    · next t hid =>
      refine .tab st id t _ hid (.store t max h0 (h1 t.buffer ?_))
      rw [buffer, hid, Option.map_some]

@[simp] theorem UserState.storeOffset_order (st : UserState) (ref : BufRef) (max : Int) :
    (st.storeOffset ref max).order = st.order := by
  cases ref with
  | system => rfl
  | tab id =>
    simp only [storeOffset]
    split <;> rfl

theorem UserState.not_adds_of_order_eq {st st' : UserState} (h : st'.order = st.order)
    (id : TabID) : ¬ Adds st st' id := by
  intro ha
  have := congrArg length (h.symm.trans ha)
  simp at this

variable {Text : Type} {n : ℕ} (env : Env Text)

/-- A well-formed state all of whose tab ids were drawn. -/
structure UserOk (drawn : List TabID) (st : UserState) : Prop where
  ok : st.Ok env.cfg
  known : ∀ id ∈ st.order, id ∈ drawn

/-- A text that saving such a state writes. -/
def Saved (drawn : List TabID) (text : Text) : Prop :=
  ∃ st, UserOk env drawn st ∧ text = env.json.marshal (snapshotUser st)

def BufRef.Known (drawn : List TabID) : BufRef → Prop
  | .tab id => id ∈ drawn
  | .system => True

/-- An offset that a view may store. -/
structure Bounded (drawn : List TabID) (memory : Option UserState) (ref : BufRef) (max : Int) :
    Prop where
  known : ref.Known drawn
  nonneg : 0 ≤ max
  le_length : ∃ st, memory = some st ∧ ∀ b, st.buffer ref = some b → max ≤ b.lines.length

def ActOk (drawn : List TabID) (memory : Option UserState) : Act Text → Prop
  | .compare ref max => Bounded drawn memory ref max
  | .store ref max => Bounded drawn memory ref max
  | .save text => Saved env drawn text
  | _ => True

section Parts

variable {env} {drawn drawn' : List TabID}

theorem UserOk.mono (hd : drawn ⊆ drawn') {st : UserState} (h : UserOk env drawn st) :
    UserOk env drawn' st := ⟨h.ok, fun id hid => hd (h.known id hid)⟩

theorem Saved.mono (hd : drawn ⊆ drawn') {text : Text} (h : Saved env drawn text) :
    Saved env drawn' text := by
  obtain ⟨st, hst, rfl⟩ := h
  exact ⟨st, hst.mono hd, rfl⟩

theorem BufRef.Known.mono (hd : drawn ⊆ drawn') {ref : BufRef} (h : ref.Known drawn) :
    ref.Known drawn' := by
  cases ref with
  | tab id => exact hd h
  | system => trivial

variable {a : Act Text}

theorem ActOk.mono (hd : drawn ⊆ drawn') {memory : Option UserState}
    (h : ActOk env drawn memory a) : ActOk env drawn' memory a := by
  cases a with
  | compare ref max | store ref max => exact ⟨h.known.mono hd, h.nonneg, h.le_length⟩
  | save text => exact Saved.mono hd h
  | emit | view | persist => trivial

/-- An act stays in order when the user's state makes a step that adds no drawn id. -/
theorem Bounded.step {st st' : UserState} (hst : st.Ok env.cfg)
    (hs : UserState.Step env.cfg st st') (hnew : ∀ id, UserState.Adds st st' id → id ∉ drawn)
    {ref : BufRef} {max : Int} (h : Bounded drawn (some st) ref max) :
    Bounded drawn (some st') ref max := by
  refine ⟨h.known, h.nonneg, st', rfl, ?_⟩
  intro b' hb'
  have href : ∀ id, UserState.Adds st st' id → ref ≠ .tab id := by
    rintro id ha rfl
    exact hnew id ha h.known
  obtain ⟨b, hb, hle⟩ := hs.buffer_le hst href hb'
  obtain ⟨st₀, hst₀, hmax⟩ := h.le_length
  have := hmax b (Option.some.inj hst₀ ▸ hb)
  omega

theorem ActOk.step {st st' : UserState} (hst : st.Ok env.cfg) (hs : UserState.Step env.cfg st st')
    (hnew : ∀ id, UserState.Adds st st' id → id ∉ drawn) (h : ActOk env drawn (some st) a) :
    ActOk env drawn (some st') a := by
  cases a with
  | compare ref max | store ref max => exact Bounded.step hst hs hnew h
  | save text => exact h
  | emit | view | persist => trivial

theorem ActOk.of_initial {memory : Option UserState} (h : a.initial = true) :
    ActOk env drawn memory a := by
  cases a with
  | compare | store | save => simp [Act.initial] at h
  | emit | view | persist => trivial

theorem ActOk.memory_none (h : ActOk env drawn none a) (memory : Option UserState) :
    ActOk env drawn memory a := by
  cases a with
  | compare ref max | store ref max =>
    obtain ⟨st, hst, -⟩ := h.le_length
    simp at hst
  | save text => exact h
  | emit | view | persist => trivial

theorem UserOk.load (hv : ∀ id ∈ drawn, validUTF8 id = true) {file : Option Text}
    (hf : ∀ text, file = some text → Saved env drawn text) (readOK : Bool) :
    UserOk env drawn (loadUserState env.cfg (env.json.load file readOK)) := by
  have hfresh : UserOk env drawn (fresh env.cfg) :=
    ⟨fresh_ok env.cfg, fun id hid => by simp [fresh] at hid⟩
  cases readOK with
  | false => exact hfresh
  | true =>
    cases file with
    | none => exact hfresh
    | some text =>
      obtain ⟨st, hst, rfl⟩ := hf text rfl
      obtain ⟨hok, ho⟩ :=
        loadUserState_saved env.json hst.ok (fun id hid => hv id (hst.known id hid))
      rw [env.json.load_marshal]
      exact ⟨hok, fun id hid => hst.known id (ho ▸ hid)⟩

end Parts

namespace World

structure Good (w : World Text n) : Prop where
  drawn : ∀ id ∈ w.log.drawn, validUTF8 id = true
  users : ∀ u st, w.users u = some st → UserOk env w.log.drawn st
  disk : ∀ u text, w.disk u = some text → Saved env w.log.drawn text
  calls : ∀ i, ∀ a ∈ (w.calls i).todo, ActOk env w.log.drawn (w.users (w.calls i).user) a

theorem birth_good : (birth : World Text n).Good env where
  drawn id hid := by simp [birth, start] at hid
  users u st h := by simp [birth, start] at h
  disk u text h := by simp [birth, start] at h
  calls i a ha := by simp [birth, start] at ha

section Step

variable {env} {w : World Text n} {u : UserID} {st : UserState}

theorem found_of_memory (hu : w.users u = some st) (ht : st.theme ≠ []) (op : Op) (readOK : Bool) :
    w.found env u op readOK = some st := by
  simp only [found, getOrCreateUserState, hu, Option.getD_some, ht, if_false]
  split_ifs <;> rfl

theorem found_of_none (hu : w.users u = none) {op : Op} {readOK : Bool}
    (h : w.found env u op readOK = some st) :
    st = loadUserState env.cfg (env.json.load (w.disk u) readOK) := by
  simp only [found, getOrCreateUserState, hu, Option.getD_none] at h
  split_ifs at h with hl ht
  · exact absurd ht (loadUserState_theme_ne _ _)
  · exact (Option.some.inj h).symm

theorem Good.found (h : w.Good env) {op : Op} {readOK : Bool}
    (hf : w.found env u op readOK = some st) : UserOk env w.log.drawn st := by
  cases hu : w.users u with
  | none =>
    rw [found_of_none hu hf]
    exact UserOk.load h.drawn (h.disk u) readOK
  | some st₀ =>
    have hok := h.users u st₀ hu
    rw [found_of_memory hu hok.ok.theme] at hf
    exact Option.some.inj hf ▸ hok

theorem newID_toList_valid (op : Op) : ∀ id ∈ op.newID.toList, validUTF8 id = true := by
  intro id hid
  obtain ⟨rand, rfl⟩ := newID_of_mem (Option.mem_toList.mp hid)
  exact newID_valid rand

theorem UserOk.serve {drawn : List TabID} (hst : UserOk env drawn st) (ctx : Option Prefs) {op : Op}
    (hop : op.admitted env.uni = true) (hfresh : ∀ id, op.newID = some id → id ∉ drawn) :
    UserOk env (drawn ++ op.newID.toList) (Centaurx.serve env ctx st op).state := by
  constructor
  · refine (serve_step env ctx st hop).ok hst.ok ?_
    intro id ha hid
    exact hfresh id (serve_adds env ctx st ha) (hst.known id hid)
  · intro id hid
    rcases mem_serve_order env ctx st hid with hold | hnew
    · exact mem_append_left _ (hst.known id hold)
    · exact mem_append_right _ (Option.mem_toList.mpr hnew)

theorem Good.enter (h : w.Good env) {i : Fin n} {op : Op} (ha : w.admits env i u op = true)
    (hfresh : ∀ id, op.newID = some id → id ∉ w.log.drawn) (session : ℕ) (readOK : Bool) :
    (w.enter env i session u op readOK).Good env := by
  simp only [World.enter]
  split
  · exact h
  · next st hf =>
    have hop := admitted_of_admits ha
    have hst := h.found hf
    have hd : w.log.drawn ⊆ w.log.drawn ++ op.newID.toList := subset_append_left _ _
    refine ⟨?_, ?_, ?_, ?_⟩
    · intro id hid
      rcases mem_append.mp hid with hid | hid
      · exact h.drawn id hid
      · exact newID_toList_valid op id hid
    · intro u' st' hu'
      dsimp only at hu'
      by_cases he : u' = u
      · subst he
        obtain rfl : _ = st' := by simpa using hu'
        exact UserOk.serve hst _ hop hfresh
      · rw [update_of_ne he] at hu'
        exact (h.users u' st' hu').mono hd
    · intro u' text ht
      exact (h.disk u' text ht).mono hd
    · intro j a ha'
      by_cases hj : j = i
      · subst hj
        simp only [update_self] at ha' ⊢
        exact ActOk.of_initial (all_eq_true.mp (serve_initial env _ st op) a ha')
      · simp only [update_of_ne hj] at ha' ⊢
        have hact := h.calls j a ha'
        refine ActOk.mono hd ?_
        by_cases hu : (w.calls j).user = u
        · -- A view of this user in progress: the section cannot shorten the buffer it has measured.
          rw [hu] at hact ⊢
          rw [update_self]
          cases hm : w.users u with
          | none =>
            rw [hm] at hact
            exact hact.memory_none _
          | some st₀ =>
            obtain rfl : st₀ = st := by
              rw [found_of_memory hm (h.users u st₀ hm).ok.theme] at hf
              exact Option.some.inj hf
            rw [hm] at hact
            refine hact.step hst.ok (serve_step env _ _ hop) ?_
            intro id hadd
            exact hfresh id (serve_adds env _ _ hadd)
        · rwa [update_of_ne hu]

theorem Good.bounded (h : w.Good env) {ref : BufRef} {b : Buffer}
    (hb : (w.users u).bind (·.buffer ref) = some b) (limit : Int) :
    Bounded w.log.drawn (w.users u) ref (Buffer.viewMax b.lines.length limit) := by
  obtain ⟨st, hu, hst⟩ := Option.bind_eq_some_iff.mp hb
  have hok := h.users u st hu
  refine ⟨?_, Buffer.viewMax_nonneg _ _, st, hu, ?_⟩
  · cases ref with
    | system => trivial
    | tab id =>
      obtain ⟨t, ht, -⟩ := Option.map_eq_some_iff.mp hst
      exact hok.known id
        ((hok.ok.registered.mem_iff id).mpr (Finmap.mem_of_lookup_eq_some ht))
  · intro b' hb'
    obtain rfl : b = b' := by
      rw [hst] at hb'
      exact Option.some.inj hb'
    exact Buffer.viewMax_le (Int.natCast_nonneg _) limit

theorem Good.storeOffset (h : w.Good env) {ref : BufRef} {max : Int}
    (hb : Bounded w.log.drawn (w.users u) ref max) : (w.storeOffset u ref max).Good env := by
  obtain ⟨st, hu, hle⟩ := hb.le_length
  have hst := h.users u st hu
  have hs := storeOffset_step env.cfg hb.nonneg hle
  have hno := not_adds_of_order_eq (storeOffset_order st ref max)
  refine ⟨h.drawn, ?_, h.disk, ?_⟩
  · intro u' st' hu'
    simp only [World.storeOffset] at hu'
    by_cases he : u' = u
    · subst he
      obtain rfl : st.storeOffset ref max = st' := by simpa [hu] using hu'
      refine ⟨hs.ok hst.ok (fun id ha => absurd ha (hno id)), ?_⟩
      intro id hid
      exact hst.known id (by simpa using hid)
    · rw [update_of_ne he] at hu'
      exact h.users u' st' hu'
  · intro j a ha
    have hact := h.calls j a ha
    simp only [World.storeOffset]
    by_cases he : (w.calls j).user = u
    · rw [he, hu] at hact
      rw [he, update_self, hu, Option.map_some]
      exact hact.step hst.ok hs (fun id ha => absurd ha (hno id))
    · rwa [update_of_ne he]

theorem Good.setTodo (h : w.Good env) {i : Fin n} {todo : List (Act Text)}
    (ht : ∀ a ∈ todo, ActOk env w.log.drawn (w.users (w.calls i).user) a) :
    (w.setTodo i todo).Good env := by
  refine ⟨h.drawn, h.users, h.disk, ?_⟩
  intro j a ha
  simp only [World.setTodo] at ha ⊢
  by_cases hj : j = i
  · subst hj
    simp only [update_self] at ha ⊢
    exact ht a ha
  · simp only [update_of_ne hj] at ha ⊢
    exact h.calls j a ha

/-- One act keeps the invariant and leaves acts that are in order. -/
theorem Good.perform (h : w.Good env) {a : Act Text} (ha : ActOk env w.log.drawn (w.users u) a)
    (ok : Bool) :
    (w.perform env u ok a).1.Good env ∧
      ∀ a' ∈ (w.perform env u ok a).2, ActOk env (w.perform env u ok a).1.log.drawn
        ((w.perform env u ok a).1.users u) a' := by
  cases a with
  | emit e => exact ⟨⟨h.drawn, h.users, h.disk, h.calls⟩, by simp [World.perform]⟩
  | view ref limit =>
    refine ⟨h, ?_⟩
    simp only [World.perform]
    split
    · simp
    · next b hb =>
      intro a' ha'
      rw [mem_singleton] at ha'
      subst ha'
      exact h.bounded hb limit
  | compare ref max =>
    refine ⟨h, ?_⟩
    simp only [World.perform]
    split
    · simp
    · split_ifs
      · intro a' ha'
        rw [mem_singleton] at ha'
        subst ha'
        exact ha
      · simp
  | store ref max => exact ⟨h.storeOffset ha, by simp [World.perform]⟩
  | persist =>
    refine ⟨h, ?_⟩
    simp only [World.perform]
    split
    · simp
    · next st hu =>
      intro a' ha'
      rw [mem_singleton] at ha'
      subst ha'
      exact ⟨st, h.users u st hu, rfl⟩
  | save text =>
    refine ⟨?_, by simp [World.perform]⟩
    simp only [World.perform]
    split_ifs
    · refine ⟨h.drawn, h.users, ?_, h.calls⟩
      intro u' text' ht
      simp only [rename] at ht
      by_cases he : u' = u
      · subst he
        obtain rfl : text = text' := by simpa using ht
        exact ha
      · rw [update_of_ne he] at ht
        exact h.disk u' text' ht
    · exact h

theorem Good.advance (h : w.Good env) (i : Fin n) (ok : Bool) : (w.advance env i ok).Good env := by
  simp only [World.advance]
  split
  · exact h
  · next a rest htodo =>
    have hcalls := h.calls i
    rw [htodo] at hcalls
    obtain ⟨hgood, hnext⟩ := h.perform (hcalls a (mem_cons_self ..)) ok
    refine hgood.setTodo ?_
    intro a' ha'
    rw [perform_calls]
    rcases mem_append.mp ha' with h' | h'
    · exact hnext a' h'
    · have hrest := hgood.calls i a'
      rw [perform_calls, htodo] at hrest
      exact hrest (mem_cons_of_mem _ h')

/-- The invariant is kept by every step that does not repeat an id. -/
theorem Good.step (h : w.Good env) {l : Label n} (hl : w.DrawsFresh l) :
    (w.step env l).Good env := by
  cases l with
  | connect session => exact ⟨h.drawn, h.users, h.disk, h.calls⟩
  | enter i session u op readOK => exact step_enter h fun ha => h.enter ha hl session readOK
  | advance i ok => exact h.advance i ok
  | restart =>
    refine ⟨h.drawn, ?_, h.disk, ?_⟩
    · intro u st hu
      simp [World.step, start] at hu
    · intro i a ha
      simp [World.step, start] at ha

end Step

theorem good_of_run {ls : List (Label n)}
    (hfresh : Runs.Meets (step env) DrawsFresh (birth : World Text n) ls) :
    (Runs.exec (step env) birth ls).Good env :=
  hfresh.invariant (fun _ _ h hl => h.step hl) (birth_good env)

variable {env}

theorem mem_drawn_step {w : World Text n} {l : Label n} {id : TabID}
    (h : id ∈ (w.step env l).log.drawn) : id ∈ w.log.drawn ∨ id ∈ l.newID := by
  cases l with
  | connect session => exact .inl h
  | enter i session u op readOK =>
    simp only [World.step, World.enter] at h
    split_ifs at h
    · split at h
      · exact .inl h
      · rcases mem_append.mp h with hold | hnew
        · exact .inl hold
        · exact .inr (Option.mem_toList.mp hnew)
    · exact .inl h
  | advance i ok =>
    simp only [World.step, World.advance] at h
    split at h
    · exact .inl h
    · exact .inl (perform_drawn env w _ ok _ ▸ h)
  | restart => exact .inl h

theorem drawn_subset_step (w : World Text n) (l : Label n) :
    w.log.drawn ⊆ (w.step env l).log.drawn := by
  intro id hid
  cases l with
  | connect session => exact hid
  | enter i session u op readOK =>
    simp only [World.step, World.enter]
    split_ifs
    · split
      · exact hid
      · exact mem_append_left _ hid
    · exact hid
  | advance i ok =>
    simp only [World.step, World.advance]
    split
    · exact hid
    · exact (perform_drawn env w _ ok _).symm ▸ hid
  | restart => exact hid

theorem drawn_named_step {w : World Text n} (hw : [] ∉ w.log.drawn) (l : Label n) :
    [] ∉ (w.step env l).log.drawn := by
  intro hid
  rcases mem_drawn_step hid with hold | hnew
  · exact hw hold
  · cases l with
    | enter i session u op readOK => exact newID_named hnew rfl
    | _ => cases hnew

theorem drawn_named (run : List (Label n)) :
    [] ∉ (Runs.exec (step env) (birth : World Text n) run).log.drawn := by
  refine Runs.exec_invariant (I := fun w : World Text n => [] ∉ w.log.drawn) ?_ ?_ run
  · exact fun _ l hw => drawn_named_step hw l
  · simp [birth, start]

end World

end Centaurx
