import Centaurx.Core.RoundTrip
import Centaurx.System.Invariant

namespace Centaurx
open Go Runs List Function

/-- The tabs that a file stores, also when it does not decode. -/
structure Contents {Text : Type} (json : Json Text) where
  tabs : Text → List TabID
  tabs_of_unmarshal : ∀ text s, json.unmarshal text = some s →
    tabs text = s.tabs.map TabSnapshot.id

/-- Every tab of the map is listed in the order, under its own id. Unlike
`UserState.Registered` this does not need that ids are fresh. -/
structure UserState.Listed (st : UserState) : Prop where
  mem_order : ∀ id ∈ st.tabs, id ∈ st.order
  id_eq : ∀ id t, st.tabs.lookup id = some t → t.id = id
  valid : ∀ id ∈ st.tabs, validUTF8 id = true

def UserSnapshot.Listed (s : UserSnapshot) : Prop :=
  ∀ id ∈ s.tabs.map TabSnapshot.id, id ∈ s.order ∧ validUTF8 id = true

theorem UserState.Step.listed {cfg : Config} {st st' : UserState} (h : Step cfg st st')
    (hst : st.Listed) (hnew : ∀ id, Adds st st' id → validUTF8 id = true) : st'.Listed := by
  have hids := h.ids hst.id_eq
  cases h with
  | refl => exact hst
  | add t ht =>
    refine ⟨?_, hids, ?_⟩
    · intro id hid
      rcases Finmap.mem_insert.mp hid with rfl | hid
      · exact mem_append_right _ (mem_singleton.mpr rfl)
      · exact mem_append_left _ (hst.mem_order id hid)
    · intro id hid
      rcases Finmap.mem_insert.mp hid with rfl | hid
      · exact hnew _ rfl
      · exact hst.valid id hid
  | delete id =>
    have hmem : ∀ id', id' ∈ (st.deleteTab id).tabs → id' ≠ id ∧ id' ∈ st.tabs :=
      fun id' h => Finmap.mem_erase.mp h
    refine ⟨?_, hids, ?_⟩
    · intro id' hid'
      obtain ⟨hne, hid'⟩ := hmem id' hid'
      simp only [deleteTab, removeTabID_eq_erase]
      exact (mem_erase_of_ne hne).mpr (hst.mem_order id' hid')
    · exact fun id' hid' => hst.valid id' (hmem id' hid').2
  | tab id t t' hid ht =>
    refine ⟨?_, hids, ?_⟩
    · exact fun id' hid' => hst.mem_order id' ((mem_putTab hid id').mp hid')
    · exact fun id' hid' => hst.valid id' ((mem_putTab hid id').mp hid')
  | system | systemStore | theme => exact ⟨hst.mem_order, hst.id_eq, hst.valid⟩

theorem UserState.Listed.mem_decoded {Text : Type} (json : Json Text) {st : UserState}
    (hst : st.Listed) (id : TabID) :
    id ∈ ((snapshotUser st).mapStrings json.str).tabs.map TabSnapshot.id ↔ id ∈ st.tabs := by
  have hids : ((snapshotUser st).mapStrings json.str).tabs.map TabSnapshot.id =
      st.bar.map (fun t => json.str t.id) := by
    simp only [UserSnapshot.mapStrings, snapshotUser, map_map]
    rfl
  rw [hids, mem_map]
  constructor
  · rintro ⟨t, ht, rfl⟩
    obtain ⟨id', hid', hl⟩ := mem_filterMap.mp ht
    have hmem := Finmap.mem_of_lookup_eq_some hl
    rwa [hst.id_eq id' t hl, json.str_valid id' (hst.valid id' hmem)]
  · intro hid
    obtain ⟨t, hl⟩ := Finmap.mem_iff.mp hid
    refine ⟨t, mem_filterMap.mpr ⟨id, hst.mem_order id hid, hl⟩, ?_⟩
    rw [hst.id_eq id t hl, json.str_valid id (hst.valid id hid)]

theorem UserState.Listed.decoded {Text : Type} (json : Json Text) {st : UserState}
    (hst : st.Listed) : ((snapshotUser st).mapStrings json.str).Listed := by
  intro id hid
  have hmem := (hst.mem_decoded json id).mp hid
  refine ⟨?_, hst.valid id hmem⟩
  rw [← json.str_valid id (hst.valid id hmem)]
  exact mem_map_of_mem (hst.mem_order id hmem)

theorem fresh_listed (cfg : Config) : (UserState.fresh cfg).Listed where
  mem_order id h := absurd h Finmap.notMem_empty
  id_eq id t h := by simp [UserState.fresh] at h
  valid id h := absurd h Finmap.notMem_empty

theorem loaded_listed (cfg : Config) {s : UserSnapshot} (hs : s.Listed) :
    (loadUserState cfg (.loaded s)).Listed := by
  refine ⟨?_, ?_, ?_⟩
  · intro id hid
    have htab := (mem_restoreTabs cfg s.tabs id).mp hid
    simp only [loadUserState, restoreOrder]
    split_ifs
    · exact htab
    · exact mem_filter.mpr ⟨(hs id htab).1, by simpa [loadUserState] using hid⟩
  · exact fun id t hl => (restoreTabs_ok cfg s.tabs hl).id_eq
  · exact fun id hid => (hs id ((mem_restoreTabs cfg s.tabs id).mp hid)).2

theorem serve_keeps {Text : Type} (env : Env Text) (ctx : Option Prefs) {st : UserState} {op : Op}
    {id : TabID} (hid : id ∈ st.tabs) :
    id ∈ (serve env ctx st op).state.tabs ∨ id ∈ op.closes st := by
  cases op with
  | closeTab id' =>
    by_cases he : id = id'
    · subst he
      exact .inr (by simp [Op.closes, hid])
    · exact .inl (mem_serve_closeTab env ctx st hid he)
  | _ => exact .inl (mem_serve env ctx st (fun _ heq => by cases heq) hid)

namespace World

variable {Text : Type} {env : Env Text} (contents : Contents env.json) (u : UserID)

/-- Every tab that the user's file stores is a tab of `st` or was closed. -/
def Covers (w : World Text 1) (st : UserState) : Prop :=
  ∀ text, w.disk u = some text → ∀ id ∈ contents.tabs text, id ∈ st.tabs ∨ id ∈ w.log.closed u

/-- `persistUser` does not reach a user whose state comes from a failed load as long as the file
that could not be loaded stores tabs. -/
def LoadsIntact (w : World Text 1) : Label 1 → Prop
  | .advance i _ => atPersist (w.calls i).todo = true →
      w.log.origin (w.calls i).user = some .failed → w.log.saves (w.calls i).user = 0 →
        ∀ text ∈ w.disk (w.calls i).user, contents.tabs text = []
  | _ => True

instance (w : World Text 1) : ∀ l, Decidable (w.LoadsIntact contents l)
  | .advance .. => inferInstanceAs (Decidable (_ → _))
  | .enter .. | .connect _ | .restart => isTrue trivial

/-- A step leaves the user's file, or replaces it by one that stores every tab of it that was
not closed. -/
def NoLoss (w w' : World Text 1) : Prop :=
  ∀ text, w.disk u = some text → ∃ text', w'.disk u = some text' ∧
    ∀ id ∈ contents.tabs text, id ∈ contents.tabs text' ∨ id ∈ w'.log.closed u

structure Kept (w : World Text 1) : Prop where
  files : ∀ text s, w.disk u = some text → env.json.unmarshal text = some s → s.Listed
  listed : ∀ st, w.users u = some st → st.Listed
  unloaded : w.users u = none → w.log.saves u = 0 ∧ (Call.todoOf u ∘ w.calls) 0 = []
  covers : ∀ st, w.users u = some st → w.log.origin u ≠ some .failed ∨ 0 < w.log.saves u →
    w.Covers contents u st
  tail : ((Call.todoOf u ∘ w.calls) 0).tail.all Act.initial = true
  pending : ∀ text rest, (Call.todoOf u ∘ w.calls) 0 = .save text :: rest →
    ∃ st, w.users u = some st ∧ text = env.json.marshal (snapshotUser st) ∧
      w.Covers contents u st

variable {contents u} {w w' : World Text 1}

theorem start_kept {disk : UserID → Option Text}
    (hdisk : ∀ text s, disk u = some text → env.json.unmarshal text = some s → s.Listed)
    (drawn : List TabID) (closed : UserID → List TabID) :
    (start disk drawn closed : World Text 1).Kept contents u where
  files := hdisk
  listed st h := by simp [start] at h
  unloaded _ := ⟨rfl, by simp [start, Call.todoOf]⟩
  covers st h := by simp [start] at h
  tail := by simp [start, Call.todoOf]
  pending text rest h := by simp [start, Call.todoOf] at h

theorem Kept.agree (h : w.Kept contents u) (ha : Agree u w w') : w'.Kept contents u := by
  refine ⟨?_, ?_, ?_, ?_, ?_, ?_⟩
  · rw [ha.disk]
    exact h.files
  · rw [ha.users]
    exact h.listed
  · rw [ha.users, ha.saves, ha.todo]
    exact h.unloaded
  · simpa only [Covers, ha.users, ha.origin, ha.saves, ha.disk, ha.closed] using h.covers
  · rw [ha.todo]
    exact h.tail
  · simpa only [Covers, ha.users, ha.disk, ha.closed, ha.todo] using h.pending

theorem not_save_of_initial {todo rest : List (Act Text)} {text : Text}
    (h : todo.all Act.initial = true) : todo ≠ .save text :: rest := by
  rintro rfl
  simp [Act.initial] at h

theorem covers_load {readOK : Bool} (hr : env.json.load (w.disk u) readOK ≠ .failed) :
    w.Covers contents u (loadUserState env.cfg (env.json.load (w.disk u) readOK)) := by
  intro text htext id hid
  left
  rw [htext] at hr ⊢
  cases readOK with
  | false => simp [Json.load] at hr
  | true =>
    cases hs : env.json.unmarshal text with
    | none => simp [Json.load, hs] at hr
    | some s =>
      rw [contents.tabs_of_unmarshal text s hs] at hid
      simp only [Json.load, hs, if_true, loadUserState]
      exact (mem_restoreTabs env.cfg s.tabs id).mpr hid

variable {st : UserState}

theorem Kept.found_listed (h : w.Kept contents u) {op : Op} {readOK : Bool}
    (hf : w.found env u op readOK = some st) : st.Listed := by
  cases hm : w.users u with
  | some st₀ =>
    obtain ⟨ht, ho⟩ := found_tabs hm hf
    have hst := h.listed st₀ hm
    exact ⟨by rw [ht, ho]; exact hst.mem_order, by rw [ht]; exact hst.id_eq,
      by rw [ht]; exact hst.valid⟩
  | none =>
    rw [found_of_none hm hf]
    simp only [Json.load]
    cases hd : w.disk u with
    | none => split_ifs <;> exact fresh_listed env.cfg
    | some text =>
      split_ifs
      · dsimp only
        split
        · exact fresh_listed env.cfg
        · next s hs => exact loaded_listed env.cfg (h.files text s hd hs)
      · exact fresh_listed env.cfg

theorem Kept.enter (h : w.Kept contents u) {i : Fin 1} {op : Op}
    (ha : w.admits env i u op = true) (session : ℕ) (readOK : Bool) :
    (w.enter env i session u op readOK).Kept contents u := by
  simp only [World.enter]
  split
  · exact h
  · next st hf =>
    obtain rfl : i = 0 := Subsingleton.elim _ _
    have hadm := admitted_of_admits ha
    have hst := h.found_listed hf
    have hinit := serve_initial env (w.sessions session) st op
    refine ⟨h.files, ?_, fun hu => by simp at hu, ?_, ?_, ?_⟩
    · intro st' hst'
      obtain rfl : _ = st' := by simpa using hst'
      refine (serve_step env _ st hadm).listed hst (fun id hadd => ?_)
      exact newID_toList_valid op id (by simp [serve_adds env _ st hadd])
    · intro st' hst' hrec text htext id hid
      obtain rfl : _ = st' := by simpa using hst'
      -- The tabs of the file were covered before the section, by memory or by the load.
      have hcov : id ∈ st.tabs ∨ id ∈ w.log.closed u := by
        cases hm : w.users u with
        | none =>
          rw [found_of_none hm hf]
          refine covers_load (w := w) ?_ text htext id hid
          have hsaves := (h.unloaded hm).1
          simpa [logEnter, hm, hsaves] using hrec
        | some st₀ =>
          rw [(found_tabs hm hf).1]
          refine h.covers st₀ hm ?_ text htext id hid
          simpa [logEnter, hm] using hrec
      simp only [logEnter, update_self, mem_append]
      rcases hcov with hin | hcl
      · exact (serve_keeps env _ hin).imp_right .inr
      · exact .inr (.inl hcl)
    · rw [comp_update, update_self, Call.todoOf, if_pos rfl]
      exact all_eq_true.mpr
        (fun a ha => all_eq_true.mp hinit a (mem_of_mem_tail ha))
    · -- A section never leaves a save: that comes from a later `persist`.
      intro text rest hsave
      rw [comp_update, update_self, Call.todoOf, if_pos rfl] at hsave
      exact absurd hsave (not_save_of_initial hinit)

/-- A state that may be persisted has the tabs of the file. -/
theorem Kept.covers_of_intact (h : w.Kept contents u) (hst : w.users u = some st)
    (hintact : w.log.origin u = some .failed → w.log.saves u = 0 →
      ∀ text ∈ w.disk u, contents.tabs text = []) :
    w.Covers contents u st := by
  by_cases hrec : w.log.origin u ≠ some .failed ∨ 0 < w.log.saves u
  · exact h.covers st hst hrec
  · -- The state comes from a failed load, so the file must store no tab.
    simp only [not_or, not_not, not_lt, Nat.le_zero] at hrec
    intro text htext id hid
    simp [hintact hrec.1 hrec.2 text htext] at hid

theorem storeOffset_tabs (st : UserState) (ref : BufRef) (max : Int) (id : TabID) :
    id ∈ (st.storeOffset ref max).tabs ↔ id ∈ st.tabs := by
  cases ref with
  | system => rfl
  | tab id' =>
    simp only [UserState.storeOffset]
    split
    · rfl
    · next t hid => exact UserState.mem_putTab hid id

theorem storeOffset_listed (hst : st.Listed) (ref : BufRef) (max : Int) :
    (st.storeOffset ref max).Listed := by
  refine ⟨?_, ?_, ?_⟩
  · intro id hid
    rw [UserState.storeOffset_order]
    exact hst.mem_order id ((storeOffset_tabs st ref max id).mp hid)
  · intro id t' hl
    cases ref with
    | system => exact hst.id_eq id t' hl
    | tab id' =>
      simp only [UserState.storeOffset] at hl
      split at hl
      · exact hst.id_eq id t' hl
      · next t hid =>
        rw [UserState.lookup_putTab] at hl
        split_ifs at hl with he
        · obtain rfl : _ = t' := Option.some.inj hl
          exact (hst.id_eq id' t hid).trans he.symm
        · exact hst.id_eq id t' hl
  · exact fun id hid => hst.valid id ((storeOffset_tabs st ref max id).mp hid)

/-- A call of the user goes on to acts that hold no save, with nothing saved or loaded. -/
theorem Kept.setTodo (h : w.Kept contents u) (hu : (w.calls 0).user = u)
    {todo : List (Act Text)} (htail : todo.tail.all Act.initial = true)
    (hloaded : w.users u = none → todo = [])
    (hsave : ∀ text rest, todo = .save text :: rest →
      ∃ st, w.users u = some st ∧ text = env.json.marshal (snapshotUser st) ∧
        w.Covers contents u st) : (w.setTodo 0 todo).Kept contents u := by
  have hset : (Call.todoOf u ∘ (w.setTodo 0 todo).calls) 0 = todo := by
    rw [todo_setTodo (w := w) hu rfl, update_self]
  refine ⟨h.files, h.listed, ?_, h.covers, ?_, ?_⟩
  · intro hm
    exact ⟨(h.unloaded hm).1, hset.trans (hloaded hm)⟩
  · rw [hset]
    exact htail
  · rw [hset]
    exact hsave

theorem Kept.storeOffset (h : w.Kept contents u) (ref : BufRef) (max : Int)
    (hsave : ∀ text rest, (Call.todoOf u ∘ w.calls) 0 ≠ .save text :: rest) :
    (w.storeOffset u ref max).Kept contents u := by
  have hmem : ∀ st', (w.storeOffset u ref max).users u = some st' →
      ∃ st, w.users u = some st ∧ st' = st.storeOffset ref max := by
    intro st' hst'
    simp only [World.storeOffset, update_self, Option.map_eq_some_iff] at hst'
    obtain ⟨st, hst, rfl⟩ := hst'
    exact ⟨st, hst, rfl⟩
  refine ⟨h.files, ?_, ?_, ?_, h.tail, ?_⟩
  · intro st' hst'
    obtain ⟨st, hst, rfl⟩ := hmem st' hst'
    exact storeOffset_listed (h.listed st hst) ref max
  · intro hm
    simp only [World.storeOffset, update_self, Option.map_eq_none_iff] at hm
    exact h.unloaded hm
  · intro st' hst' hrec text htext id hid
    obtain ⟨st, hst, rfl⟩ := hmem st' hst'
    rw [storeOffset_tabs]
    exact h.covers st hst hrec text htext id hid
  · intro text rest hs
    exact absurd hs (hsave text rest)

theorem Kept.rename (h : w.Kept contents u) (hst : w.users u = some st) :
    (w.rename u (env.json.marshal (snapshotUser st))).Kept contents u := by
  have hlisted := h.listed st hst
  have hdec := env.json.unmarshal_marshal (snapshotUser st)
  have hcov : (w.rename u (env.json.marshal (snapshotUser st))).Covers contents u st := by
    intro text htext id hid
    obtain rfl : _ = text := by simpa [World.rename] using htext
    rw [contents.tabs_of_unmarshal _ _ hdec] at hid
    exact .inl ((hlisted.mem_decoded env.json id).mp hid)
  refine ⟨?_, h.listed, ?_, ?_, h.tail, ?_⟩
  · intro text s htext hs
    obtain rfl : _ = text := by simpa [World.rename] using htext
    obtain rfl := Option.some.inj (hdec.symm.trans hs)
    exact hlisted.decoded env.json
  · intro hm
    exact absurd (hm.symm.trans hst) (by simp)
  · intro st' hst' _
    obtain rfl := Option.some.inj (hst.symm.trans hst')
    exact hcov
  · intro text rest hs
    obtain ⟨st', hst', htext, -⟩ := h.pending text rest hs
    obtain rfl := Option.some.inj (hst.symm.trans hst')
    exact ⟨st, hst, htext, hcov⟩

theorem tail_of_all {todo : List (Act Text)} (h : todo.all Act.initial = true) :
    todo.tail.all Act.initial = true :=
  all_eq_true.mpr (fun a ha => all_eq_true.mp h a (mem_of_mem_tail ha))

/-- The world after one act of the user's call, before the call's list of acts changes. -/
theorem Kept.perform (h : w.Kept contents u) {a : Act Text} {rest : List (Act Text)}
    (htodo : (Call.todoOf u ∘ w.calls) 0 = a :: rest) (ok : Bool) :
    (w.perform env u ok a).1.Kept contents u := by
  cases a with
  | emit e => exact h.agree ⟨rfl, rfl, rfl, rfl, rfl, rfl⟩
  | store ref max =>
    refine h.storeOffset ref max (fun text rest' => ?_)
    rw [htodo]
    simp
  | save text =>
    obtain ⟨st, hst, rfl, -⟩ := h.pending text rest htodo
    simp only [World.perform]
    split_ifs
    · exact h.rename hst
    · exact h
  | view | compare | persist => exact h

/-- The acts that an act leaves behind: none, or one, which is a save only after a persist. -/
theorem perform_next (w : World Text 1) (ok : Bool) (a : Act Text) :
    (w.perform env u ok a).2 = [] ∨ ∃ b, (w.perform env u ok a).2 = [b] ∧
      ∀ text, b = .save text → a = .persist ∧ ∃ st, w.users u = some st ∧
        text = env.json.marshal (snapshotUser st) := by
  cases a with
  | view ref limit =>
    simp only [World.perform]
    split
    · exact .inl rfl
    · exact .inr ⟨_, rfl, by simp⟩
  | compare ref max =>
    simp only [World.perform]
    split
    · exact .inl rfl
    · split_ifs
      · exact .inr ⟨_, rfl, by simp⟩
      · exact .inl rfl
  | persist =>
    simp only [World.perform]
    split
    · exact .inl rfl
    · next st hst =>
      refine .inr ⟨_, rfl, ?_⟩
      intro text hb
      exact ⟨trivial, st, hst, (Act.save.inj hb).symm⟩
  | emit | store | save => exact .inl rfl

theorem perform_loaded (hst : w.users u = some st) (ok : Bool) (a : Act Text) :
    (w.perform env u ok a).1.users u ≠ none := by
  cases a with
  | store ref max => simp [World.perform, World.storeOffset, hst]
  | save text =>
    simp only [World.perform]
    split_ifs <;> simp [World.rename, hst]
  | emit | view | compare | persist => simp [World.perform, World.emit, hst]

theorem Kept.advance (h : w.Kept contents u) (hu : (w.calls 0).user = u) (ok : Bool)
    (hintact : atPersist (w.calls 0).todo = true → w.log.origin u = some .failed →
      w.log.saves u = 0 → ∀ text ∈ w.disk u, contents.tabs text = []) :
    (w.advance env 0 ok).Kept contents u := by
  have htodo := todoOf_of_user hu
  simp only [World.advance, hu]
  split
  · exact h
  · next a rest ha =>
    rw [ha] at htodo hintact
    have hrest : rest.all Act.initial = true := by
      have := h.tail
      rwa [htodo] at this
    obtain ⟨st, hst⟩ : ∃ st, w.users u = some st := by
      cases hm : w.users u with
      | none =>
        have := (h.unloaded hm).2
        rw [htodo] at this
        simp at this
      | some st => exact ⟨st, rfl⟩
    have hcall : ((w.perform env u ok a).1.calls 0).user = u := by rwa [perform_calls]
    refine (h.perform htodo ok).setTodo hcall ?_
      (fun hm => absurd hm (perform_loaded hst ok a)) ?_
    · rcases perform_next w ok a with hnil | ⟨b, hb, -⟩
      · rw [hnil]
        exact tail_of_all hrest
      · rw [hb]
        exact hrest
    · intro text rest' heq
      rcases perform_next w ok a with hnil | ⟨b, hb, hsave⟩
      · rw [hnil, nil_append] at heq
        exact absurd heq (not_save_of_initial hrest)
      · rw [hb, singleton_append] at heq
        obtain ⟨hpersist, st', hst', rfl⟩ := hsave text (cons.inj heq).1
        subst hpersist
        exact ⟨st', hst', rfl, h.covers_of_intact hst' (hintact rfl)⟩

theorem Kept.step (h : w.Kept contents u) {l : Label 1} (hl : w.LoadsIntact contents l) :
    (w.step env l).Kept contents u := by
  cases l with
  | connect session => exact h.agree ⟨rfl, rfl, rfl, rfl, rfl, rfl⟩
  | enter i session v op readOK =>
    refine step_enter h fun ha => ?_
    by_cases hv : v = u
    · subst hv
      exact h.enter ha session readOK
    · exact h.agree (agree_enter hv ha session readOK)
  | advance i ok =>
    obtain rfl : i = 0 := Subsingleton.elim _ _
    by_cases hu : (w.calls 0).user = u
    · simp only [LoadsIntact, hu] at hl
      exact h.advance hu ok hl
    · exact h.agree (agree_advance hu ok)
  | restart => exact start_kept h.files _ _

theorem Kept.noLoss (h : w.Kept contents u) (l : Label 1) :
    NoLoss contents u w (w.step env l) := by
  have hsame : (w.step env l).disk u = w.disk u → NoLoss contents u w (w.step env l) :=
    fun hd text htext => ⟨text, hd.trans htext, fun id hid => .inl hid⟩
  cases l with
  | connect session => exact hsame rfl
  | enter i session v op readOK =>
    refine hsame ?_
    simp only [World.step, World.enter]
    split_ifs
    · split <;> rfl
    · rfl
  | advance i ok =>
    obtain rfl : i = 0 := Subsingleton.elim _ _
    by_cases hu : (w.calls 0).user = u
    · have htodo := todoOf_of_user hu
      cases ht : (w.calls 0).todo with
      | nil => exact hsame (by simp only [World.step, World.advance, ht])
      | cons a rest =>
        rw [ht] at htodo
        cases a with
        | save text' =>
          obtain ⟨st, hst, rfl, hcov⟩ := h.pending text' rest htodo
          cases ok with
          | false => exact hsame (by simp [World.step, World.advance, ht, World.perform,
              World.setTodo])
          | true =>
            intro text htext
            refine ⟨env.json.marshal (snapshotUser st), ?_, ?_⟩
            · simp [World.step, World.advance, ht, World.perform, World.rename, World.setTodo, hu]
            · intro id hid
              rcases hcov text htext id hid with hin | hcl
              · left
                rw [contents.tabs_of_unmarshal _ _ (env.json.unmarshal_marshal _)]
                exact ((h.listed st hst).mem_decoded env.json id).mpr hin
              · right
                simpa [World.step, World.advance, ht, World.perform, World.rename, World.setTodo]
                  using hcl
        | emit | view | compare | store | persist =>
          exact hsame (by simp only [World.step, World.advance, ht, World.perform, World.emit,
            World.storeOffset, World.setTodo])
    · exact hsame (agree_advance hu ok).disk
  | restart => exact hsame rfl

/-- In every sequence of calls, over any number of restarts, in which a state that comes from a
failed load is not persisted over tabs: no step loses a stored tab that was not closed. -/
theorem no_loss_after_failed_load (env : Env Text) (contents : Contents env.json)
    (disk : UserID → Option Text)
    (hdisk : ∀ u text s, disk u = some text → env.json.unmarshal text = some s → s.Listed)
    (ls : List (Label 1))
    (hintact : Meets (step env) (LoadsIntact contents) (start disk [] fun _ => []) ls) :
    Along (step env) (fun w _ w' => ∀ u, NoLoss contents u w w') (start disk [] fun _ => []) ls :=
  hintact.along (I := fun w => ∀ u, w.Kept contents u) (fun _ _ h hl u => (h u).step hl)
    (fun _ l h _ u => (h u).noLoss l) (fun u => start_kept (hdisk u) [] _)

/-- A state directory in which one user has one tab saved. -/
def oneTabDisk (u : UserID) : Option UserSnapshot :=
  if u = lit "alice" then
    some
      { order := [lit "0000000000000001"]
        tabs :=
          [{ id := lit "0000000000000001"
             name := lit "repo"
             repo := lit "repo"
             model := lit "gpt-5.2-codex"
             modelReasoningEffort := defaultModelReasoningEffort
             sessionID := []
             buffer := ⟨[lit "hello"], 0⟩
             history := [] }]
        system := ⟨[], 0⟩
        theme := defaultTheme }
  else none

def plainContents : Contents (Env.stock Json.plain).json where
  tabs s := s.tabs.map TabSnapshot.id
  tabs_of_unmarshal text s h := by
    obtain rfl : text = s := Option.some.inj h
    rfl

/-- One new tab, after a load that succeeds or fails, up to the end of the save. -/
def loadThenCreate {n : ℕ} (i : Fin n) (readOK : Bool) : List (Label n) :=
  [.enter i 0 (lit "alice") (.createTab (some (randBytes 2)) (lit "repo") []) readOK,
    .advance i true, .advance i true, .advance i true]

theorem no_loss_after_failed_load_readable :
    let w := exec (step (Env.stock Json.plain)) (start oneTabDisk [] fun _ => [])
      (loadThenCreate (0 : Fin 1) true)
    (w.disk (lit "alice")).map plainContents.tabs =
        some [lit "0000000000000001", lit "0000000000000002"] ∧
      Along (step (Env.stock Json.plain)) (fun w _ w' => ∀ u, NoLoss plainContents u w w')
        (start oneTabDisk [] fun _ => []) (loadThenCreate (0 : Fin 1) true) := by
  refine ⟨by decide, ?_⟩
  refine no_loss_after_failed_load (Env.stock Json.plain) plainContents oneTabDisk ?_ _ (by decide)
  intro u text s htext hs
  obtain rfl : text = s := Option.some.inj hs
  simp only [oneTabDisk] at htext
  split_ifs at htext
  obtain rfl := Option.some.inj htext
  unfold UserSnapshot.Listed
  decide

/-- The file of the one saved tab is replaced, and nobody closed the tab. -/
theorem tab_lost_after_failed_load :
    let w := exec (step (Env.stock Json.plain)) (start oneTabDisk [] fun _ => [])
      (loadThenCreate (0 : Fin 1) false)
    w.Quiet ∧ w.log.origin (lit "alice") = some .failed ∧
      (oneTabDisk (lit "alice")).map plainContents.tabs = some [lit "0000000000000001"] ∧
      (w.disk (lit "alice")).map plainContents.tabs = some [lit "0000000000000002"] ∧
      w.log.closed (lit "alice") = [] := by
  decide

end World

end Centaurx
