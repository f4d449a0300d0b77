import Centaurx.System.Registry

namespace Centaurx
open Go Runs List Function

/-- The tab with the id `wanted` if it is there, otherwise the first one. -/
def pick (order : List TabID) (wanted : TabID) : TabID :=
  if wanted ∈ order then wanted else order.headD []

section Pick
variable {order order' : List TabID} {x : TabID}

theorem pick_of_mem (h : x ∈ order) : pick order x = x := if_pos h

theorem pick_of_notMem (h : x ∉ order) : pick order x = order.headD [] := if_neg h

theorem pick_mem (hne : order ≠ []) (x : TabID) : pick order x ∈ order := by
  rw [pick]
  split_ifs with h
  · exact h
  · cases order with
    | nil => exact absurd rfl hne
    | cons first rest => exact mem_cons_self

theorem pick_mem_or (order : List TabID) (x : TabID) :
    pick order x ∈ order ∨ pick order x = [] := by
  by_cases h : order = []
  · subst h
    exact .inr rfl
  · exact .inl (pick_mem h x)

theorem pick_eq_nil_iff (hnil : [] ∉ order) : pick order x = [] ↔ order = [] := by
  constructor
  · intro h
    by_contra hne
    exact hnil (h ▸ pick_mem hne x)
  · rintro rfl
    rfl

theorem pick_pick (hnil : [] ∉ order) : pick order (pick order x) = pick order x := by
  rcases pick_mem_or order x with h | h
  · exact pick_of_mem h
  · rw [h, pick_of_notMem hnil, (pick_eq_nil_iff hnil).mp h]
    rfl

/-- The order changes, but the choice does not come back and the first tab stays the first as long
as it is there. Then the tab that was chosen stays chosen as long as it is there. -/
theorem pick_change (hnil : [] ∉ order') (hback : x ∉ order → x ∉ order')
    (hhead : ∀ first, order.head? = some first → first ∈ order' → order'.head? = some first) :
    pick order' x = pick order' (pick order x) := by
  by_cases hx : x ∈ order
  · rw [pick_of_mem hx]
  · rw [pick_of_notMem hx, pick_of_notMem (hback hx)]
    cases order with
    | nil => exact (pick_of_notMem hnil).symm
    | cons first rest =>
      by_cases hfirst : first ∈ order'
      · rw [headD_cons, pick_of_mem hfirst, headD_eq_head?_getD, hhead first rfl hfirst]
        rfl
      · exact (pick_of_notMem hfirst).symm

end Pick

theorem UserState.Registered.order_eq_nil_iff {st : UserState} (h : st.Registered) :
    st.order = [] ↔ st.tabs = ∅ := by
  constructor
  · intro horder
    refine Finmap.ext_lookup fun id => ?_
    rw [Finmap.lookup_empty, Finmap.lookup_eq_none, ← h.mem_iff, horder]
    exact not_mem_nil
  · intro htabs
    refine eq_nil_iff_forall_not_mem.mpr fun id hid => ?_
    rw [h.mem_iff, htabs] at hid
    exact Finmap.notMem_empty hid

theorem activeTabFromContext_eq (firstKey : Finset TabID → TabID) {st : UserState}
    (hst : st.Registered) (hnil : [] ∉ st.order) (p : Prefs) :
    activeTabFromContext firstKey (some p) st =
      (some { p with activeTab := pick st.order p.activeTab }, pick st.order p.activeTab) := by
  have hkeys : st.tabs.keys = ∅ ↔ st.order = [] := by
    rw [Finset.eq_empty_iff_forall_notMem, eq_nil_iff_forall_not_mem]
    exact forall_congr' fun id => not_congr (Finmap.mem_keys.trans (hst.mem_iff id).symm)
  simp only [activeTabFromContext]
  split_ifs with hempty hwanted
  · rw [hkeys.mp hempty]
    rfl
  · rw [pick_of_mem ((hst.mem_iff _).mpr hwanted.2)]
  · have hnot : p.activeTab ∉ st.order := by
      intro hmem
      refine hwanted ⟨?_, (hst.mem_iff _).mp hmem⟩
      rintro heq
      exact hnil (heq ▸ hmem)
    rw [pick_of_notMem hnot]
    cases horder : st.order with
    | nil => exact absurd (hkeys.mpr horder) hempty
    | cons first rest =>
      have hfirst : first ∈ st.tabs := (hst.mem_iff first).mp (horder ▸ mem_cons_self)
      simp only [head?_cons, hfirst, if_true, headD_cons]

/-- What a section does to the preferences of its session. -/
inductive PrefsChange (st st' : UserState) (p : Prefs) : Op → Prefs → Prop
  | same (op : Op) (h : ∀ id, op = .activateTab id → id ∉ st.tabs) : PrefsChange st st' p op p
  | before (op : Op) (h : ∀ id, op = .activateTab id → id ∉ st.tabs) :
      PrefsChange st st' p op { p with activeTab := pick st.order p.activeTab }
  | after (op : Op) (h : ∀ id, op = .activateTab id → id ∉ st.tabs) :
      PrefsChange st st' p op { p with activeTab := pick st'.order p.activeTab }
  | activated (id : TabID) (h : id ∈ st.tabs) :
      PrefsChange st st' p (.activateTab id) { p with activeTab := id }

theorem PrefsChange.entry {st st' : UserState} {p p' : Prefs} {op : Op} {drawn : List TabID}
    (h : PrefsChange st st' p op p') (hp : p.activeTab = [] ∨ p.activeTab ∈ drawn)
    (hst : st.Registered) (hknown : ∀ id ∈ st.order, id ∈ drawn)
    (hknown' : ∀ id ∈ st'.order, id ∈ drawn) : p'.activeTab = [] ∨ p'.activeTab ∈ drawn := by
  cases h with
  | same => exact hp
  | before => exact (pick_mem_or st.order p.activeTab).symm.imp_right (hknown _)
  | after => exact (pick_mem_or st'.order p.activeTab).symm.imp_right (hknown' _)
  | activated id hid => exact .inr (hknown id ((hst.mem_iff id).mpr hid))

theorem PrefsChange.pick_eq {st st' : UserState} {p p' : Prefs} {op : Op}
    (h : PrefsChange st st' p op p') (hnil' : [] ∉ st'.order)
    (hpick : pick st'.order p.activeTab = pick st'.order (pick st.order p.activeTab)) :
    (∃ id, op = .activateTab id ∧ id ∈ st.tabs ∧ p'.activeTab = id) ∨
      pick st'.order p'.activeTab = pick st'.order (pick st.order p.activeTab) := by
  cases h with
  | same => exact .inr hpick
  | before => exact .inr rfl
  | after => exact .inr ((pick_pick hnil').trans hpick)
  | activated id hid => exact .inl ⟨id, rfl, hid, rfl⟩

section Serve
variable {Text : Type} (env : Env Text) {st : UserState}

/-- Apart from `CloseTab` and `ActivateTab`, a section leaves the preferences alone, or asks for
the active tab in the state before it or after it. -/
theorem serve_prefs (ctx : Option Prefs) (st : UserState) {op : Op}
    (hclose : ∀ id, op ≠ .closeTab id) (hactivate : ∀ id, op ≠ .activateTab id) :
    (serve env ctx st op).prefs = ctx ∨
      (serve env ctx st op).prefs = (activeTabFromContext env.firstKey ctx st).1 ∨
      (serve env ctx st op).prefs =
        (activeTabFromContext env.firstKey ctx (serve env ctx st op).state).1 := by
  cases op with
  | closeTab id => exact absurd rfl (hclose id)
  | activateTab id => exact absurd rfl (hactivate id)
  | createTab | setTheme => exact .inr (.inr rfl)
  | listTabs => exact .inr (.inl rfl)
  | appendSystemOutput | getSystemBuffer | appendSystemLines => exact .inl rfl
  | registerCommand | unregisterCommand | consumeUsage | setSessionID | appendLines =>
    simp only [serve, touchTab]
    split <;> exact .inl rfl
  | getHistory id | getTabUsage id =>
    simp only [serve, lookupTab]
    split <;> exact .inl rfl
  | stopSession id =>
    simp only [serve, lookupTab]
    split <;> exact .inr (.inl rfl)
  | getBuffer id limit => simp only [serve, getBuffer]; split <;> exact .inl rfl
  | scrollBuffer id delta limit => simp only [serve, scrollBuffer]; split <;> exact .inl rfl
  | appendHistory id entry => simp only [serve, appendHistory]; split <;> exact .inl rfl
  | sendPromptPublish => simp only [serve, sendPromptPublish]; split <;> exact .inl rfl
  | appendOutput id lines => simp only [serve, appendOutput]; split <;> exact .inr (.inl rfl)
  | renewSession id =>
    simp only [serve, renewSession]
    repeat' split
    all_goals exact .inr (.inl rfl)
  | sendPromptCheck id =>
    simp only [serve, sendPromptCheck]
    repeat' split
    all_goals exact .inr (.inl rfl)
  | switchRepo id repoName =>
    simp only [serve, switchRepo]
    split
    · exact .inl rfl
    · exact .inr (.inr rfl)
  | setModel id model effort =>
    simp only [serve, setModel]
    repeat' split
    all_goals first | exact .inl rfl | exact .inr (.inr rfl)
  | consumeComplete id handle =>
    simp only [serve, consumeComplete]
    repeat' split
    all_goals first | exact .inl rfl | exact .inr (.inl rfl)

theorem serve_prefs_none (st : UserState) (op : Op) : (serve env none st op).prefs = none := by
  by_cases hclose : ∃ id, op = .closeTab id
  · obtain ⟨id, rfl⟩ := hclose
    simp only [serve, closeTab]
    split <;> rfl
  · by_cases hactivate : ∃ id, op = .activateTab id
    · obtain ⟨id, rfl⟩ := hactivate
      simp only [serve, activateTab]
      split <;> rfl
    · rcases serve_prefs env none st (not_exists.mp hclose) (not_exists.mp hactivate)
        with h | h | h <;> exact h

variable {env}

theorem closeTab_prefsChange (hst : st.Registered) (p : Prefs) (id : TabID)
    (hnil : [] ∉ (closeTab env (some p) st id).state.order) :
    ∃ p', (closeTab env (some p) st id).prefs = some p' ∧
      PrefsChange st (closeTab env (some p) st id).state p (.closeTab id) p' := by
  have hop : ∀ id', Op.closeTab id = .activateTab id' → id' ∉ st.tabs := fun _ heq => by cases heq
  cases hid : st.tabs.lookup id with
  | none => exact ⟨p, by simp only [closeTab, hid]; rfl, .same _ hop⟩
  | some t =>
    have hreg := hst.deleteTab id
    have hgone : id ∉ (st.deleteTab id).order := by
      rw [hreg.mem_iff]
      exact fun hmem => (Finmap.mem_erase.mp hmem).1 rfl
    simp only [closeTab, hid] at hnil ⊢
    -- an entry that names the closed tab is emptied, which makes no difference to the choice
    have hpick : ∀ q : Prefs, q = (if p.activeTab = id then { p with activeTab := [] } else p) →
        ({ q with activeTab := pick (st.deleteTab id).order q.activeTab } : Prefs) =
          { p with activeTab := pick (st.deleteTab id).order p.activeTab } := by
      rintro q rfl
      split_ifs with heq
      · rw [heq, pick_of_notMem hgone, pick_of_notMem hnil]
      · rfl
    refine ⟨_, ?_, .after _ hop⟩
    rw [Option.map_some, activeTabFromContext_eq env.firstKey hreg hnil, hpick _ rfl]

theorem activateTab_prefsChange (hst : st.Registered) (hnil : [] ∉ st.order) (p : Prefs)
    (id : TabID) :
    ∃ p', (activateTab env (some p) st id).prefs = some p' ∧
      PrefsChange st (activateTab env (some p) st id).state p (.activateTab id) p' := by
  cases hid : st.tabs.lookup id with
  | none =>
    refine ⟨p, by simp only [activateTab, hid]; rfl, .same _ ?_⟩
    rintro id' heq
    obtain rfl := Op.activateTab.inj heq
    exact Finmap.lookup_eq_none.mp hid
  | some t =>
    have hmem := Finmap.mem_of_lookup_eq_some hid
    refine ⟨_, ?_, .activated id hmem⟩
    simp only [activateTab, hid, Option.map_some]
    rw [activeTabFromContext_eq env.firstKey hst hnil, pick_of_mem ((hst.mem_iff id).mpr hmem)]

theorem serve_prefsChange (hst : st.Registered) (hnil : [] ∉ st.order) (p : Prefs) (op : Op)
    (hst' : (serve env (some p) st op).state.Registered)
    (hnil' : [] ∉ (serve env (some p) st op).state.order) :
    ∃ p', (serve env (some p) st op).prefs = some p' ∧
      PrefsChange st (serve env (some p) st op).state p op p' := by
  by_cases hclose : ∃ id, op = .closeTab id
  · obtain ⟨id, rfl⟩ := hclose
    exact closeTab_prefsChange hst p id hnil'
  · by_cases hactivate : ∃ id, op = .activateTab id
    · obtain ⟨id, rfl⟩ := hactivate
      exact activateTab_prefsChange hst hnil p id
    · have hop : ∀ id, op = .activateTab id → id ∉ st.tabs :=
        fun id heq => absurd ⟨id, heq⟩ hactivate
      rcases serve_prefs env (some p) st (not_exists.mp hclose) (not_exists.mp hactivate)
        with h | h | h
      · exact ⟨p, h, .same op hop⟩
      · rw [activeTabFromContext_eq env.firstKey hst hnil] at h
        exact ⟨_, h, .before op hop⟩
      · rw [activeTabFromContext_eq env.firstKey hst' hnil'] at h
        exact ⟨_, h, .after op hop⟩

end Serve

/-- The session of a call belongs to the user of the call. -/
def Label.ownedBy {n : ℕ} (owner : ℕ → UserID) : Label n → Bool
  | .enter _ session u _ _ => owner session = u
  | _ => true

namespace World
variable {Text : Type} {n : ℕ} (env : Env Text) (owner : ℕ → UserID)

/-- The tab that `activeTabFromContext` returns to a session. It is also asked, and then returns no
tab, when there are no preferences or no state of the user. -/
def activeTab (w : World Text n) (session : ℕ) : TabID :=
  match w.users (owner session) with
  | none => []
  | some st => (activeTabFromContext env.firstKey (w.sessions session) st).2

/-- No id is empty, the sessions' entries are ids that were drawn, and a session has none before
the state of its user is loaded. -/
structure Named (w : World Text n) : Prop where
  drawn : [] ∉ w.log.drawn
  entries : ∀ session p, w.sessions session = some p →
    p.activeTab = [] ∨ p.activeTab ∈ w.log.drawn
  unloaded : ∀ session p, w.sessions session = some p → w.users (owner session) = none →
    p.activeTab = []

theorem birth_named : (birth : World Text n).Named owner where
  drawn := by simp [birth, start]
  entries session p h := by simp [birth, start] at h
  unloaded session p h := by simp [birth, start] at h

/-- How the order of a user's tabs changes. -/
inductive OrderMove (drawn : List TabID) (l : Label n) (u : UserID) (order : List TabID) :
    List TabID → Prop
  | same : OrderMove drawn l u order order
  | appended (id : TabID) (hid : id ∉ drawn) (hne : id ≠ []) :
      OrderMove drawn l u order (order ++ [id])
  | erased (i : Fin n) (session : ℕ) (id : TabID) (readOK : Bool)
      (hl : l = .enter i session u (.closeTab id) readOK) (hid : id ∈ order) :
      OrderMove drawn l u order (order.erase id)

section Move
variable {drawn order order' : List TabID} {l : Label n} {u : UserID} {x : TabID}

theorem OrderMove.head (h : OrderMove drawn l u order order') (hnd : order.Nodup) :
    ∀ first, order.head? = some first → first ∈ order' → order'.head? = some first := by
  intro first hfirst hmem
  obtain ⟨rest, rfl⟩ := head?_eq_some_iff.mp hfirst
  cases h with
  | same | appended id => rfl
  | erased i session id readOK hl hid =>
    by_cases heq : first = id
    · subst heq
      rw [erase_cons_head] at hmem
      exact absurd hmem (nodup_cons.mp hnd).1
    · rw [erase_cons_tail (by simpa using heq)]
      rfl

theorem OrderMove.back (h : OrderMove drawn l u order order') (hx : x = [] ∨ x ∈ drawn) :
    x ∉ order → x ∉ order' := by
  intro hnot
  cases h with
  | same => exact hnot
  | appended id hid hne =>
    rw [mem_append, mem_singleton]
    rintro (hmem | rfl)
    · exact hnot hmem
    · exact hx.elim hne hid
  | erased i session id readOK hl hid => exact fun hmem => hnot (mem_of_mem_erase hmem)

theorem OrderMove.closed (h : OrderMove drawn l u order order') (hx : x ∈ order)
    (hx' : x ∉ order') : ∃ i session readOK, l = .enter i session u (.closeTab x) readOK := by
  cases h with
  | same => exact absurd hx hx'
  | appended id => exact absurd (mem_append_left _ hx) hx'
  | erased i session id readOK hl hid =>
    by_cases heq : x = id
    · subst heq
      exact ⟨i, session, readOK, hl⟩
    · exact absurd ((mem_erase_of_ne heq).mpr hx) hx'

end Move

variable {env owner} {w : World Text n} {l : Label n} {st : UserState}

theorem Named.nil_notMem (h : w.Named owner) (hst : UserOk env w.log.drawn st) : [] ∉ st.order :=
  fun hnil => h.drawn (hst.known [] hnil)

theorem serve_orderMove (env : Env Text) {drawn : List TabID} (hst : st.Registered) {op : Op}
    (hfresh : ∀ id, op.newID = some id → id ∉ drawn) (ctx : Option Prefs) (i : Fin n) (session : ℕ)
    (u : UserID) (readOK : Bool) :
    OrderMove drawn (.enter i session u op readOK) u st.order
      (Centaurx.serve env ctx st op).state.order := by
  rw [serve_order]
  cases op with
  | createTab rand repoName tabName => exact .appended _ (hfresh _ rfl) (newID_ne_nil rand)
  | closeTab id =>
    dsimp only
    split_ifs with hid
    · exact .erased i session id readOK rfl ((hst.mem_iff id).mpr hid)
    · exact .same
  | _ => exact .same

/-- What a step does to a session and to the tabs of its user. -/
inductive SessionStep (env : Env Text) (owner : ℕ → UserID) (w : World Text n) (l : Label n)
    (session : ℕ) (w' : World Text n) : Prop
  | untouched (hs : w'.sessions session = w.sessions session)
      (hu : (w'.users (owner session)).map UserState.order =
        (w.users (owner session)).map UserState.order)
  | connected (hl : l = .connect session) (hs : w'.sessions session = some ⟨false, []⟩)
  | restarted (hs : w'.sessions session = none)
  | entered (i : Fin n) (session' : ℕ) (op : Op) (readOK : Bool) (st : UserState)
      (hl : l = .enter i session' (owner session) op readOK)
      (hf : w.found env (owner session) op readOK = some st)
      (hu : w'.users (owner session) = some (Centaurx.serve env (w.sessions session') st op).state)
      (hs : w'.sessions session = if session = session' then
        (Centaurx.serve env (w.sessions session') st op).prefs else w.sessions session)

theorem sessionStep (env : Env Text) (w : World Text n) (hown : l.ownedBy owner = true)
    (session : ℕ) : SessionStep env owner w l session (w.step env l) := by
  cases l with
  | connect session' =>
    by_cases hsess : session = session'
    · subst hsess
      exact .connected rfl (by simp [World.step])
    · exact .untouched (by simp [World.step, update_of_ne hsess]) rfl
  | enter i session' u op readOK =>
    have hu : owner session' = u := of_decide_eq_true hown
    simp only [World.step]
    split_ifs with ha
    · simp only [World.enter]
      cases hf : w.found env u op readOK with
      | none => exact .untouched rfl rfl
      | some st =>
        by_cases hsu : owner session = u
        · subst hsu
          refine .entered i session' op readOK st rfl hf ?_ ?_
          · simp
          · simp [update_apply]
        · have hsess : session ≠ session' := fun heq => hsu (heq ▸ hu)
          exact .untouched (by simp [update_of_ne hsess])
            (by simp [update_of_ne hsu])
    · exact .untouched rfl rfl
  | advance i ok =>
    simp only [World.step, World.advance]
    split
    · exact .untouched rfl rfl
    · exact .untouched (by simp [setTodo]) (perform_order w _ ok _ _)
  | restart => exact .restarted rfl

/-- The entry of a session whose user is served, by this session or another one. -/
theorem entered_prefs {session session' : ℕ} {op : Op} {p' : Prefs} (hst : st.Registered)
    (hnil : [] ∉ st.order)
    (hst' : (Centaurx.serve env (w.sessions session') st op).state.Registered)
    (hnil' : [] ∉ (Centaurx.serve env (w.sessions session') st op).state.order)
    (hs : (if session = session' then (Centaurx.serve env (w.sessions session') st op).prefs
      else w.sessions session) = some p')
    :
    ∃ p, w.sessions session = some p ∧ (p' = p ∨ session = session' ∧
      PrefsChange st (Centaurx.serve env (w.sessions session') st op).state p op p') := by
  by_cases hsess : session = session'
  · subst hsess
    rw [if_pos rfl] at hs
    cases hp : w.sessions session with
    | none => simp [hp, serve_prefs_none] at hs
    | some p =>
      rw [hp] at hst' hnil' hs
      obtain ⟨q, hq, hchange⟩ := serve_prefsChange hst hnil p op hst' hnil'
      obtain rfl : q = p' := Option.some.inj (hq.symm.trans hs)
      exact ⟨p, rfl, .inr ⟨rfl, hchange⟩⟩
  · rw [if_neg hsess] at hs
    exact ⟨p', hs, .inl rfl⟩

theorem Named.step (hn : w.Named owner) (h : w.Good env) (hl : w.DrawsFresh l)
    (hown : l.ownedBy owner = true) : (w.step env l).Named owner := by
  have hgood := h.step hl
  have hdrawn : [] ∉ (w.step env l).log.drawn := drawn_named_step hn.drawn l
  refine ⟨hdrawn, ?_, ?_⟩
  · intro session p' hp'
    have hmono : ∀ p, w.sessions session = some p →
        p.activeTab = [] ∨ p.activeTab ∈ (w.step env l).log.drawn :=
      fun p hp => (hn.entries session p hp).imp_right fun hmem => drawn_subset_step w l hmem
    cases sessionStep env w hown session with
    | untouched hs hu => exact hmono p' (hs ▸ hp')
    | connected heq hs =>
      obtain rfl := Option.some.inj (hs.symm.trans hp')
      exact .inl rfl
    | restarted hs => simp [hs] at hp'
    | entered i session' op readOK st heq hf hu hs =>
      have hst := h.found hf
      have hst' := hgood.users _ _ hu
      obtain ⟨p, hp, rfl | ⟨-, hchange⟩⟩ := entered_prefs hst.ok.registered (hn.nil_notMem hst)
        hst'.ok.registered (fun hid => hdrawn (hst'.known _ hid)) (hs.symm.trans hp')
      · exact hmono _ hp
      · exact hchange.entry (hmono p hp) hst.ok.registered
          (fun id hid => drawn_subset_step w l (hst.known id hid)) hst'.known
  · intro session p' hp' hnone
    cases sessionStep env w hown session with
    | untouched hs hu =>
      rw [hnone, Option.map_none] at hu
      exact hn.unloaded session p' (hs ▸ hp') (Option.map_eq_none_iff.mp hu.symm)
    | connected heq hs =>
      obtain rfl := Option.some.inj (hs.symm.trans hp')
      rfl
    | restarted hs => simp [hs] at hp'
    | entered i session' op readOK st heq hf hu hs => simp [hu] at hnone

/-- What a step does to the active tab of a session that it does not connect: an activation by
this session chooses the tab, otherwise the active tab stays while it exists, and after that
it is the first one. -/
def ActiveStep (env : Env Text) (owner : ℕ → UserID) (w : World Text n) (l : Label n)
    (w' : World Text n) : Prop :=
  ∀ session st', (w'.sessions session).isSome → w'.users (owner session) = some st' →
    l ≠ .connect session →
    let a := w.activeTab env owner session
    let a' := w'.activeTab env owner session
    (∃ i id readOK, l = .enter i session (owner session) (.activateTab id) readOK ∧
      id ∈ st'.tabs ∧ a' = id) ∨
    (a ∈ st'.tabs ∧ a' = a) ∨
    (a' = st'.order.headD [] ∧ (a = [] ∨ a ∉ st'.tabs ∧
      ∃ i session' readOK, l = .enter i session' (owner session) (.closeTab a) readOK))

theorem activeTab_eq_pick (hn : w.Named owner) (h : w.Good env) {session : ℕ} {p : Prefs}
    (hp : w.sessions session = some p) (hu : w.users (owner session) = some st) :
    w.activeTab env owner session = pick st.order p.activeTab := by
  have hst := h.users _ _ hu
  simp only [activeTab, hu, hp]
  rw [activeTabFromContext_eq env.firstKey hst.ok.registered (hn.nil_notMem hst)]

theorem activeTab_of_unloaded {session : ℕ} (hu : w.users (owner session) = none) :
    w.activeTab env owner session = [] := by
  simp only [activeTab, hu]

/-- The tab that was chosen is chosen again while it is there. -/
theorem OrderMove.active {drawn : List TabID} {u : UserID} {order : List TabID} {st' : UserState}
    {a a' : TabID} (h : OrderMove drawn l u order st'.order) (hst' : st'.Registered)
    (ha : a ∈ order ∨ a = []) (ha' : a' = pick st'.order a) :
    (a ∈ st'.tabs ∧ a' = a) ∨ (a' = st'.order.headD [] ∧ (a = [] ∨ a ∉ st'.tabs ∧
      ∃ i session readOK, l = .enter i session u (.closeTab a) readOK)) := by
  rw [← hst'.mem_iff]
  by_cases hmem : a ∈ st'.order
  · exact .inl ⟨hmem, ha'.trans (pick_of_mem hmem)⟩
  · refine .inr ⟨ha'.trans (pick_of_notMem hmem), ?_⟩
    rcases ha with hold | hnone
    · exact .inr ⟨hmem, h.closed hold hmem⟩
    · exact .inl hnone

theorem Named.activeStep (hn : w.Named owner) (h : w.Good env) (hl : w.DrawsFresh l)
    (hown : l.ownedBy owner = true) : ActiveStep env owner w l (w.step env l) := by
  intro session st' hsome hu' hconn a a'
  have hgood := h.step hl
  have hnamed := hn.step h hl hown
  have hst' := hgood.users _ _ hu'
  have hnil' := hnamed.nil_notMem hst'
  have hreg' := hst'.ok.registered
  obtain ⟨p', hp'⟩ := Option.isSome_iff_exists.mp hsome
  have ha' : a' = pick st'.order p'.activeTab := activeTab_eq_pick hnamed hgood hp' hu'
  cases sessionStep env w hown session with
  | untouched hs hu =>
    rw [hu', Option.map_some] at hu
    obtain ⟨st, hst, horder⟩ := Option.map_eq_some_iff.mp hu.symm
    have ha : a = a' := by
      rw [ha', ← horder]
      exact activeTab_eq_pick hn h (hs.symm.trans hp') hst
    have hmem : a' ∈ st'.order ∨ a' = [] := ha' ▸ pick_mem_or st'.order p'.activeTab
    rw [ha]
    have hsame : OrderMove w.log.drawn l (owner session) st'.order st'.order := .same
    refine .inr (hsame.active hreg' hmem ?_)
    rw [ha', pick_pick hnil']
  | connected heq hs => exact absurd heq hconn
  | restarted hs => simp [hs] at hp'
  | entered i session' op readOK st heq hf hu hs =>
    obtain rfl := Option.some.inj (hu.symm.trans hu')
    have hst := h.found hf
    have hreg := hst.ok.registered
    obtain ⟨p, hp, hchange⟩ :=
      entered_prefs hreg (hn.nil_notMem hst) hreg' hnil' (hs.symm.trans hp')
    subst heq
    have hmove := serve_orderMove env hreg hl (w.sessions session') i session' (owner session)
      readOK
    -- the entry may name a tab that is gone, but no tab comes back
    have hpick := pick_change hnil' (hmove.back (hn.entries session p hp)) (hmove.head hreg.nodup)
    have hnext : (∃ id, session = session' ∧ op = .activateTab id ∧ id ∈ st.tabs ∧
        p'.activeTab = id) ∨
        a' = pick (Centaurx.serve env (w.sessions session') st op).state.order
          (pick st.order p.activeTab) := by
      rcases hchange with rfl | ⟨hsess, hchange⟩
      · exact .inr (ha'.trans hpick)
      · rcases hchange.pick_eq hnil' hpick with ⟨id, hop⟩ | heq
        · exact .inl ⟨id, hsess, hop⟩
        · exact .inr (ha'.trans heq)
    rcases hnext with ⟨id, rfl, rfl, hid, hentry⟩ | hnext
    · have hthere :
          id ∈ (Centaurx.serve env (w.sessions session) st (.activateTab id)).state.order := by
        rw [serve_order]
        exact (hreg.mem_iff id).mpr hid
      refine .inl ⟨i, id, readOK, rfl, (hreg'.mem_iff id).mp hthere, ?_⟩
      rw [ha', hentry, pick_of_mem hthere]
    · right
      cases hmem : w.users (owner session) with
      | none =>
        have hentry := hn.unloaded session p hp hmem
        have ha : a = [] := activeTab_of_unloaded hmem
        refine .inr ⟨?_, .inl ha⟩
        rw [hnext, ← hpick, hentry, pick_of_notMem hnil']
      | some st₀ =>
        obtain rfl : st₀ = st := by
          rw [found_of_memory hmem (h.users _ _ hmem).ok.theme] at hf
          exact Option.some.inj hf
        have ha : a = pick st₀.order p.activeTab := activeTab_eq_pick hn h hp hmem
        exact hmove.active hreg' (ha ▸ pick_mem_or st₀.order p.activeTab) (ha ▸ hnext)

/-- However the calls of the sessions interleave, the active tab of a session is one of its user's
tabs whenever there are any, and no step changes it otherwise than described. -/
theorem active_tab_per_session (env : Env Text) (owner : ℕ → UserID) (ls : List (Label n))
    (hrun : Meets (step env) (fun w l => w.DrawsFresh l ∧ l.ownedBy owner = true)
      (birth : World Text n) ls) :
    (∀ u st p, (exec (step env) (birth : World Text n) ls).users u = some st →
      let a := (activeTabFromContext env.firstKey (some p) st).2
      (a = [] ↔ st.tabs = ∅) ∧ (a ≠ [] → a ∈ st.tabs)) ∧
    Along (step env) (ActiveStep env owner) (birth : World Text n) ls := by
  have hstep : ∀ (w : World Text n) l, w.Good env ∧ w.Named owner →
      w.DrawsFresh l ∧ l.ownedBy owner = true →
      (w.step env l).Good env ∧ (w.step env l).Named owner :=
    fun _ _ h hl => ⟨h.1.step hl.1, h.2.step h.1 hl.1 hl.2⟩
  have hbirth : (birth : World Text n).Good env ∧ (birth : World Text n).Named owner :=
    ⟨birth_good env, birth_named owner⟩
  constructor
  · intro u st p hu a
    obtain ⟨hgood, hnamed⟩ := hrun.invariant hstep hbirth
    have hst := hgood.users u st hu
    have hreg := hst.ok.registered
    have hnil := hnamed.nil_notMem hst
    have ha : a = pick st.order p.activeTab := by
      simp only [a, activeTabFromContext_eq env.firstKey hreg hnil]
    rw [ha, pick_eq_nil_iff hnil, ← hreg.mem_iff]
    exact ⟨hreg.order_eq_nil_iff, fun hne => (pick_mem_or st.order p.activeTab).resolve_right hne⟩
  · exact hrun.along hstep (fun _ _ h hl => h.2.activeStep h.1 hl.1 hl.2) hbirth

/-- One session opens two tabs and activates the second one; another session closes it. -/
def sessionsRun : List (Label 2) :=
  [.connect 0, .connect 1,
    .enter 0 0 (lit "alice") (.createTab (some (randBytes 1)) (lit "repo") []) true,
    .advance 0 true, .advance 0 true, .advance 0 true,
    .enter 0 0 (lit "alice") (.createTab (some (randBytes 2)) (lit "repo") []) true,
    .enter 1 1 (lit "alice") (.activateTab (lit "0000000000000002")) true,
    .advance 1 true, .advance 0 true, .advance 0 true, .advance 0 true,
    .enter 0 0 (lit "alice") (.closeTab (lit "0000000000000002")) true]

theorem active_tab_per_session_sessionsRun :
    let owner := fun _ => lit "alice"
    let world := fun ls => exec (step (Env.stock Json.plain)) birth ls
    Meets (step (Env.stock Json.plain)) (fun w l => w.DrawsFresh l ∧ l.ownedBy owner = true) birth
        sessionsRun ∧
      (world (sessionsRun.take 8)).activeTab (Env.stock Json.plain) owner 0 =
        lit "0000000000000001" ∧
      (world (sessionsRun.take 8)).activeTab (Env.stock Json.plain) owner 1 =
        lit "0000000000000002" ∧
      (world sessionsRun).activeTab (Env.stock Json.plain) owner 1 = lit "0000000000000001" ∧
      Along (step (Env.stock Json.plain)) (ActiveStep (Env.stock Json.plain) owner) birth
        sessionsRun := by
  intro owner world
  have hrun : Meets (step (Env.stock Json.plain))
      (fun w l => w.DrawsFresh l ∧ l.ownedBy owner = true) birth sessionsRun := by decide
  exact ⟨hrun, by decide, by decide, by decide, (active_tab_per_session _ owner _ hrun).2⟩

end World

end Centaurx
