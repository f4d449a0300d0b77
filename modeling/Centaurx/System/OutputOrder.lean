import Centaurx.Lib.Sole
import Centaurx.Core.RoundTrip
import Centaurx.System.World

namespace Centaurx
open Go Runs List Function

def StreamEvent.outputLines (id : TabID) (e : StreamEvent) : List GoString :=
  match e.body with
  | .output id' lines => if id' = id then lines else []
  | _ => []

/-- The lines of the tab's output events, in the order of the events. -/
def outputLines (id : TabID) (events : List StreamEvent) : List GoString :=
  events.flatMap (StreamEvent.outputLines id)

/-- The lines appended to the tab's buffer, in the order of the appends. -/
def appendedLines (id : TabID) (appended : List (TabID × List GoString)) : List GoString :=
  appended.flatMap fun p => if p.1 = id then p.2 else []

/-- The lines of the tab's output event that an act is about to publish. -/
def Act.outputLines {Text : Type} (id : TabID) : Act Text → List GoString
  | .emit (.output id' lines) => if id' = id then lines else []
  | _ => []

def todoLines {Text : Type} (id : TabID) (todo : List (Act Text)) : List GoString :=
  todo.flatMap (Act.outputLines id)

def Op.appendsTo (id : TabID) : Op → Bool
  | .appendOutput id' lines => id' = id && lines ≠ []
  | .appendLines id' lines => id' = id && lines ≠ []
  | _ => false

section Sections

variable {Text : Type} (id : TabID)

theorem todoLines_append (l₁ l₂ : List (Act Text)) :
    todoLines id (l₁ ++ l₂) = todoLines id l₁ ++ todoLines id l₂ := flatMap_append

theorem todoLines_emitOutput (id' : TabID) (lines : List GoString) :
    todoLines id (emitOutput id' lines ++ [(.persist : Act Text)]) =
      appendedLines id [(id', lines)] := by
  by_cases h : lines = []
  · simp [todoLines, appendedLines, emitOutput, Act.outputLines, h]
  · simp [todoLines, appendedLines, emitOutput, Act.outputLines, h]

/-- A section that appends lines leaves exactly these lines to publish. -/
theorem serve_todoLines (env : Env Text) (ctx : Option Prefs) (st : UserState) (op : Op) :
    todoLines id (serve env ctx st op).todo = appendedLines id (op.appends st) := by
  cases op with
  | appendOutput id' lines | appendLines id' lines =>
    simp only [serve, appendOutput, touchTab, Op.appends]
    split
    · next hid => rw [if_neg (Finmap.lookup_eq_none.mp hid)]; rfl
    · next t hid =>
      rw [if_pos (Finmap.mem_of_lookup_eq_some hid)]
      exact todoLines_emitOutput id id' lines
  | _ =>
    simp only [serve, createTab, closeTab, activateTab, setModel, switchRepo, renewSession,
      setTheme, getBuffer, scrollBuffer, appendSystem, appendHistory, touchTab, sendPromptCheck,
      sendPromptPublish, consumeComplete, lookupTab, updateTab]
    repeat' split
    all_goals rfl

theorem appendsTo_of_appends {st : UserState} {op : Op}
    (h : appendedLines id (op.appends st) ≠ []) : op.appendsTo id = true := by
  cases op with
  | appendOutput id' lines | appendLines id' lines =>
    simp only [Op.appends] at h
    split_ifs at h
    · by_cases hid : id' = id <;> simp_all [appendedLines, Op.appendsTo]
    · exact absurd rfl h
  | _ => exact absurd rfl h

/-- How a section may change the buffer of a tab: its lines grow at the end by what the
operation appends, and are trimmed at the front. -/
def Extends (id : TabID) (ls : List GoString) (st st' : UserState) : Prop :=
  ∀ t', st'.tabs.lookup id = some t' →
    t'.buffer.lines = [] ∨
      ∃ t, st.tabs.lookup id = some t ∧ t'.buffer.lines <:+ t.buffer.lines ++ ls

variable {id}

theorem Extends.of_tabs {st st' : UserState} (h : st'.tabs = st.tabs) : Extends id [] st st' := by
  intro t' ht'
  rw [h] at ht'
  exact .inr ⟨t', ht', by simp⟩

theorem Extends.keep {st : UserState} {id' : TabID} {t t' : Tab}
    (hid : st.tabs.lookup id' = some t) (h : t'.buffer.lines = t.buffer.lines) :
    Extends id [] st (st.putTab id' t') := by
  intro s hs
  rw [UserState.lookup_putTab] at hs
  split_ifs at hs with he
  · obtain rfl : t' = s := Option.some.inj hs
    exact .inr ⟨t, he ▸ hid, by simp [h]⟩
  · exact .inr ⟨s, hs, by simp⟩

theorem Extends.append {st : UserState} {id' : TabID} {t : Tab}
    (hid : st.tabs.lookup id' = some t) (ls : List GoString) :
    Extends id (appendedLines id [(id', ls)]) st
      (st.putTab id' { t with buffer := t.buffer.append ls }) := by
  intro s hs
  rw [UserState.lookup_putTab] at hs
  split_ifs at hs with he
  · obtain rfl : _ = s := Option.some.inj hs
    subst he
    refine .inr ⟨t, hid, ?_⟩
    simpa [appendedLines] using Buffer.append_suffix t.buffer ls
  · refine .inr ⟨s, hs, ?_⟩
    simp [appendedLines, Ne.symm he]

theorem serve_extends (env : Env Text) (ctx : Option Prefs) (st : UserState) (op : Op) :
    Extends id (appendedLines id (op.appends st)) st (serve env ctx st op).state := by
  by_cases happends : op.appendsLines = true
  · cases op with
    | appendOutput id' lines | appendLines id' lines =>
      simp only [serve, appendOutput, touchTab, Op.appends]
      cases hid : st.tabs.lookup id' with
      | none =>
        rw [if_neg (Finmap.lookup_eq_none.mp hid)]
        exact .of_tabs rfl
      | some t =>
        rw [if_pos (Finmap.mem_of_lookup_eq_some hid)]
        exact .append hid lines
    | _ => cases happends
  · rw [Bool.not_eq_true] at happends
    have hnone : op.appends st = [] := by cases op <;> first | rfl | cases happends
    have heffect := serve_effect env ctx st op
    generalize (serve env ctx st op).state = st' at heffect ⊢
    rw [hnone]
    cases heffect with
    | stay | missing | theme | system => exact .of_tabs rfl
    | put _ hid _ _ hlines => exact .keep hid (hlines happends)
    | add =>
      intro t' ht'
      rw [UserState.lookup_addTab] at ht'
      split_ifs at ht'
      · obtain rfl : _ = t' := Option.some.inj ht'
        exact .inl (Buffer.newWithMaxLines_lines _)
      · exact .inr ⟨t', ht', by simp [appendedLines]⟩
    | delete =>
      intro t' ht'
      rw [UserState.lookup_deleteTab] at ht'
      split_ifs at ht'
      exact .inr ⟨t', ht', by simp [appendedLines]⟩

end Sections

/-- The lines of the tab that a call has appended and not yet published. -/
def Call.pendingLines {Text : Type} (u : UserID) (id : TabID) (c : Call Text) : List GoString :=
  if c.user = u then todoLines id c.todo else []

namespace World

variable {Text : Type} {n : ℕ} (u : UserID) (id : TabID)

/-- An append to the tab enters only when no other call has lines of the tab to publish. -/
def AppendsAlone (w : World Text n) : Label n → Prop
  | .enter _ _ v op _ =>
    v = u → op.appendsTo id = true → ∀ j, (w.calls j).pendingLines u id = []
  | _ => True

instance (w : World Text n) : ∀ l, Decidable (w.AppendsAlone u id l)
  | .enter .. => inferInstanceAs (Decidable (_ → _))
  | .connect _ | .advance .. | .restart => isTrue trivial

/-- What has been published and what one call still has to publish are what was appended. -/
def Ordered (w : World Text n) : Prop :=
  ∃ pending, Sole (Call.pendingLines u id ∘ w.calls) pending ∧
    outputLines id (w.log.events u) ++ pending = appendedLines id (w.log.appended u)

variable {u id}

theorem start_ordered (disk : UserID → Option Text) (drawn : List TabID)
    (closed : UserID → List TabID) : (start disk drawn closed : World Text n).Ordered u id := by
  refine ⟨[], Sole.empty ?_, rfl⟩
  intro i
  simp [Call.pendingLines, start, todoLines]

variable {env : Env Text} {w : World Text n}

theorem Ordered.enter (h : w.Ordered u id) {i : Fin n} {v : UserID} {op : Op}
    (ha : w.admits env i v op = true)
    (halone : v = u → op.appendsTo id = true → ∀ j, (w.calls j).pendingLines u id = [])
    (session : ℕ) (readOK : Bool) : (w.enter env i session v op readOK).Ordered u id := by
  obtain ⟨pending, hsole, heq⟩ := h
  simp only [World.enter]
  split
  · exact ⟨pending, hsole, heq⟩
  · next st hf =>
    have hfree : (Call.pendingLines u id ∘ w.calls) i = [] := by
      simp [Call.pendingLines, todo_of_admits ha, todoLines]
    simp only [Ordered, comp_update, Call.pendingLines, serve_todoLines]
    by_cases hv : v = u
    · subst hv
      -- The section appends what its own event will publish, behind what is still pending.
      refine ⟨pending ++ appendedLines id (op.appends st), ?_, ?_⟩
      · rw [if_pos rfl]
        exact hsole.fill hfree (fun hne => halone rfl (appendsTo_of_appends id hne))
      · simp only [logEnter, update_self]
        rw [← append_assoc, heq]
        exact flatMap_append.symm
    · refine ⟨pending, ?_, ?_⟩
      · rw [if_neg hv, ← hfree, update_eq_self]
        exact hsole
      · simpa [logEnter, update_of_ne (Ne.symm hv)] using heq

/-- An act publishes the lines it holds, and what follows it holds none. -/
theorem perform_lines (env : Env Text) (w : World Text n) (u v : UserID) (id : TabID) (ok : Bool)
    (a : Act Text) :
    outputLines id ((w.perform env v ok a).1.log.events u) = outputLines id (w.log.events u) ++
        (if v = u then a.outputLines id else []) ∧
      todoLines id (w.perform env v ok a).2 = [] ∧
      (w.perform env v ok a).1.log.appended = w.log.appended := by
  cases a with
  | emit e =>
    refine ⟨?_, rfl, rfl⟩
    simp only [perform, emit]
    by_cases hv : v = u
    · subst hv
      rw [update_self, if_pos rfl]
      cases e <;> simp [outputLines, StreamEvent.outputLines, UserHub.stamp, SinkEvent.body,
        Act.outputLines]
    · rw [update_of_ne (Ne.symm hv), if_neg hv, append_nil]
  | view | persist =>
    refine ⟨by simp [perform, Act.outputLines], ?_, rfl⟩
    simp only [perform]
    split <;> rfl
  | compare ref max =>
    refine ⟨by simp [perform, Act.outputLines], ?_, rfl⟩
    simp only [perform]
    split
    · rfl
    · split_ifs <;> rfl
  | store ref max => exact ⟨by simp [perform, storeOffset, Act.outputLines], rfl, rfl⟩
  | save text =>
    refine ⟨?_, rfl, ?_⟩
    · simp only [perform]
      split_ifs <;> simp [rename, Act.outputLines]
    · simp only [perform]
      split_ifs <;> rfl

theorem Ordered.advance (h : w.Ordered u id) (i : Fin n) (ok : Bool) :
    (w.advance env i ok).Ordered u id := by
  simp only [World.advance]
  split
  · exact h
  · next a rest htodo =>
    obtain ⟨pending, hsole, heq⟩ := h
    obtain ⟨hev, hnext, happ⟩ := perform_lines env w u (w.calls i).user id ok a
    have hi : (Call.pendingLines u id ∘ w.calls) i =
        (if (w.calls i).user = u then a.outputLines id else []) ++
          (if (w.calls i).user = u then todoLines id rest else []) := by
      simp only [comp_apply, Call.pendingLines, htodo]
      split_ifs <;> rfl
    -- What the act publishes is the front of what is pending, since nobody else owes lines.
    obtain ⟨pending', hsole', rfl⟩ := hsole.consume hi
    refine ⟨pending', ?_, ?_⟩
    · simpa only [setTodo, perform_calls, comp_update, Call.pendingLines,
        todoLines_append, hnext, nil_append] using hsole'
    · simp only [setTodo, hev, happ]
      rw [append_assoc, heq]

theorem Ordered.step (h : w.Ordered u id) {l : Label n} (hl : w.AppendsAlone u id l) :
    (w.step env l).Ordered u id := by
  cases l with
  | connect session => exact h
  | enter i session v op readOK => exact step_enter h fun ha => h.enter ha hl session readOK
  | advance i ok => exact h.advance i ok
  | restart => exact start_ordered _ _ _

variable (u id) in
/-- The tab's buffer ends with the appended lines, up to what was trimmed from it. -/
structure LinesHold (w : World Text n) : Prop where
  unloaded : w.users u = none → w.log.appended u = []
  lines : ∀ st t, w.users u = some st → st.tabs.lookup id = some t →
    ∃ old, t.buffer.lines <:+ old ++ appendedLines id (w.log.appended u)

theorem LinesHold.enter (h : w.LinesHold u id) (i : Fin n) (session : ℕ) (v : UserID) (op : Op)
    (readOK : Bool) : (w.enter env i session v op readOK).LinesHold u id := by
  simp only [World.enter]
  split
  · exact h
  · next st hf =>
    by_cases hv : u = v
    · subst hv
      refine ⟨fun hu => by simp at hu, ?_⟩
      intro st' t' hst' ht'
      obtain rfl : _ = st' := by simpa using hst'
      have happ : appendedLines id ((w.logEnter env u op readOK st).appended u) =
          appendedLines id (w.log.appended u) ++ appendedLines id (op.appends st) := by
        simp only [logEnter, update_self]
        exact flatMap_append
      simp only [happ]
      rcases serve_extends env _ st op t' ht' with hnil | ⟨t, ht, hsuf⟩
      · exact ⟨[], by rw [hnil]; exact nil_suffix⟩
      · cases hm : w.users u with
        | none =>
          refine ⟨t.buffer.lines, ?_⟩
          simpa [h.unloaded hm, appendedLines] using hsuf
        | some st₀ =>
          rw [(found_tabs hm hf).1] at ht
          obtain ⟨old, hold⟩ := h.lines st₀ t hm ht
          refine ⟨old, hsuf.trans ?_⟩
          rw [← append_assoc]
          exact suffix_append_self_iff.mpr hold
    · refine ⟨?_, ?_⟩
      · simpa only [update_of_ne hv, logEnter] using h.unloaded
      · simpa only [update_of_ne hv, logEnter] using h.lines

theorem storeOffset_lines (st : UserState) (ref : BufRef) (max : Int) {t' : Tab}
    (ht' : (st.storeOffset ref max).tabs.lookup id = some t') :
    ∃ t, st.tabs.lookup id = some t ∧ t'.buffer.lines = t.buffer.lines := by
  cases ref with
  | system => exact ⟨t', ht', rfl⟩
  | tab id' =>
    simp only [UserState.storeOffset] at ht'
    cases hid : st.tabs.lookup id' with
    | none =>
      rw [hid] at ht'
      exact ⟨t', ht', rfl⟩
    | some t =>
      rw [hid] at ht'
      dsimp only at ht'
      rw [UserState.lookup_putTab] at ht'
      split_ifs at ht' with he
      · obtain rfl : _ = t' := Option.some.inj ht'
        exact ⟨t, he ▸ hid, rfl⟩
      · exact ⟨t', ht', rfl⟩

theorem LinesHold.storeOffset (h : w.LinesHold u id) (v : UserID) (ref : BufRef) (max : Int) :
    (w.storeOffset v ref max).LinesHold u id := by
  by_cases hv : u = v
  · subst hv
    refine ⟨?_, ?_⟩
    · intro hu
      simp only [World.storeOffset, update_self, Option.map_eq_none_iff] at hu
      exact h.unloaded hu
    · intro st' t' hst' ht'
      simp only [World.storeOffset, update_self, Option.map_eq_some_iff] at hst'
      obtain ⟨st, hu, rfl⟩ := hst'
      obtain ⟨t, ht, hlines⟩ := storeOffset_lines st ref max ht'
      rw [hlines]
      exact h.lines st t hu ht
  · constructor
    · simpa only [World.storeOffset, update_of_ne hv] using h.unloaded
    · simpa only [World.storeOffset, update_of_ne hv] using h.lines

theorem LinesHold.step (h : w.LinesHold u id) (l : Label n) : (w.step env l).LinesHold u id := by
  cases l with
  | connect session => exact ⟨h.unloaded, h.lines⟩
  | enter i session v op readOK => exact step_enter h fun _ => h.enter i session v op readOK
  | advance i ok =>
    simp only [World.step, World.advance]
    split
    · exact h
    · next a rest htodo =>
      cases a with
      | store ref max =>
        have hs := h.storeOffset (w.calls i).user ref max
        exact ⟨hs.unloaded, hs.lines⟩
      | save text =>
        simp only [perform]
        split_ifs <;> exact ⟨h.unloaded, h.lines⟩
      | _ => exact ⟨h.unloaded, h.lines⟩
  | restart => exact ⟨fun _ => rfl, fun st t hu => by simp [World.step, start] at hu⟩

/-- Every user's hub counts the events and keeps the newest. -/
def HubsHold (env : Env Text) (w : World Text n) : Prop :=
  ∀ u, (w.hubs u).Holds env.historySize (w.log.events u)

theorem HubsHold.step (h : w.HubsHold env) (l : Label n) : (w.step env l).HubsHold env := by
  cases l with
  | connect session => exact h
  | enter i session v op readOK =>
    simp only [World.step, World.enter]
    split_ifs
    · split
      · exact h
      · exact h
    · exact h
  | advance i ok =>
    simp only [World.step, World.advance]
    split
    · exact h
    · next a rest htodo =>
      cases a with
      | emit e =>
        intro u
        simp only [perform, emit, setTodo]
        by_cases hu : u = (w.calls i).user
        · subst hu
          simpa only [update_self] using (h _).publish e.body
        · simpa only [update_of_ne hu] using h u
      | save text =>
        simp only [perform]
        split_ifs <;> exact h
      | _ => exact h
  | restart => exact fun u => UserHub.new_holds _

/-- In every run in which no append to the tab enters between another one and its event: the
events are numbered in the order of their publication, the lines they carry are the first of
the appended lines, and they are all of them whenever no call has lines left to publish. The
buffer holds the newest of the appended lines. -/
theorem output_events_follow_buffer (env : Env Text) (disk : UserID → Option Text) (u : UserID)
    (id : TabID) (ls : List (Label n))
    (halone : Meets (step env) (AppendsAlone u id) (start disk [] fun _ => []) ls) :
    let w := exec (step env) (start disk [] fun _ => []) ls
    (w.log.events u).map StreamEvent.seq =
        (range (w.log.events u).length).map (fun i => UInt64.ofNat (i + 1)) ∧
      outputLines id (w.log.events u) <+: appendedLines id (w.log.appended u) ∧
      ((∀ i, (w.calls i).pendingLines u id = []) →
        outputLines id (w.log.events u) = appendedLines id (w.log.appended u)) ∧
      ∀ st t, w.users u = some st → st.tabs.lookup id = some t →
        ∃ old, t.buffer.lines <:+ old ++ appendedLines id (w.log.appended u) := by
  intro w
  have hhub : w.HubsHold env :=
    exec_invariant (I := HubsHold env) (fun _ l h => h.step l) (fun _ => UserHub.new_holds _) ls
  obtain ⟨pending, hsole, heq⟩ : w.Ordered u id :=
    halone.invariant (fun _ _ h hl => h.step hl) (start_ordered disk [] _)
  have hlines : w.LinesHold u id :=
    exec_invariant (I := LinesHold u id) (fun _ l h => h.step l)
      ⟨fun _ => rfl, fun st t hu => by simp [start] at hu⟩ ls
  refine ⟨(hhub u).seqs, ⟨pending, heq⟩, ?_, hlines.lines⟩
  intro hdone
  rw [← heq, hsole.eq_nil hdone, append_nil]

/-- One tab, and two appends to it that take turns. -/
def turnsRun (i j : Fin n) : List (Label n) :=
  [.enter i 0 (lit "alice") (.createTab (some (randBytes 1)) (lit "repo") []) true,
    .advance i true, .advance i true, .advance i true,
    .enter i 0 (lit "alice") (.appendOutput (lit "0000000000000001") [lit "a"]) true,
    .advance i true,
    .enter j 1 (lit "alice") (.appendLines (lit "0000000000000001") [lit "b"]) true,
    .advance j true]

theorem output_events_follow_buffer_turnsRun :
    let w := exec (step (Env.stock Json.plain)) birth (turnsRun (0 : Fin 2) 1)
    Meets (step (Env.stock Json.plain)) (AppendsAlone (lit "alice") (lit "0000000000000001"))
        birth (turnsRun (0 : Fin 2) 1) ∧
      appendedLines (lit "0000000000000001") (w.log.appended (lit "alice")) =
        [lit "a", lit "b"] ∧
      outputLines (lit "0000000000000001") (w.log.events (lit "alice")) =
        appendedLines (lit "0000000000000001") (w.log.appended (lit "alice")) := by
  intro w
  have halone : Meets (step (Env.stock Json.plain))
      (AppendsAlone (lit "alice") (lit "0000000000000001")) birth
        (turnsRun (0 : Fin 2) 1) := by
    decide
  refine ⟨halone, by decide, ?_⟩
  exact (output_events_follow_buffer (Env.stock Json.plain) (fun _ => none) _ _ _
    halone).2.2.1 (by decide)

/-- One tab, and two appends to it of which the second publishes first. -/
def overtakingRun (i j : Fin n) : List (Label n) :=
  [.enter i 0 (lit "alice") (.createTab (some (randBytes 1)) (lit "repo") []) true,
    .advance i true, .advance i true, .advance i true,
    .enter i 0 (lit "alice") (.appendOutput (lit "0000000000000001") [lit "a"]) true,
    .enter j 1 (lit "alice") (.appendOutput (lit "0000000000000001") [lit "b"]) true,
    .advance j true, .advance i true,
    .advance i true, .advance i true, .advance j true, .advance j true]

theorem output_events_overtake :
    let w := exec (step (Env.stock Json.plain)) birth (overtakingRun (0 : Fin 2) 1)
    w.Quiet ∧
      ((w.users (lit "alice")).bind (·.buffer (.tab (lit "0000000000000001")))).map Buffer.lines =
        some [lit "a", lit "b"] ∧
      appendedLines (lit "0000000000000001") (w.log.appended (lit "alice")) =
        [lit "a", lit "b"] ∧
      outputLines (lit "0000000000000001") (w.log.events (lit "alice")) =
        [lit "b", lit "a"] := by
  decide

end World

end Centaurx
