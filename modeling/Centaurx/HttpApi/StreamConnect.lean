import Centaurx.HttpApi.Stream
import Centaurx.Lib.Runs

namespace Centaurx
open Go Newest Runs List Function

variable {α : Type}

/-- Lines that are in the buffer and have not been published. -/
structure Emission (α : Type) where
  tab : TabID
  lines : List α
  /-- The lines came after the connection had read the buffer. Nothing reads this. -/
  late : Bool
  deriving DecidableEq

/-- Where `handleStream` stands. -/
inductive ConnectPhase
  /-- In `buildSnapshot`, with the tabs whose buffers are still to be read. -/
  | reading (rest : List TabID)
  | replaying
  | subscribing
  | live
  deriving DecidableEq

/-- One connection, and the service and the hub for its user. -/
structure Connection (α : Type) where
  buffers : TabID → Buffer α
  emissions : List (Emission α)
  log : EventLog α
  phase : ConnectPhase
  snapshot : TabID → List α := fun _ => []
  /-- The events that calls of `publish` have still to send to the channel. -/
  casts : List (Event α) := []
  chan : List (Event α) := []
  /-- The events the client has got. -/
  written : List (Event α) := []
  /-- All lines appended since the tabs were listed. -/
  appended : TabID → List α := fun _ => []
  /-- The events with late lines that were published before the subscription. -/
  lates : List (Event α) := []

open Connection

structure ConnectConfig where
  historySize : ℕ
  initialBufferLines : Int
  lastID : UInt64
  /-- The answer of `ListTabs`. -/
  tabs : List TabID

/-- Atomic steps. A tab's offset is shared with all sessions, so it may change at any time. -/
inductive ConnectStep (α : Type)
  | append (tab : TabID) (lines : List α)
  | scroll (tab : TabID) (offset : Int)
  /-- `OnOutput` for one of the appended batches, up to the release of the lock. -/
  | publish (i : ℕ)
  /-- A system or tab event is published. -/
  | other
  | send (i : ℕ)
  /-- The connection moves on. -/
  | next

namespace Connection

variable (cfg : ConnectConfig)

/-- The connection has read the buffer of this tab. -/
def hasRead (c : Connection α) (tab : TabID) : Bool :=
  match c.phase with
  | .reading rest => tab ∈ cfg.tabs && tab ∉ rest
  | .replaying | .subscribing | .live => tab ∈ cfg.tabs

def append (c : Connection α) (tab : TabID) (lines : List α) : Connection α :=
  let emissions :=
    if lines.isEmpty then c.emissions else c.emissions ++ [⟨tab, lines, c.hasRead cfg tab⟩]
  { c with
    buffers := update c.buffers tab ((c.buffers tab).append lines)
    emissions := emissions
    appended := update c.appended tab (c.appended tab ++ lines) }

def scroll (c : Connection α) (tab : TabID) (offset : Int) : Connection α :=
  { c with
    buffers := update c.buffers tab { c.buffers tab with scrollOffset := offset } }

/-- `publish`: the event is numbered and kept, and the channel is on the copied list if the
connection has subscribed. -/
def publishBody (c : Connection α) (body : Body α) : Connection α :=
  let casts := if c.phase = .live then c.casts ++ [c.log.stamp body] else c.casts
  { c with log := c.log.publish cfg.historySize body, casts := casts }

def publish (c : Connection α) (i : ℕ) : Connection α :=
  match c.emissions[i]? with
  | none => c
  | some e =>
    let body := Body.output e.tab e.lines
    let lates := if e.late && c.phase ≠ .live then c.lates ++ [c.log.stamp body] else c.lates
    { c.publishBody cfg body with emissions := c.emissions.eraseIdx i, lates := lates }

/-- The capacity of the channel that `Subscribe` makes. -/
def depth : ℕ := 256

def send (c : Connection α) (i : ℕ) : Connection α :=
  match c.casts[i]? with
  | none => c
  | some e =>
    let chan := if c.chan.length < depth then c.chan ++ [e] else c.chan
    { c with casts := c.casts.eraseIdx i, chan := chan }

def next (c : Connection α) : Connection α :=
  match c.phase with
  | .reading (tab :: rest) =>
    let view := (c.buffers tab).snapshot cfg.initialBufferLines
    { c with
      buffers := update c.buffers tab view.2
      snapshot := update c.snapshot tab view.1.lines
      phase := .reading rest }
  | .reading [] => { c with phase := .replaying }
  | .replaying =>
    let events := if cfg.lastID > 0 then c.log.replay cfg.lastID else []
    { c with written := c.written ++ events, phase := .subscribing }
  | .subscribing => { c with phase := .live }
  | .live =>
    match c.chan with
    | [] => c
    | e :: chan => { c with chan := chan, written := c.written ++ [e] }

def step (c : Connection α) : ConnectStep α → Connection α
  | .append tab lines => c.append cfg tab lines
  | .scroll tab offset => c.scroll tab offset
  | .publish i => c.publish cfg i
  | .other => c.publishBody cfg .other
  | .send i => c.send i
  | .next => c.next cfg

/-- Buffers, unpublished lines and events of any kind are there when the tabs are listed. -/
def start (buffers : TabID → Buffer α) (emissions : List (TabID × List α))
    (log : EventLog α) : Connection α where
  buffers := buffers
  emissions := emissions.map fun e => ⟨e.1, e.2, false⟩
  log := log
  phase := .reading cfg.tabs

/-- What the connection must find when it moves on: a buffer is read at its bottom, and not more
lines have come to it than are shown; late events are still in the history and newer than
`Last-Event-ID` when the connection asks for them. -/
def Ready (c : Connection α) : ConnectPhase → Prop
  | .reading (tab :: _) =>
    (c.buffers tab).scrollOffset = 0 ∧ (c.appended tab).length ≤
      Buffer.viewHeight cfg.initialBufferLines (c.buffers tab).lines.length
  | .replaying => ∀ e ∈ c.lates, 0 < cfg.lastID ∧ cfg.lastID < e.seq ∧ e ∈ c.log.history
  | .reading [] | .subscribing | .live => True

instance [DecidableEq α] (c : Connection α) : ∀ phase, Decidable (c.Ready cfg phase)
  | .reading (_ :: _) => inferInstanceAs (Decidable (_ ∧ _))
  | .replaying => inferInstanceAs (Decidable (∀ _, _))
  | .reading [] | .subscribing | .live => isTrue trivial

/-- What a step must meet. Late lines are not published after the connection has asked for old
events and before it has subscribed, and the channel is not full. -/
def Covered (c : Connection α) : ConnectStep α → Prop
  | .next => c.Ready cfg c.phase
  | .publish i => c.phase = .subscribing → ∀ e ∈ c.emissions[i]?, e.late = false
  | .send _ => c.chan.length < depth
  | .append .. | .scroll .. | .other => True

instance [DecidableEq α] (c : Connection α) : ∀ op, Decidable (c.Covered cfg op)
  | .next => inferInstanceAs (Decidable (c.Ready cfg c.phase))
  | .publish _ => inferInstanceAs (Decidable (_ → _))
  | .send _ => inferInstanceAs (Decidable (_ < _))
  | .append .. | .scroll .. | .other => isTrue trivial

/-- Nothing is on its way. -/
structure Settled (c : Connection α) : Prop where
  live : c.phase = .live
  emissions : c.emissions = []
  casts : c.casts = []
  chan : c.chan = []

/-- Late events that the connection can still ask for. -/
def asked (c : Connection α) : ConnectPhase → List (Event α)
  | .reading _ | .replaying => c.lates
  | .subscribing | .live => []

/-- Events that have reached the client or will. -/
def events (c : Connection α) : List (Event α) :=
  c.asked c.phase ++ (c.casts ++ (c.chan ++ c.written))

/-- A line has been shown, or is late and on its way. -/
inductive Reaches (c : Connection α) (tab : TabID) (x : α) : Prop
  | shown (h : x ∈ c.snapshot tab)
  | emission (e : Emission α) (he : e ∈ c.emissions) (hlate : e.late = true) (htab : e.tab = tab)
      (hx : x ∈ e.lines)
  | event (e : Event α) (he : e ∈ c.events) (hx : x ∈ e.body.linesFor tab)

structure Inv (c : Connection α) : Prop where
  /-- The newest lines of a buffer are the ones that came last. -/
  tail : ∀ tab, ∃ old, (c.buffers tab).lines <:+ old ++ c.appended tab
  reaches : ∀ tab, c.hasRead cfg tab = true → ∀ x ∈ c.appended tab, c.Reaches tab x

variable {cfg} {c d : Connection α} {tab : TabID} {x : α}

theorem hasRead_congr (h : d.phase = c.phase) : d.hasRead cfg tab = c.hasRead cfg tab := by
  rw [hasRead, hasRead, h]

/-- A line still reaches the client when what was shown stays and nothing is lost on the way. -/
theorem Reaches.of (h : c.Reaches tab x) (hshown : c.snapshot tab ⊆ d.snapshot tab)
    (hemission : ∀ e ∈ c.emissions, e.late = true →
      e ∈ d.emissions ∨ ∃ ev ∈ d.events, ev.body = .output e.tab e.lines)
    (hevents : c.events ⊆ d.events) : d.Reaches tab x := by
  cases h with
  | shown h => exact .shown (hshown h)
  | emission e he hlate htab hx =>
    rcases hemission e he hlate with he | ⟨ev, hev, hbody⟩
    · exact .emission e he hlate htab hx
    · refine .event ev hev ?_
      rw [hbody, Body.linesFor, if_pos htab]
      exact hx
  | event e he hx => exact .event e (hevents he) hx

theorem Inv.pass {c' : Connection α} (h : c.Inv cfg) (hbuffers : c'.buffers = c.buffers)
    (happended : c'.appended = c.appended) (hsnapshot : c'.snapshot = c.snapshot)
    (hemissions : c'.emissions = c.emissions)
    (hread : ∀ t, c'.hasRead cfg t = true → c.hasRead cfg t = true)
    (hevents : c.events ⊆ c'.events) : c'.Inv cfg := by
  refine ⟨fun t => ?_, fun t ht x hx => ?_⟩
  · rw [hbuffers, happended]
    exact h.tail t
  · rw [happended] at hx
    refine (h.reaches t (hread t ht) x hx).of ?_ (fun e he _ => .inl ?_) hevents
    · rw [hsnapshot]
      exact List.Subset.refl _
    · rw [hemissions]
      exact he

theorem Inv.append (h : c.Inv cfg) (tab : TabID) (lines : List α) :
    (c.append cfg tab lines).Inv cfg := by
  have hread : ∀ t, (c.append cfg tab lines).hasRead cfg t = c.hasRead cfg t :=
    fun t => hasRead_congr rfl
  have hkeep : ∀ e ∈ c.emissions, e ∈ (c.append cfg tab lines).emissions := by
    intro e he
    simp only [Connection.append]
    split
    · exact he
    · exact mem_append_left _ he
  refine ⟨fun t => ?_, fun t ht x hx => ?_⟩
  · obtain ⟨old, hold⟩ := h.tail t
    refine ⟨old, ?_⟩
    by_cases heq : t = tab
    · subst heq
      simp only [Connection.append, update_self]
      rw [← append_assoc]
      exact (Buffer.append_suffix _ lines).trans (suffix_append_self_iff.mpr hold)
    · simpa [Connection.append, heq] using hold
  · rw [hread] at ht
    have hold : ∀ x ∈ c.appended t, (c.append cfg tab lines).Reaches t x := fun x hx =>
      (h.reaches t ht x hx).of (List.Subset.refl _) (fun e he _ => .inl (hkeep e he))
        (List.Subset.refl _)
    by_cases heq : t = tab
    · subst heq
      simp only [Connection.append, update_self, mem_append] at hx
      rcases hx with hx | hx
      · exact hold x hx
      · -- a new line for a tab that was read is late
        refine .emission ⟨t, lines, c.hasRead cfg t⟩ ?_ ht rfl hx
        have hne : lines.isEmpty = false := by
          rw [isEmpty_eq_false_iff]
          exact ne_nil_of_mem hx
        simp [Connection.append, hne]
    · exact hold x (by simpa [Connection.append, heq] using hx)

theorem Inv.scroll (h : c.Inv cfg) (tab : TabID) (offset : Int) :
    (c.scroll tab offset).Inv cfg := by
  refine ⟨fun t => ?_, fun t ht x hx => ?_⟩
  · obtain ⟨old, hold⟩ := h.tail t
    refine ⟨old, ?_⟩
    by_cases heq : t = tab
    · subst heq
      simpa [Connection.scroll] using hold
    · simpa [Connection.scroll, heq] using hold
  · exact (h.reaches t ht x hx).of (List.Subset.refl _) (fun e he _ => .inl he)
      (List.Subset.refl _)

theorem eq_or_mem_eraseIdx {β : Type*} {l : List β} {i : ℕ} {x y : β} (hx : l[i]? = some x)
    (hy : y ∈ l) : y = x ∨ y ∈ l.eraseIdx i := by
  obtain ⟨j, hj⟩ := mem_iff_getElem?.mp hy
  by_cases hji : j = i
  · subst hji
    rw [hx] at hj
    exact .inl (Option.some.inj hj).symm
  · exact .inr (mem_eraseIdx_iff_getElem?.mpr ⟨j, hji, hj⟩)

theorem events_publishBody (body : Body α) : c.events ⊆ (c.publishBody cfg body).events := by
  intro e he
  simp only [events, mem_append] at he ⊢
  rcases he with he | he | he
  · exact .inl he
  · refine .inr (.inl ?_)
    simp only [publishBody]
    split
    · exact mem_append_left _ he
    · exact he
  · exact .inr (.inr he)

theorem Inv.publishBody (h : c.Inv cfg) (body : Body α) : (c.publishBody cfg body).Inv cfg :=
  h.pass rfl rfl rfl rfl (fun _ ht => ht) (events_publishBody body)

/-- A published late event goes to the channel, or the connection can still ask for it. -/
theorem late_mem_events {i : ℕ} {e : Emission α} (hi : c.Covered cfg (.publish i))
    (he : c.emissions[i]? = some e) (hlate : e.late = true) :
    c.log.stamp (.output e.tab e.lines) ∈ (c.publish cfg i).events := by
  have hphase : c.phase ≠ .subscribing := fun h => by simpa [hlate] using hi h e he
  simp only [Connection.publish, he, publishBody, events, mem_append]
  cases hp : c.phase with
  | reading rest | replaying => simp [asked, hlate]
  | subscribing => exact absurd hp hphase
  | live => simp

theorem events_publish (i : ℕ) : c.events ⊆ (c.publish cfg i).events := by
  rw [Connection.publish]
  split
  · exact List.Subset.refl _
  · rename_i e he
    intro ev hev
    replace hev := @events_publishBody _ cfg c (.output e.tab e.lines) ev hev
    simp only [events, mem_append] at hev ⊢
    refine hev.imp_left fun hev => ?_
    -- the late events only grow
    cases hp : c.phase with
    | reading rest | replaying =>
      simp only [publishBody, hp, asked] at hev ⊢
      split
      · exact mem_append_left _ hev
      · exact hev
    | subscribing | live => simp [publishBody, hp, asked] at hev

theorem Inv.publish (h : c.Inv cfg) {i : ℕ} (hi : c.Covered cfg (.publish i)) :
    (c.publish cfg i).Inv cfg := by
  cases he : c.emissions[i]? with
  | none =>
    rw [Connection.publish, he]
    exact h
  | some e =>
    have heq : c.publish cfg i = { c.publishBody cfg (.output e.tab e.lines) with
        emissions := c.emissions.eraseIdx i
        lates := (c.publish cfg i).lates } := by
      rw [Connection.publish, he]
    have htail : ∀ t, ∃ old, ((c.publish cfg i).buffers t).lines <:+
        old ++ (c.publish cfg i).appended t := by
      rw [heq]
      exact h.tail
    have hphase : (c.publish cfg i).phase = c.phase := by rw [heq]; rfl
    have happended : (c.publish cfg i).appended = c.appended := by rw [heq]; rfl
    refine ⟨htail, fun t ht x hx => ?_⟩
    rw [hasRead_congr hphase] at ht
    rw [happended] at hx
    refine (h.reaches t ht x hx).of ?_ (fun e' he' hlate => ?_) (events_publish i)
    · rw [heq]
      exact List.Subset.refl _
    · rcases eq_or_mem_eraseIdx he he' with rfl | hrest
      · exact .inr ⟨_, late_mem_events hi he hlate, rfl⟩
      · refine .inl ?_
        rw [heq]
        exact hrest

theorem Inv.send (h : c.Inv cfg) {i : ℕ} (hi : c.Covered cfg (.send i)) :
    (c.send i).Inv cfg := by
  rw [Connection.send]
  split
  · exact h
  · rename_i e he
    refine h.pass rfl rfl rfl rfl (fun _ ht => ht) fun e' he' => ?_
    have hroom : c.chan.length < depth := hi
    simp only [events, mem_append, if_pos hroom] at he' ⊢
    rcases he' with he' | he' | he'
    · exact .inl he'
    · rcases eq_or_mem_eraseIdx he he' with rfl | hrest
      · exact .inr (.inr (.inl (.inr mem_cons_self)))
      · exact .inr (.inl hrest)
    · exact .inr (.inr (he'.imp_left .inl))

theorem Inv.read (h : c.Inv cfg) {tab : TabID} {rest : List TabID}
    (hphase : c.phase = .reading (tab :: rest)) (hready : c.Ready cfg c.phase) :
    (c.next cfg).Inv cfg := by
  rw [hphase] at hready
  obtain ⟨hbottom, hroom⟩ := hready
  obtain ⟨hview, hsame⟩ := Buffer.snapshot_bottom hbottom cfg.initialBufferLines
  simp only [Connection.next, hphase, hview, hsame, update_eq_self]
  have hlines : c.appended tab ⊆ (c.buffers tab).lines.rtake
      (Buffer.viewHeight cfg.initialBufferLines (c.buffers tab).lines.length) := by
    obtain ⟨old, hold⟩ := h.tail tab
    refine (suffix_of_suffix_length_le (suffix_append old _)
      ((rtake_suffix _ _).trans hold) ?_).subset
    rw [length_rtake]
    refine le_min hroom (hroom.trans ?_)
    rw [Buffer.viewHeight, Buffer.viewLimit]
    split_ifs <;> omega
  refine ⟨h.tail, fun t ht x hx => ?_⟩
  by_cases heq : t = tab
  · subst heq
    exact .shown (by simpa using hlines hx)
  · have ht' : c.hasRead cfg t = true := by
      simp only [hasRead, hphase, Bool.and_eq_true, decide_eq_true_eq, mem_cons] at ht ⊢
      exact ⟨ht.1, fun hmem => hmem.elim heq ht.2⟩
    refine (h.reaches t ht' x hx).of ?_ (fun e he _ => .inl he) ?_
    · simp [heq]
    · intro e he
      simpa [events, hphase, asked] using he

theorem Inv.next (h : c.Inv cfg) (hready : c.Ready cfg c.phase) : (c.next cfg).Inv cfg := by
  cases hphase : c.phase with
  | reading rest =>
    cases rest with
    | cons tab rest => exact h.read hphase hready
    | nil =>
      simp only [Connection.next, hphase]
      refine h.pass rfl rfl rfl rfl (fun t ht => ?_) fun e he => ?_
      · simpa [hasRead, hphase] using ht
      · simpa [events, hphase, asked] using he
  | replaying =>
    rw [hphase] at hready
    simp only [Connection.next, hphase]
    refine h.pass rfl rfl rfl rfl (fun t ht => ?_) fun e he => ?_
    · simpa [hasRead, hphase] using ht
    · simp only [events, hphase, asked, mem_append] at he ⊢
      rcases he with he | he | he | he
      · -- a late event is in the answer
        obtain ⟨hpos, hseq, hmem⟩ := hready e he
        refine .inr (.inr (.inr (.inr ?_)))
        rw [if_pos hpos]
        exact mem_filter.mpr ⟨hmem, by simpa using hseq⟩
      · exact .inr (.inl he)
      · exact .inr (.inr (.inl he))
      · exact .inr (.inr (.inr (.inl he)))
  | subscribing =>
    simp only [Connection.next, hphase]
    refine h.pass rfl rfl rfl rfl (fun t ht => ?_) fun e he => ?_
    · simpa [hasRead, hphase] using ht
    · simpa [events, hphase, asked] using he
  | live =>
    simp only [Connection.next, hphase]
    split
    · exact h
    · rename_i e chan hchan
      refine h.pass rfl rfl rfl rfl (fun t ht => ?_) fun e' he' => ?_
      · simpa [hasRead, hphase] using ht
      · simp only [events, hphase, asked, hchan, mem_append, mem_cons] at he' ⊢
        tauto

theorem Inv.step (h : c.Inv cfg) {op : ConnectStep α} (hop : c.Covered cfg op) :
    (c.step cfg op).Inv cfg := by
  cases op with
  | append tab lines => exact h.append tab lines
  | scroll tab offset => exact h.scroll tab offset
  | publish i => exact h.publish hop
  | other => exact h.publishBody .other
  | send i => exact h.send hop
  | next => exact h.next hop

theorem inv_start (buffers : TabID → Buffer α) (emissions : List (TabID × List α))
    (log : EventLog α) : (start cfg buffers emissions log).Inv cfg :=
  ⟨fun tab => ⟨(buffers tab).lines, by simp [start]⟩, fun _ _ _ hx => absurd hx not_mem_nil⟩

end Connection

/-- **Connecting.** In a run whose steps are all covered, once nothing is on its way, every line
that came to one of the listed tabs was shown in the snapshot or written in an event. -/
theorem stream_loses_nothing (cfg : ConnectConfig) (buffers : TabID → Buffer α)
    (emissions : List (TabID × List α)) (log : EventLog α) (run : List (ConnectStep α))
    (hrun : Meets (step cfg) (Connection.Covered cfg)
      (.start cfg buffers emissions log) run)
    (hsettled : (exec (step cfg) (.start cfg buffers emissions log) run).Settled) :
    let c := exec (step cfg) (.start cfg buffers emissions log) run
    ∀ tab ∈ cfg.tabs, ∀ x ∈ c.appended tab,
      x ∈ c.snapshot tab ∨ ∃ e ∈ c.written, x ∈ e.body.linesFor tab := by
  intro c tab htab x hx
  change c.Settled at hsettled
  have hinv : c.Inv cfg := hrun.invariant (I := fun c => c.Inv cfg)
    (fun _ _ h hop => h.step hop) (inv_start buffers emissions log)
  have hread : c.hasRead cfg tab = true := by
    rw [hasRead, hsettled.live]
    simpa using htab
  cases hinv.reaches tab hread x hx with
  | shown h => exact .inl h
  | emission e he =>
    rw [hsettled.emissions] at he
    exact absurd he not_mem_nil
  | event e he hx =>
    refine .inr ⟨e, ?_, hx⟩
    simpa [events, asked, hsettled.live, hsettled.casts, hsettled.chan]
      using he

/-- A user with one tab connects for the first time, or again after event `lastID`. -/
def oneTab (lastID : UInt64) : ConnectConfig where
  historySize := 1000
  initialBufferLines := 200
  lastID := lastID
  tabs := [lit "tab-1"]

def emptyTab : TabID → Buffer GoString := fun _ => { maxLines := 5000 }

/-- A line comes after the snapshot and is published after the subscription. -/
theorem stream_loses_nothing_live :
    let run := [.next, .append (lit "tab-1") [lit "hello"], .next, .next, .next, .publish 0,
      .send 0, .next]
    let c := exec (step (oneTab 0)) (.start (oneTab 0) emptyTab [] {}) run
    ∀ tab ∈ [lit "tab-1"], ∀ x ∈ c.appended tab,
      x ∈ c.snapshot tab ∨ ∃ e ∈ c.written, x ∈ e.body.linesFor tab :=
  stream_loses_nothing (oneTab 0) emptyTab [] {} _ (by decide)
    ⟨by decide, by decide, by decide, by decide⟩

/-- A line comes and is published between the snapshot and the subscription. -/
theorem line_before_subscribe_lost :
    let run := [.next, .append (lit "tab-1") [lit "hello"], .publish 0, .next, .next, .next]
    let c := exec (step (oneTab 0)) (.start (oneTab 0) emptyTab [] {}) run
    (c.phase = .live ∧ c.emissions = [] ∧ c.casts = [] ∧ c.chan = []) ∧
      c.appended (lit "tab-1") = [lit "hello"] ∧ c.snapshot (lit "tab-1") = [] ∧
      c.written = [] := by
  decide

end Centaurx
