import Centaurx.HttpApi.Stream

namespace Centaurx
open Go Newest List Function

structure StreamConfig where
  historySize : ℕ
  bufferMaxLines : Int
  initialBufferLines : Int
  /-- The bound of the buffers of the client. -/
  maxLines : ℕ
  bufferMaxLines_pos : 0 < bufferMaxLines

variable {α β : Type}

/-- The service and the hub of a user, where calls come one after the other. -/
structure Server (α : Type) where
  buffers : TabID → Buffer α
  log : EventLog α := {}

namespace Server

variable (cfg : StreamConfig)

/-- Buffers are loaded from disk, the hub starts empty. -/
def new (loaded : TabID → List α) : Server α :=
  { buffers := fun tab => { lines := loaded tab, maxLines := cfg.bufferMaxLines } }

/-- `appendLines`, or an event that has no lines for a tab: the new state, and the event that goes
out if there is one. -/
def emit (s : Server α) : Body α → Server α × List (Event α)
  | .output tab lines =>
    let body := Body.output tab lines
    let s := { s with buffers := update s.buffers tab ((s.buffers tab).append lines) }
    if lines.isEmpty then (s, [])
    else ({ s with log := s.log.publish cfg.historySize body }, [s.log.stamp body])
  | .other => ({ s with log := s.log.publish cfg.historySize .other }, [s.log.stamp .other])

def run (s : Server α) : List (Body α) → Server α × List (Event α)
  | [] => (s, [])
  | body :: bodies =>
    let after := run (s.emit cfg body).1 bodies
    (after.1, (s.emit cfg body).2 ++ after.2)

/-- The buffer of a tab in `buildSnapshot`. -/
def snapshot (s : Server α) (tab : TabID) : List α :=
  ((s.buffers tab).snapshot cfg.initialBufferLines).1.lines

/-- The events that `handleStream` sends after the snapshot. -/
def replay (s : Server α) (lastID : UInt64) : List (Event α) :=
  if lastID > 0 then s.log.replay lastID else []

end Server

inductive Client
  | browser | android

/-- `Char.isWhitespace` of Kotlin. It has the separators of files to units, which Go does not count
as space, and not the next-line character, which Go does. -/
def isWhitespace (r : ℕ) : Bool :=
  (0x09 ≤ r && r ≤ 0x0D) || (0x1C ≤ r && r ≤ 0x20) || r = 0xA0 || r = 0x1680 ||
    (0x2000 ≤ r && r ≤ 0x200A) || r = 0x2028 || r = 0x2029 || r = 0x202F || r = 0x205F || r = 0x3000

/-- Output without a tab is ignored. -/
def Client.ignores : Client → TabID → Bool
  | .browser, tab => tab = []
  | .android, tab => (runes tab).all fun r => isWhitespace r.1

def Client.appendLines (client : Client) (maxLines : ℕ) (buffers : TabID → List α) (tab : TabID)
    (lines : List α) : TabID → List α :=
  if client.ignores tab || lines.isEmpty then buffers
  else
    let next := buffers tab ++ lines
    update buffers tab
      (if next.length > maxLines then next.drop (next.length - maxLines) else next)

def Client.handleEvent (client : Client) (maxLines : ℕ) (buffers : TabID → List α)
    (event : Event α) : TabID → List α :=
  match event.body with
  | .output tab lines => client.appendLines maxLines buffers tab lines
  | .other => buffers

/-- The buffers of a client that reconnects after `before` and stays during `live`. -/
def reconnect (cfg : StreamConfig) (client : Client) (loaded : TabID → List α)
    (before : List (Body α)) (lastID : UInt64) (live : List (Body α)) : TabID → List α :=
  let s := ((Server.new cfg loaded).run cfg before).1
  (s.replay lastID ++ (s.run cfg live).2).foldl (client.handleEvent cfg.maxLines) (s.snapshot cfg)

/-- All lines for a tab. -/
def linesFor (tab : TabID) (bodies : List (Body α)) : List α := bodies.flatMap (Body.linesFor tab)

theorem linesFor_append (tab : TabID) (bodies more : List (Body α)) :
    linesFor tab (bodies ++ more) = linesFor tab bodies ++ linesFor tab more := flatMap_append

def Body.silent : Body α → Bool
  | .output _ lines => lines.isEmpty
  | .other => false

/-- The events of a run, numbered from `n + 1`. -/
def stamped (n : ℕ) : List (Body α) → List (Event α)
  | [] => []
  | body :: bodies =>
    if body.silent then stamped n bodies
    else ⟨UInt64.ofNat (n + 1), body⟩ :: stamped (n + 1) bodies

/-- The lines for a tab that the client is sent again. -/
def due (cfg : StreamConfig) (lastID : UInt64) (tab : TabID) (before : List (Body α)) : List α :=
  if lastID > 0 then
    linesFor tab
      ((((stamped 0 before).rtake cfg.historySize).filter fun e => e.seq > lastID).map Event.body)
  else []

/-- The log after events that are numbered from one. -/
def EventLog.after (historySize : ℕ) (events : List (Event α)) : EventLog α :=
  ⟨UInt64.ofNat events.length, events.rtake historySize⟩

theorem EventLog.after_stamp (historySize : ℕ) (events : List (Event α)) (body : Body α) :
    (EventLog.after historySize events).stamp body = ⟨UInt64.ofNat (events.length + 1), body⟩ := by
  rw [EventLog.stamp, EventLog.after, UInt64.ofNat_add]
  rfl

theorem EventLog.after_publish (historySize : ℕ) (events : List (Event α)) (body : Body α) :
    (EventLog.after historySize events).publish historySize body =
      EventLog.after historySize (events ++ [⟨UInt64.ofNat (events.length + 1), body⟩]) := by
  have htrim : ∀ l : List (Event α), (if l.length > historySize then
      l.drop (l.length - historySize) else l) = l.rtake historySize := by
    intro l
    split_ifs with h
    · rfl
    · exact (rtake_of_length_le (by omega)).symm
  rw [EventLog.publish, htrim, after_stamp, EventLog.after, EventLog.after, length_append,
    length_singleton, UInt64.ofNat_add]
  congr 1
  rw [rtake_append, rtake_append events, rtake_rtake]
  congr 2
  omega

section Run

variable {cfg : StreamConfig}

theorem emit_log {s : Server α} {events : List (Event α)}
    (hs : s.log = .after cfg.historySize events) (body : Body α) :
    (s.emit cfg body).2 = stamped events.length [body] ∧
      (s.emit cfg body).1.log = .after cfg.historySize (events ++ (s.emit cfg body).2) := by
  cases body with
  | other =>
    rw [Server.emit, hs, EventLog.after_publish, EventLog.after_stamp]
    exact ⟨rfl, rfl⟩
  | output tab lines =>
    by_cases hempty : lines.isEmpty
    · simp [Server.emit, stamped, Body.silent, hempty, hs]
    · simp only [Server.emit, hempty, hs, EventLog.after_publish, EventLog.after_stamp]
      simp [stamped, Body.silent, hempty]

theorem stamped_cons (n : ℕ) (body : Body α) (bodies : List (Body α)) :
    stamped n (body :: bodies) =
      stamped n [body] ++ stamped (n + (stamped n [body]).length) bodies := by
  rw [stamped, stamped]
  split_ifs <;> rfl

theorem run_log {s : Server α} {events : List (Event α)}
    (hs : s.log = .after cfg.historySize events) (bodies : List (Body α)) :
    (s.run cfg bodies).2 = stamped events.length bodies ∧
      (s.run cfg bodies).1.log = .after cfg.historySize (events ++ (s.run cfg bodies).2) := by
  induction bodies generalizing s events with
  | nil => exact ⟨rfl, by simpa [Server.run] using hs⟩
  | cons body bodies ih =>
    obtain ⟨hout, hlog⟩ := emit_log hs body
    obtain ⟨hout', hlog'⟩ := ih hlog
    rw [Server.run]
    dsimp only
    rw [hlog', hout', stamped_cons, length_append, hout]
    exact ⟨rfl, by rw [append_assoc]⟩

theorem emit_buffers (s : Server α) (body : Body α) (tab : TabID) :
    (s.emit cfg body).1.buffers tab = (s.buffers tab).append (body.linesFor tab) := by
  have hnil : (s.buffers tab).append [] = s.buffers tab := rfl
  cases body with
  | other => rfl
  | output tab' lines =>
    have hbuffers : (s.emit cfg (.output tab' lines)).1.buffers =
        update s.buffers tab' ((s.buffers tab').append lines) := by
      simp only [Server.emit]
      split <;> rfl
    rw [hbuffers, Body.linesFor]
    by_cases htab : tab' = tab
    · subst htab
      simp
    · simp [htab, Ne.symm htab, hnil]

/-- A buffer at the bottom stays there and keeps the newest lines. -/
theorem run_buffers {s : Server α} {tab : TabID} (hpos : 0 < (s.buffers tab).maxLines)
    (hbottom : (s.buffers tab).scrollOffset = 0) (bodies : List (Body α)) :
    ((s.run cfg bodies).1.buffers tab).lines =
        (bodies.map (Body.linesFor tab)).foldl (keep (s.buffers tab).maxLines.toNat)
          (s.buffers tab).lines ∧
      ((s.run cfg bodies).1.buffers tab).scrollOffset = 0 := by
  induction bodies generalizing s with
  | nil => exact ⟨rfl, hbottom⟩
  | cons body bodies ih =>
    have h := @ih (s.emit cfg body).1
    rw [emit_buffers, Buffer.append_maxLines, Buffer.append_keep hpos] at h
    exact h hpos (Buffer.append_bottom hbottom _)

theorem flatten_stamped (n : ℕ) (tab : TabID) (bodies : List (Body α)) :
    linesFor tab ((stamped n bodies).map Event.body) = linesFor tab bodies := by
  induction bodies generalizing n with
  | nil => rfl
  | cons body bodies ih =>
    have hcons : linesFor tab (body :: bodies) = body.linesFor tab ++ linesFor tab bodies :=
      flatMap_cons
    rw [stamped, hcons]
    split_ifs with hsilent
    · have hnil : body.linesFor tab = [] := by
        cases body with
        | other => rfl
        | output tab' lines =>
          rw [Body.silent, List.isEmpty_iff] at hsilent
          simp [Body.linesFor, hsilent]
      rw [hnil]
      exact ih n
    · rw [← ih (n + 1)]
      exact flatMap_cons

end Run

variable {tab : TabID}

theorem handleEvent_eq {client : Client} (htab : client.ignores tab = false) (maxLines : ℕ)
    (buffers : TabID → List α) (event : Event α) :
    client.handleEvent maxLines buffers event tab =
      keep maxLines (buffers tab) (event.body.linesFor tab) := by
  rw [Client.handleEvent]
  cases event.body with
  | other => rfl
  | output tab' lines =>
    simp only [Client.appendLines, Body.linesFor]
    by_cases heq : tab' = tab
    · subst heq
      rw [htab, if_pos rfl, keep, Bool.false_or]
      by_cases hempty : lines = []
      · simp [hempty]
      · rw [if_neg (by simpa using hempty), if_neg hempty, update_self]
        split_ifs with hlong
        · rfl
        · exact (rtake_of_length_le (by omega)).symm
    · rw [if_neg heq, keep, if_pos rfl]
      split
      · rfl
      · rw [update_of_ne (Ne.symm heq)]

theorem foldl_handleEvent {client : Client} (htab : client.ignores tab = false) (maxLines : ℕ)
    (buffers : TabID → List α) (events : List (Event α)) :
    events.foldl (client.handleEvent maxLines) buffers tab =
      ((events.map Event.body).map (Body.linesFor tab)).foldl (keep maxLines) (buffers tab) := by
  induction events generalizing buffers with
  | nil => rfl
  | cons event events ih =>
    rw [foldl_cons, ih, handleEvent_eq htab]
    rfl

/-- The buffer of the server when the client connects. -/
def held (cfg : StreamConfig) (loaded : List α) (tab : TabID) (before : List (Body α)) : List α :=
  (before.map (Body.linesFor tab)).foldl (keep cfg.bufferMaxLines.toNat) loaded

/-- The snapshot of a tab at the bottom. -/
def shown (cfg : StreamConfig) (loaded : List α) (tab : TabID) (before : List (Body α)) : List α :=
  (held cfg loaded tab before).rtake
    (Buffer.viewHeight cfg.initialBufferLines (held cfg loaded tab before).length)

theorem reconnect_eq (cfg : StreamConfig) {client : Client} (htab : client.ignores tab = false)
    (loaded : TabID → List α) (before : List (Body α)) (lastID : UInt64) (live : List (Body α)) :
    reconnect cfg client loaded before lastID live tab =
      if due cfg lastID tab before ++ linesFor tab live = [] then shown cfg (loaded tab) tab before
      else (shown cfg (loaded tab) tab before ++
        (due cfg lastID tab before ++ linesFor tab live)).rtake cfg.maxLines := by
  have hnew : (Server.new cfg loaded).log = .after cfg.historySize [] := by
    simp [Server.new, EventLog.after]
  obtain ⟨hout, hlog⟩ := run_log hnew before
  obtain ⟨hlines, hbottom⟩ :=
    @run_buffers _ cfg (Server.new cfg loaded) tab cfg.bufferMaxLines_pos rfl before
  have hlive := (run_log hlog live).1
  have hshown : ((Server.new cfg loaded).run cfg before).1.snapshot cfg tab =
      shown cfg (loaded tab) tab before := by
    rw [Server.snapshot, (Buffer.snapshot_bottom hbottom _).1, hlines]
    rfl
  have hdue : linesFor tab ((((Server.new cfg loaded).run cfg before).1.replay lastID).map
      Event.body) = due cfg lastID tab before := by
    rw [Server.replay, due]
    split_ifs
    · rw [EventLog.replay, hlog, hout]
      rfl
    · rfl
  have hflat : (((((Server.new cfg loaded).run cfg before).1.replay lastID ++
      (((Server.new cfg loaded).run cfg before).1.run cfg live).2).map Event.body).map
        (Body.linesFor tab)).flatten = due cfg lastID tab before ++ linesFor tab live := by
    rw [← flatMap_def, map_append, flatMap_append, hlive]
    exact congrArg₂ _ hdue (flatten_stamped _ tab live)
  rw [reconnect, foldl_handleEvent htab, foldl_keep, hflat, hshown]

theorem held_suffix (cfg : StreamConfig) (loaded : List α) (tab : TabID)
    (before : List (Body α)) : held cfg loaded tab before <:+ loaded ++ linesFor tab before := by
  rw [held, foldl_keep, linesFor, flatMap_def]
  split_ifs with h
  · rw [h, append_nil]
  · exact rtake_suffix _ _

theorem shown_suffix (cfg : StreamConfig) (loaded : List α) (tab : TabID)
    (before : List (Body α)) : shown cfg loaded tab before <:+ loaded ++ linesFor tab before :=
  (rtake_suffix _ _).trans (held_suffix cfg loaded tab before)

theorem shown_ne_nil (cfg : StreamConfig) {loaded : List α} {before : List (Body α)}
    (h : loaded ++ linesFor tab before ≠ []) : shown cfg loaded tab before ≠ [] := by
  have hheld : 0 < (held cfg loaded tab before).length := by
    rw [held, foldl_keep, ← flatMap_def]
    have hpos := length_pos_of_ne_nil h
    have hcap := cfg.bufferMaxLines_pos
    split_ifs with hnil
    · rwa [linesFor, hnil, append_nil] at hpos
    · rw [length_rtake]
      exact lt_min (by omega) hpos
  refine ne_nil_of_length_pos ?_
  rw [shown, length_rtake, Buffer.viewHeight, Buffer.viewLimit]
  split_ifs <;> omega

theorem due_subset (cfg : StreamConfig) (lastID : UInt64) (tab : TabID) (before : List (Body α)) :
    due cfg lastID tab before ⊆ linesFor tab before := by
  rw [due]
  split_ifs
  · intro x hx
    rw [← flatten_stamped 0 tab before]
    simp only [linesFor, mem_flatMap, mem_map, mem_filter] at hx ⊢
    obtain ⟨_, ⟨e, ⟨he, _⟩, rfl⟩, hx⟩ := hx
    exact ⟨_, ⟨e, (rtake_suffix _ _).subset he, rfl⟩, hx⟩
  · exact nil_subset _

def Body.map (f : α → β) : Body α → Body β
  | .output tab lines => .output tab (lines.map f)
  | .other => .other

def Event.map (f : α → β) (e : Event α) : Event β := ⟨e.seq, e.body.map f⟩

def Body.lines : Body α → List α
  | .output _ lines => lines
  | .other => []

/-- The lines for all tabs. -/
def allLines (bodies : List (Body α)) : List α := bodies.flatMap Body.lines

/-- Every line is replaced by its place among the lines for all tabs, from `n` on. -/
def number (n : ℕ) : List (Body α) → List (Body ℕ)
  | [] => []
  | .output tab lines :: bodies =>
    .output tab (range' n lines.length) :: number (n + lines.length) bodies
  | .other :: bodies => .other :: number n bodies

section Map

variable (f : α → β)

theorem Body.linesFor_map (tab : TabID) (body : Body α) :
    (body.map f).linesFor tab = (body.linesFor tab).map f := by
  cases body with
  | other => rfl
  | output tab' lines =>
    rw [Body.map, Body.linesFor, Body.linesFor]
    split_ifs <;> rfl

theorem linesFor_map (tab : TabID) (bodies : List (Body α)) :
    linesFor tab (bodies.map (Body.map f)) = (linesFor tab bodies).map f := by
  rw [linesFor, linesFor, flatMap_map, map_flatMap]
  simp only [Body.linesFor_map]

theorem stamped_map (n : ℕ) (bodies : List (Body α)) :
    stamped n (bodies.map (Body.map f)) = (stamped n bodies).map (Event.map f) := by
  induction bodies generalizing n with
  | nil => rfl
  | cons body bodies ih =>
    have hsilent : (body.map f).silent = body.silent := by
      cases body with
      | other => rfl
      | output tab lines => exact isEmpty_map
    rw [map_cons, stamped, stamped, hsilent]
    split_ifs
    · exact ih n
    · rw [ih]
      rfl

theorem due_map (cfg : StreamConfig) (lastID : UInt64) (tab : TabID) (before : List (Body α)) :
    due cfg lastID tab (before.map (Body.map f)) = (due cfg lastID tab before).map f := by
  rw [due, due]
  split_ifs
  · rw [stamped_map, ← map_rtake, filter_map, map_map, ← linesFor_map, map_map]
    rfl
  · rfl

theorem held_map (cfg : StreamConfig) (loaded : List α) (tab : TabID) (before : List (Body α)) :
    held cfg (loaded.map f) tab (before.map (Body.map f)) =
      (held cfg loaded tab before).map f := by
  induction before generalizing loaded with
  | nil => rfl
  | cons body before ih =>
    have h := ih (keep cfg.bufferMaxLines.toNat loaded (body.linesFor tab))
    rw [map_keep, ← Body.linesFor_map] at h
    exact h

theorem shown_map (cfg : StreamConfig) (loaded : List α) (tab : TabID) (before : List (Body α)) :
    shown cfg (loaded.map f) tab (before.map (Body.map f)) =
      (shown cfg loaded tab before).map f := by
  rw [shown, shown, held_map, map_rtake, length_map]

theorem reconnect_map (cfg : StreamConfig) {client : Client} {tab : TabID}
    (htab : client.ignores tab = false) {loaded : TabID → List α} {loaded' : TabID → List β}
    (hloaded : loaded' tab = (loaded tab).map f) (before : List (Body α)) (lastID : UInt64)
    (live : List (Body α)) :
    reconnect cfg client loaded' (before.map (Body.map f)) lastID (live.map (Body.map f)) tab =
      (reconnect cfg client loaded before lastID live tab).map f := by
  rw [reconnect_eq cfg htab, reconnect_eq cfg htab, hloaded, due_map, linesFor_map, shown_map,
    ← map_append, ← map_append, ← map_rtake, apply_ite (map f)]
  simp only [map_eq_nil_iff]

end Map

theorem allLines_cons (body : Body α) (bodies : List (Body α)) :
    allLines (body :: bodies) = body.lines ++ allLines bodies := flatMap_cons

theorem allLines_append (bodies more : List (Body α)) :
    allLines (bodies ++ more) = allLines bodies ++ allLines more := flatMap_append

theorem map_number (pre : List α) (bodies : List (Body α)) (post : List α) :
    (number pre.length bodies).map (Body.map ((pre ++ allLines bodies ++ post)[·]?)) =
      bodies.map (Body.map some) := by
  induction bodies generalizing pre with
  | nil => rfl
  | cons body bodies ih =>
    cases body with
    | other => exact congrArg _ (ih pre)
    | output tab lines =>
      have hall : pre ++ allLines (.output tab lines :: bodies) ++ post =
          pre ++ lines ++ allLines bodies ++ post := by
        rw [allLines_cons, Body.lines, append_assoc pre lines]
      have hlines : (range' pre.length lines.length).map
          ((pre ++ lines ++ allLines bodies ++ post)[·]?) = lines.map some := by
        refine ext_getElem (by simp) fun i hi _ => ?_
        have hi' : i < lines.length := by simpa using hi
        simp [getElem?_append, hi']
      rw [hall, number, map_cons, map_cons, ← length_append, ih (pre ++ lines),
        Body.map, hlines]
      rfl

theorem number_append (n : ℕ) (bodies more : List (Body α)) :
    number n (bodies ++ more) = number n bodies ++ number (n + (allLines bodies).length) more := by
  induction bodies generalizing n with
  | nil => rfl
  | cons body bodies ih =>
    cases body with
    | other => exact congrArg _ (ih n)
    | output tab lines =>
      rw [cons_append, number, ih, allLines_cons, length_append, Body.lines,
        Nat.add_assoc]
      rfl

theorem linesFor_number (n : ℕ) (tab : TabID) (bodies : List (Body α)) :
    (linesFor tab (number n bodies)).Sublist (range' n (allLines bodies).length) := by
  induction bodies generalizing n with
  | nil => exact List.Sublist.slnil
  | cons body bodies ih =>
    cases body with
    | other => exact ih n
    | output tab' lines =>
      have hhead : (Body.linesFor tab (.output tab' (range' n lines.length))).Sublist
          (range' n lines.length) := by
        rw [Body.linesFor]
        split_ifs
        · exact List.Sublist.refl _
        · exact nil_sublist _
      rw [allLines_cons, length_append, Body.lines, ← range'_append_1]
      exact hhead.append (ih (n + lines.length))

theorem places_nodup (n : ℕ) (tab : TabID) (bodies : List (Body α)) :
    (range n ++ linesFor tab (number n bodies)).Nodup := by
  have hsub := (List.Sublist.refl (range n)).append (linesFor_number n tab bodies)
  have hrange := @range'_append_1 0 n (allLines bodies).length
  rw [Nat.zero_add, ← range_eq_range'] at hrange
  rw [hrange] at hsub
  exact (nodup_range' 1 Nat.one_pos).sublist hsub

theorem due_ne_nil {cfg : StreamConfig} {lastID : UInt64} {before : List (Body α)}
    (h : due cfg lastID tab before ≠ []) : linesFor tab before ≠ [] := by
  obtain ⟨x, hx⟩ := exists_mem_of_ne_nil _ h
  exact ne_nil_of_mem (due_subset cfg lastID tab before hx)

/-- The buffer of a client, line by line: the places of its lines are the last ones of the tab if
and only if the client is sent no line of the tab again, or so many lines come that nothing of the
snapshot is left and what is left of the lines sent again is how the tab ended. -/
theorem reconnect_exact (cfg : StreamConfig) (client : Client) (tab : TabID)
    (htab : client.ignores tab = false) (loaded : TabID → List α) (before : List (Body α))
    (lastID : UInt64) (live : List (Body α)) :
    let start := (loaded tab).length
    let places := reconnect cfg client (fun tab => range (loaded tab).length)
      (number start before) lastID (number (start + (allLines before).length) live) tab
    (reconnect cfg client loaded before lastID live tab).map some =
        places.map ((loaded tab ++ allLines (before ++ live))[·]?) ∧
      (places <:+ range start ++ linesFor tab (number start (before ++ live)) ↔
        due cfg lastID tab before = [] ∨
          (cfg.maxLines ≤ (due cfg lastID tab before).length + (linesFor tab live).length ∧
            (due cfg lastID tab (number start before)).rtake
                (cfg.maxLines - (linesFor tab live).length) <:+
              range start ++ linesFor tab (number start before))) := by
  intro start places
  have htext : loaded tab ++ allLines (before ++ live) =
      loaded tab ++ allLines before ++ allLines live := by
    rw [allLines_append, append_assoc]
  have hloaded : (range start).map ((loaded tab ++ allLines (before ++ live))[·]?) =
      (loaded tab).map some := by
    refine ext_getElem (by simp [start]) fun i hi _ => ?_
    have hi' : i < (loaded tab).length := by simpa [start] using hi
    simp [getElem?_append, hi']
  have hbefore : (number start before).map
      (Body.map ((loaded tab ++ allLines (before ++ live))[·]?)) = before.map (Body.map some) := by
    rw [htext]
    exact map_number (loaded tab) before (allLines live)
  have hlive : (number (start + (allLines before).length) live).map
      (Body.map ((loaded tab ++ allLines (before ++ live))[·]?)) = live.map (Body.map some) := by
    have h := map_number (loaded tab ++ allLines before) live []
    rwa [append_nil, ← htext, length_append] at h
  constructor
  · have h := @reconnect_map _ _ some cfg client tab htab loaded (fun tab => (loaded tab).map some)
      rfl before lastID live
    rw [← hbefore, ← hlive] at h
    rw [← h]
    exact reconnect_map _ cfg htab hloaded.symm _ lastID _
  · have hdue : (due cfg lastID tab (number start before)).length =
        (due cfg lastID tab before).length := by
      have h := congrArg (fun bodies => (due cfg lastID tab bodies).length) hbefore
      simpa only [due_map, length_map] using h
    have hlines : (linesFor tab (number (start + (allLines before).length) live)).length =
        (linesFor tab live).length := by
      have h := congrArg (fun bodies => (linesFor tab bodies).length) hlive
      simpa only [linesFor_map, length_map] using h
    have hagain : due cfg lastID tab (number start before) ≠ [] →
        range start ++ linesFor tab (number start before) ≠ [] :=
      fun h => append_ne_nil_of_right_ne_nil _ (due_ne_nil h)
    have hkeep := @keep_suffix_iff _ cfg.maxLines _ _ _
      (linesFor tab (number (start + (allLines before).length) live))
      (places_nodup start tab before)
      (shown_suffix cfg (range start) tab (number start before)) (shown_ne_nil cfg) hagain
    rw [← reconnect_eq cfg htab (fun tab => range (loaded tab).length), hdue, hlines,
      ← length_eq_zero_iff, hdue, length_eq_zero_iff] at hkeep
    rw [number_append, linesFor_append, ← append_assoc]
    exact hkeep

/-- The defaults of the server and of the clients. -/
def defaultStreamConfig : StreamConfig where
  historySize := 1000
  bufferMaxLines := 5000
  initialBufferLines := 200
  maxLines := 2000
  bufferMaxLines_pos := by decide

def greeting : List (Body GoString) :=
  [.output (lit "tab-1") [lit "hello"], .output (lit "tab-1") [lit "world"]]

/-- A client that has seen everything gets the new lines once. -/
theorem reconnect_exact_upToDate :
    Client.browser.ignores (lit "tab-1") = false ∧
      reconnect defaultStreamConfig .browser (fun _ => range 0) (number 0 greeting) 2
          (number 2 greeting) (lit "tab-1") <:+
        range 0 ++ linesFor (lit "tab-1") (number 0 (greeting ++ greeting)) :=
  ⟨by decide, (reconnect_exact defaultStreamConfig .browser (lit "tab-1") (by decide) (fun _ => [])
    greeting 2 greeting).2.mpr (.inl (by decide))⟩

/-- A client that has missed a line gets it twice. -/
theorem missed_line_twice :
    reconnect defaultStreamConfig .browser (fun _ => []) greeting 1 [] (lit "tab-1") =
        [lit "hello", lit "world", lit "world"] ∧
      (((Server.new defaultStreamConfig fun _ => []).run defaultStreamConfig greeting).1.buffers
        (lit "tab-1")).lines = [lit "hello", lit "world"] := by
  decide

end Centaurx
