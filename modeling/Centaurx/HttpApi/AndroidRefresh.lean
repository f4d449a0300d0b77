import Centaurx.HttpApi.AndroidClient

namespace Centaurx.AndroidRefresh
open Go Runs Newest TabLists List Function

def Copied.target (c : Copied) : Option TabID := c.active.filter (!Client.android.ignores ·)

namespace Refresh

/-- The answer to the first request, once it is given. -/
def listed? : Refresh → Option Listed
  | .listed r => some r
  | .fetching c _ | .fetched c _ | .reading c _ | .systemRead c _ _ => some c.listed
  | .idle | .listing => none

/-- The copy of the buffers, once it is made. -/
def copied? : Refresh → Option Copied
  | .fetching c _ | .fetched c _ | .reading c _ | .systemRead c _ _ => some c
  | .idle | .listing | .listed _ => none

/-- The tab of the second request, while it is under way. -/
def asked? : Refresh → Option TabID
  | .fetching _ id => some id
  | .idle | .listing | .listed _ | .fetched _ _ | .reading _ _ | .systemRead _ _ _ => none

/-- The answer to the second request, once it is given. -/
def fetched? : Refresh → Option Fetched
  | .fetched _ f => some f
  | .reading _ f | .systemRead _ f _ => f
  | .idle | .listing | .listed _ | .fetching _ _ => none

theorem copied_of_fetched {refresh : Refresh} {f : Fetched} (h : f ∈ refresh.fetched?) :
    ∃ c, c ∈ refresh.copied? := by
  cases refresh with
  | fetched c _ | reading c _ | systemRead c _ _ => exact ⟨c, rfl⟩
  | idle | listing | listed _ | fetching _ _ => simp [fetched?] at h

end Refresh

namespace System

/-- How many of the newest lines of a tab the answer can hold. -/
def held (s : System) (id : TabID) : ℕ := min maxLines (s.server.buffers id).maxLines.toNat

/-- The refresh replaces the state. -/
def updates (s : System) (l : RefreshStep) : Bool :=
  match s.refresh, l with
  | .systemRead .., .receive => true
  | _, _ => false

/-- A line that an event has brought is still there, unless it is not among the newest ones, a tab
that an event has opened is there unless it is closed, and a tab that an event has closed is
not there. -/
structure Kept (s s' : System) : Prop where
  lines : ∀ id, ∀ x ∈ s.streamed id, x ∈ (s.client.buffers id).getD [] →
    x ∈ (s'.client.buffers id).getD [] ∨ x.2 + s.held id < (s.server.history id).length
  opened : ∀ id ∈ s.opened, id ∉ s.server.closed → id ∈ s'.client.tabs.map AndroidTab.id
  shut : ∀ id ∈ s.shut, id ∉ s'.client.tabs.map AndroidTab.id

/-- An event is handled before the answer that replaces what it changes, or is older than it. -/
def EventTimely (s : System) (clock : ℕ) : AppEvent Line → Prop
  | .output id lines => ∀ c ∈ s.refresh.copied?, Client.android.ignores id = true ∨ lines = [] ∨
      (c.target = some id ∧ ∀ f ∈ s.refresh.fetched?, clock < f.clock)
  | .tab type tab _ => type = .closed ∨ tab.id ∉ s.client.tabs.map AndroidTab.id →
      ∀ r ∈ s.refresh.listed?, clock < r.clock
  | .snapshot _ | .system _ => True

/-- The events are timely, and the buffer of the active tab is served from its end. -/
def Timely (s : System) : RefreshStep → Prop
  | .handle i => ∀ sent ∈ s.underWay[i]?, s.EventTimely sent.clock sent.event
  | .serve _ _ => ∀ id ∈ s.refresh.asked?,
      (s.server.buffers id).scrollOffset = 0 ∨ (s.server.buffers id).lines.length ≤ maxLines
  | _ => True

instance (s : System) (clock : ℕ) : (event : AppEvent Line) → Decidable (s.EventTimely clock event)
  | .output .. => inferInstanceAs (Decidable (∀ _, _))
  | .tab .. => inferInstanceAs (Decidable (_ → _))
  | .snapshot _ | .system _ => isTrue trivial

instance (s : System) : (l : RefreshStep) → Decidable (s.Timely l)
  | .handle _ | .serve .. => inferInstanceAs (Decidable (∀ _, _))
  | .call _ | .snapshot _ | .begin | .receive | .fail => isTrue trivial

/-- An event tells what has happened. -/
def Truthful (server : Server) : AppEvent Line → Prop
  | .output id lines => ∀ x ∈ lines, x ∈ (server.history id).zipIdx
  | .tab type tab _ =>
    if type = .closed then tab.id ∈ server.closed else tab.id ∈ server.ids ∨ tab.id ∈ server.closed
  | .snapshot _ | .system _ => True

structure ServerOk (cap : Int) (server : Server) : Prop where
  cap_pos : 0 < cap
  maxLines : ∀ id, (server.buffers id).maxLines = cap
  offset : ∀ id, 0 ≤ (server.buffers id).scrollOffset
  lines : ∀ id, (server.buffers id).lines = (server.history id).zipIdx.rtake cap.toNat
  closed : ∀ id ∈ server.closed, id ∉ server.ids

/-- The answer to the first request has what the events before it tell. -/
structure ListedOk (s : System) (r : Listed) : Prop where
  clock : r.clock ≤ s.server.clock
  sent : ∀ sent ∈ s.underWay, sent.clock < r.clock → ∀ type tab theme,
    sent.event = .tab type tab theme →
      if type = .closed then tab.id ∉ r.tabs.map AndroidTab.id
      else tab.id ∈ r.tabs.map AndroidTab.id ∨ tab.id ∈ s.server.closed
  opened : ∀ id ∈ s.opened, id ∈ r.tabs.map AndroidTab.id ∨ id ∈ s.server.closed
  shut : ∀ id ∈ s.shut, id ∉ r.tabs.map AndroidTab.id

/-- The answer to the second request has the newest lines, and the events before it had no
others. -/
structure FetchedOk (cap : Int) (s : System) (f : Fetched) : Prop where
  clock : f.clock ≤ s.server.clock
  total : f.total ≤ (s.server.history f.id).length
  lines : ∀ x ∈ (s.server.history f.id).zipIdx, x.2 < f.total →
    x ∈ f.lines ∨ x.2 + min AndroidRefresh.maxLines cap.toNat < f.total
  sent : ∀ sent ∈ s.underWay, sent.clock < f.clock → ∀ lines, sent.event = .output f.id lines →
    ∀ x ∈ lines, x.2 < f.total
  streamed : ∀ x ∈ s.streamed f.id, x.2 < f.total

/-- The variables of the refresh fit together. -/
def RefreshOk : Refresh → Prop
  | .fetching c id => c.target = some id
  | .fetched c f => c.target = some f.id
  | .reading c f | .systemRead c f _ =>
    c.target = f.map Fetched.id ∧ ∀ f' ∈ f, c.buffers f'.id = some f'.lines
  | .idle | .listing | .listed _ => True

structure Inv (cap : Int) (s : System) : Prop where
  server : ServerOk cap s.server
  sent : ∀ sent ∈ s.underWay, sent.clock < s.server.clock ∧ Truthful s.server sent.event
  streamed : ∀ id, ∀ x ∈ s.streamed id, x ∈ (s.server.history id).zipIdx
  opened : ∀ id ∈ s.opened, id ∈ s.server.ids ∨ id ∈ s.server.closed
  shut : ∀ id ∈ s.shut, id ∈ s.server.closed
  refresh : RefreshOk s.refresh
  listed : ∀ r ∈ s.refresh.listed?, s.ListedOk r
  copied : ∀ c ∈ s.refresh.copied?, ∀ id, c.target ≠ some id → ∀ x ∈ s.streamed id,
    x ∈ (s.client.buffers id).getD [] → x ∈ (c.buffers id).getD []
  fetched : ∀ f ∈ s.refresh.fetched?, s.FetchedOk cap f

variable {cap : Int} {s : System}

theorem inv_start (bufferMaxLines : Int) :
    (start bufferMaxLines).Inv (Buffer.capOf bufferMaxLines) where
  server :=
    { cap_pos := Buffer.capOf_pos bufferMaxLines
      maxLines := fun _ => rfl
      offset := fun _ => le_rfl
      lines := fun _ => drop_nil.symm
      closed := fun _ hid => absurd hid not_mem_nil }
  sent _ h := absurd h not_mem_nil
  streamed _ _ h := absurd h not_mem_nil
  opened _ h := absurd h not_mem_nil
  shut _ h := absurd h not_mem_nil
  refresh := trivial
  listed _ h := by simp [start, Refresh.listed?] at h
  copied _ h := by simp [start, Refresh.copied?] at h
  fetched _ h := by simp [start, Refresh.fetched?] at h

theorem Inv.kept (h : s.Inv cap) {c : Copied} {f : Option Fetched} {systemLines : List Line}
    (hrefresh : s.refresh = .systemRead c f systemLines) : Kept s s.receive := by
  have hclient : s.receive.client.buffers = c.buffers ∧ s.receive.client.tabs = c.listed.tabs := by
    simp [receive, hrefresh]
  have hlisted := h.listed c.listed (by simp [hrefresh, Refresh.listed?])
  have hok := h.refresh
  rw [hrefresh] at hok
  refine ⟨?_, ?_, ?_⟩
  · intro id x hx hold
    rw [hclient.1]
    by_cases htarget : c.target = some id
    · -- the buffer of the active tab is the answer of the server
      rw [hok.1] at htarget
      obtain ⟨f', hf', rfl⟩ := Option.map_eq_some_iff.mp htarget
      have hfetched := h.fetched f' (by simp [hrefresh, Refresh.fetched?, hf'])
      rw [hok.2 f' hf', Option.getD_some, held, h.server.maxLines]
      have hnumber := hfetched.streamed x hx
      refine (hfetched.lines x (h.streamed _ x hx) hnumber).imp_right fun hold => ?_
      exact hold.trans_le hfetched.total
    · exact .inl (h.copied c (by simp [hrefresh, Refresh.copied?]) id htarget x hx hold)
  · intro id hid hopen
    rw [hclient.2]
    exact (hlisted.opened id hid).resolve_right hopen
  · intro id hid
    rw [hclient.2]
    exact hlisted.shut id hid

/-- Lines are only added, and a tab goes from the open ones to the closed ones. -/
structure Grows (server server' : Server) : Prop where
  history : ∀ id, server.history id <+: server'.history id
  closed : ∀ id ∈ server.closed, id ∈ server'.closed
  ids : ∀ id, id ∈ server.ids ∨ id ∈ server.closed → id ∈ server'.ids ∨ id ∈ server'.closed

theorem Grows.refl (server : Server) : Grows server server :=
  ⟨fun _ => prefix_rfl, fun _ h => h, fun _ h => h⟩

theorem mem_zipIdx_of_prefix {l l' : List GoString} (h : l <+: l') {x : Line}
    (hx : x ∈ l.zipIdx) : x ∈ l'.zipIdx := by
  obtain ⟨t, rfl⟩ := h
  rw [zipIdx_append]
  exact mem_append_left _ hx

theorem mem_zipIdx_of_lt {l l' : List GoString} (h : l <+: l') {x : Line} (hx : x ∈ l'.zipIdx)
    (hlt : x.2 < l.length) : x ∈ l.zipIdx := by
  obtain ⟨t, rfl⟩ := h
  rw [mem_zipIdx_iff_getElem?] at hx ⊢
  rwa [getElem?_append_left hlt] at hx

variable {server : Server}

theorem Truthful.mono {server' : Server} (hgrows : Grows server server') {event : AppEvent Line}
    (h : Truthful server event) : Truthful server' event := by
  cases event with
  | output id lines => exact fun x hx => mem_zipIdx_of_prefix (hgrows.history id) (h x hx)
  | tab type tab theme =>
    simp only [Truthful] at h ⊢
    split_ifs at h ⊢
    · exact hgrows.closed _ h
    · exact hgrows.ids _ h
  | snapshot | system => trivial

theorem place_known {tab : AndroidTab} (h : tab.id ∈ server.ids) :
    (place AndroidTab.id server.tabs tab).map AndroidTab.id = server.ids := by
  rw [place_ids]
  exact if_pos h

theorem call_grows (server : Server) (call : ServerCall) : Grows server (server.call call).1 := by
  cases call with
  | createTab tab =>
    simp only [Server.call]
    split_ifs
    · exact .refl server
    · refine ⟨fun _ => prefix_rfl, fun _ h => h, fun id hid => hid.imp_left fun h => ?_⟩
      simp only [Server.ids, map_append, mem_append]
      exact .inl h
  | changeTab type tab theme =>
    simp only [Server.call]
    split_ifs with hknown
    · refine ⟨fun _ => prefix_rfl, fun _ h => h, fun id hid => hid.imp_left fun h => ?_⟩
      rw [Server.ids, place_known hknown.1]
      exact h
    · exact .refl server
  | closeTab id =>
    simp only [Server.call]
    split
    · exact .refl server
    · refine ⟨fun _ => prefix_rfl, fun _ h => mem_append_left _ h, fun id' hid => ?_⟩
      by_cases heq : id' = id
      · exact .inr (by simp [heq])
      · refine hid.imp (fun h => ?_) (mem_append_left _)
        obtain ⟨tab, htab, rfl⟩ := mem_map.mp h
        exact mem_map_of_mem (mem_filter.mpr ⟨htab, by simpa using heq⟩)
  | appendOutput id texts =>
    simp only [Server.call]
    split_ifs
    · refine ⟨fun id' => ?_, fun _ h => h, fun _ h => h⟩
      by_cases heq : id' = id
      · subst heq
        simp
      · simp [update_of_ne heq]
    · exact .refl server
  | appendSystemOutput texts =>
    simp only [Server.call]
    split_ifs
    · exact ⟨fun _ => prefix_rfl, fun _ h => h, fun _ h => h⟩
    · exact .refl server
  | scrollBuffer id offset => exact ⟨fun _ => prefix_rfl, fun _ h => h, fun _ h => h⟩

theorem call_truthful (server : Server) (call : ServerCall) :
    ∀ event ∈ (server.call call).2, Truthful (server.call call).1 event := by
  cases call with
  | createTab tab =>
    simp only [Server.call]
    split_ifs <;> simp [Truthful, Server.ids]
  | changeTab type tab theme =>
    simp only [Server.call]
    split_ifs with hknown
    · simp only [mem_singleton, forall_eq, Truthful, if_neg hknown.2]
      rw [Server.ids, place_known hknown.1]
      exact .inl hknown.1
    · simp
  | closeTab id =>
    simp only [Server.call]
    split
    · simp
    · next tab hfind =>
      have hid : tab.id = id := by simpa using find?_some hfind
      simp [Truthful, hid]
  | appendOutput id texts =>
    simp only [Server.call]
    split_ifs
    · simp only [mem_singleton, forall_eq, Truthful, update_self]
      intro x hx
      rw [zipIdx_append]
      exact mem_append_right _ (by simpa using hx)
    · simp
  | appendSystemOutput texts =>
    simp only [Server.call]
    split_ifs <;> simp [Truthful]
  | scrollBuffer id offset => simp [Server.call]

theorem ServerOk.call (h : ServerOk cap server) (call : ServerCall) :
    ServerOk cap (server.call call).1 := by
  cases call with
  | createTab tab =>
    simp only [Server.call]
    split_ifs with hknown
    · exact h
    · refine ⟨h.cap_pos, h.maxLines, h.offset, h.lines, fun id hid hmem => ?_⟩
      simp only [Server.ids, map_append, map_cons, map_nil, mem_append,
        mem_singleton] at hmem
      rcases hmem with hold | rfl
      · exact h.closed id hid hold
      · exact hknown (.inr hid)
  | changeTab type tab theme =>
    simp only [Server.call]
    split_ifs with hknown
    · refine ⟨h.cap_pos, h.maxLines, h.offset, h.lines, fun id hid => ?_⟩
      rw [Server.ids, place_known hknown.1]
      exact h.closed id hid
    · exact h
  | closeTab id =>
    simp only [Server.call]
    split
    · exact h
    · refine ⟨h.cap_pos, h.maxLines, h.offset, h.lines, fun id' hid hmem => ?_⟩
      obtain ⟨tab, htab, rfl⟩ := mem_map.mp hmem
      obtain ⟨hold, hne⟩ := mem_filter.mp htab
      rcases mem_append.mp hid with hclosed | hsame
      · exact h.closed _ hclosed (mem_map_of_mem hold)
      · simp only [mem_singleton] at hsame
        simp [hsame] at hne
  | appendOutput id texts =>
    simp only [Server.call]
    split_ifs with happend
    · refine ⟨h.cap_pos, fun id' => ?_, fun id' => ?_, fun id' => ?_, h.closed⟩
      all_goals
        dsimp only
        by_cases heq : id' = id
      · rw [heq, update_self, Buffer.append_maxLines, h.maxLines]
      · rw [update_of_ne heq, h.maxLines]
      · rw [heq, update_self]
        exact Buffer.append_offset_nonneg (h.offset id) _
      · rw [update_of_ne heq]
        exact h.offset id'
      · have hpos : 0 < (server.buffers id).maxLines := (h.maxLines id).symm ▸ h.cap_pos
        have hne : texts.zipIdx (server.history id).length ≠ [] := by
          simpa [zipIdx_eq_nil_iff] using happend.2
        rw [heq, update_self, update_self, Buffer.append_keep hpos, keep,
          if_neg hne, h.maxLines, h.lines, rtake_append_rtake, zipIdx_append, Nat.zero_add]
      · rw [update_of_ne heq, update_of_ne heq, h.lines]
    · exact h
  | appendSystemOutput texts =>
    simp only [Server.call]
    split_ifs
    · exact ⟨h.cap_pos, h.maxLines, h.offset, h.lines, h.closed⟩
    · exact h
  | scrollBuffer id offset =>
    refine ⟨h.cap_pos, ?_, ?_, ?_, h.closed⟩
    all_goals
      intro id'
      by_cases heq : id' = id
      · subst heq
        simp [Server.call, h.maxLines, h.lines]
      · simp [Server.call, update_of_ne heq, h.maxLines, h.lines, h.offset]

theorem Inv.call (h : s.Inv cap) (call : ServerCall) : (s.step (.call call)).Inv cap := by
  have hgrows := call_grows s.server call
  have hok := h.server.call call
  have htrue := call_truthful s.server call
  -- an event of this call is younger than every answer
  have hnew : ∀ sent ∈ (s.server.call call).2.map (Sent.mk · s.server.clock),
      sent.clock = s.server.clock ∧ Truthful (s.server.call call).1 sent.event := by
    intro sent hsent
    obtain ⟨event, hevent, rfl⟩ := mem_map.mp hsent
    exact ⟨rfl, htrue event hevent⟩
  refine ⟨⟨hok.cap_pos, hok.maxLines, hok.offset, hok.lines, hok.closed⟩, ?_, ?_, ?_, ?_, h.refresh,
    ?_, h.copied, ?_⟩
  · intro sent hsent
    rcases mem_append.mp hsent with hold | hsent
    · obtain ⟨hclock, htruth⟩ := h.sent sent hold
      exact ⟨Nat.lt_succ_of_lt hclock, htruth.mono hgrows⟩
    · obtain ⟨hclock, htruth⟩ := hnew sent hsent
      exact ⟨hclock ▸ Nat.lt_succ_self _, htruth⟩
  · exact fun id x hx => mem_zipIdx_of_prefix (hgrows.history id) (h.streamed id x hx)
  · exact fun id hid => hgrows.ids id (h.opened id hid)
  · exact fun id hid => hgrows.closed id (h.shut id hid)
  · intro r hr
    have hlisted := h.listed r hr
    refine ⟨Nat.le_succ_of_le hlisted.clock, ?_, ?_, hlisted.shut⟩
    · intro sent hsent hclock type tab theme hevent
      rcases mem_append.mp hsent with hold | hsent
      · have hagree := hlisted.sent sent hold hclock type tab theme hevent
        split_ifs at hagree ⊢
        · exact hagree
        · exact hagree.imp_right (hgrows.closed _)
      · have := hlisted.clock
        have := (hnew sent hsent).1
        omega
    · exact fun id hid => (hlisted.opened id hid).imp_right (hgrows.closed id)
  · intro f hf
    have hfetched := h.fetched f hf
    refine ⟨Nat.le_succ_of_le hfetched.clock,
      hfetched.total.trans (hgrows.history f.id).length_le, ?_, ?_, hfetched.streamed⟩
    · intro x hx hlt
      exact hfetched.lines x
        (mem_zipIdx_of_lt (hgrows.history f.id) hx (hlt.trans_le hfetched.total)) hlt
    · intro sent hsent hclock lines hevent
      rcases mem_append.mp hsent with hold | hsent
      · exact hfetched.sent sent hold hclock lines hevent
      · have := hfetched.clock
        have := (hnew sent hsent).1
        omega

/-- An event that goes with the answers that are given. -/
structure Fits (s : System) (event : AppEvent Line) : Prop where
  truth : Truthful s.server event
  listed : ∀ r ∈ s.refresh.listed?, ∀ type tab theme, event = .tab type tab theme →
    (type = .closed → tab.id ∉ r.tabs.map AndroidTab.id) ∧
    (type ≠ .closed → tab.id ∉ s.client.tabs.map AndroidTab.id →
      tab.id ∈ r.tabs.map AndroidTab.id ∨ tab.id ∈ s.server.closed)
  copied : ∀ c ∈ s.refresh.copied?, ∀ id lines, event = .output id lines →
    Client.android.ignores id = true ∨ lines = [] ∨ c.target = some id
  fetched : ∀ f ∈ s.refresh.fetched?, ∀ lines, event = .output f.id lines →
    ∀ x ∈ lines, Client.android.ignores f.id = true ∨ x.2 < f.total

theorem Inv.fits (h : s.Inv cap) {sent : Sent} (hsent : sent ∈ s.underWay)
    (htimely : s.EventTimely sent.clock sent.event) : s.Fits sent.event := by
  refine ⟨(h.sent sent hsent).2, ?_, ?_, ?_⟩
  · intro r hr type tab theme hevent
    rw [hevent] at htimely
    have hagree := (h.listed r hr).sent sent hsent
    constructor
    · intro hclosed
      have := hagree (htimely (.inl hclosed) r hr) type tab theme hevent
      rwa [if_pos hclosed] at this
    · intro hopen hnew
      have := hagree (htimely (.inr hnew) r hr) type tab theme hevent
      rwa [if_neg hopen] at this
  · intro c hc id lines hevent
    rw [hevent] at htimely
    exact (htimely c hc).imp_right fun h => h.imp_right And.left
  · intro f hf lines hevent x hx
    obtain ⟨c, hc⟩ := Refresh.copied_of_fetched hf
    rw [hevent] at htimely
    rcases htimely c hc with hignored | hempty | ⟨-, hclock⟩
    · exact .inl hignored
    · simp [hempty] at hx
    · exact .inr ((h.fetched f hf).sent sent hsent (hclock f hf) lines hevent x hx)

section Handle
variable {event : AppEvent Line} {id : TabID} {x : Line}

/-- A streamed line was streamed before and is not brought back, or the event is an output of the
tab. -/
theorem mem_streamed_handle (hx : x ∈ (s.handleEvent event).streamed id) :
    (x ∈ s.streamed id ∧ (x ∈ ((s.handleEvent event).client.buffers id).getD [] →
      x ∈ (s.client.buffers id).getD [])) ∨
    ∃ lines, event = .output id lines ∧ Client.android.ignores id = false ∧ lines ≠ [] ∧
      (x ∈ s.streamed id ∨ x ∈ lines) := by
  cases event with
  | snapshot snapshot => exact absurd hx not_mem_nil
  | system lines =>
    simp only [handleEvent, handleStreamEvent, appendSystem, apply_ite ViewModel.buffers, ite_self]
    exact .inl ⟨hx, fun hold => hold⟩
  | tab type tab theme =>
    simp only [handleEvent, handleStreamEvent, applyTabEvent] at hx ⊢
    split_ifs at hx ⊢
    · by_cases hid : id = tab.id
      · simp [hid] at hx
      · rw [update_of_ne hid] at hx ⊢
        exact .inl ⟨hx, fun hold => hold⟩
    · exact .inl ⟨hx, fun hold => hold⟩
  | output id' lines =>
    simp only [handleEvent, handleStreamEvent, appendLines] at hx ⊢
    split_ifs at hx ⊢ with hignored
    · exact .inl ⟨hx, fun hold => hold⟩
    · by_cases hid : id = id'
      · subst hid
        simp only [Bool.or_eq_true, not_or, Bool.not_eq_true, isEmpty_eq_false_iff] at hignored
        rw [update_self] at hx
        exact .inr ⟨lines, rfl, hignored.1, hignored.2, mem_append.mp hx⟩
      · dsimp only
        rw [update_of_ne hid] at hx ⊢
        exact .inl ⟨hx, fun hold => hold⟩

theorem mem_opened_handle (hid : id ∈ (s.handleEvent event).opened) :
    id ∈ s.opened ∨ ∃ type tab theme, event = .tab type tab theme ∧ tab.id = id ∧
      type ≠ .closed ∧ tab.id ∉ s.client.tabs.map AndroidTab.id := by
  cases event with
  | tab type tab theme =>
    simp only [handleEvent] at hid
    split_ifs at hid with hnew
    · refine (mem_append.mp hid).imp_right fun hmem => ?_
      exact ⟨type, tab, theme, rfl, (mem_singleton.mp hmem).symm, hnew⟩
    · exact .inl hid
  | snapshot | output | system => exact .inl hid

theorem mem_shut_handle (hid : id ∈ (s.handleEvent event).shut) :
    id ∈ s.shut ∨ ∃ tab theme, event = .tab .closed tab theme ∧ tab.id = id := by
  cases event with
  | tab type tab theme =>
    simp only [handleEvent] at hid
    split_ifs at hid with hclosed
    · subst hclosed
      refine (mem_append.mp hid).imp_right fun hmem => ?_
      exact ⟨tab, theme, rfl, (mem_singleton.mp hmem).symm⟩
    · exact .inl hid
  | snapshot | output | system => exact .inl hid

theorem Inv.handleEvent (h : s.Inv cap) (hfits : s.Fits event) : (s.handleEvent event).Inv cap := by
  refine ⟨h.server, h.sent, ?_, ?_, ?_, h.refresh, ?_, ?_, ?_⟩
  · intro id x hx
    rcases mem_streamed_handle hx with ⟨hold, -⟩ | ⟨lines, rfl, -, -, hold | hmem⟩
    · exact h.streamed id x hold
    · exact h.streamed id x hold
    · exact hfits.truth x hmem
  · intro id hid
    rcases mem_opened_handle hid with hold | ⟨type, tab, theme, rfl, rfl, hopen, -⟩
    · exact h.opened id hold
    · have htruth := hfits.truth
      rwa [Truthful, if_neg hopen] at htruth
  · intro id hid
    rcases mem_shut_handle hid with hold | ⟨tab, theme, rfl, rfl⟩
    · exact h.shut id hold
    · have htruth := hfits.truth
      rwa [Truthful, if_pos rfl] at htruth
  · intro r hr
    have hlisted := h.listed r hr
    refine ⟨hlisted.clock, hlisted.sent, ?_, ?_⟩
    · intro id hid
      rcases mem_opened_handle hid with hold | ⟨type, tab, theme, rfl, rfl, hopen, hnew⟩
      · exact hlisted.opened id hold
      · exact (hfits.listed r hr type tab theme rfl).2 hopen hnew
    · intro id hid
      rcases mem_shut_handle hid with hold | ⟨tab, theme, rfl, rfl⟩
      · exact hlisted.shut id hold
      · exact (hfits.listed r hr .closed tab theme rfl).1 rfl
  · intro c hc id htarget x hx hold
    rcases mem_streamed_handle hx with ⟨hx, hback⟩ | ⟨lines, rfl, hshown, hne, -⟩
    · exact h.copied c hc id htarget x hx (hback hold)
    · rcases hfits.copied c hc id lines rfl with hignored | hempty | htaken
      · simp [hignored] at hshown
      · exact absurd hempty hne
      · exact absurd htaken htarget
  · intro f hf
    have hfetched := h.fetched f hf
    refine ⟨hfetched.clock, hfetched.total, hfetched.lines, hfetched.sent, fun x hx => ?_⟩
    rcases mem_streamed_handle hx with ⟨hold, -⟩ | ⟨lines, rfl, hshown, -, hold | hmem⟩
    · exact hfetched.streamed x hold
    · exact hfetched.streamed x hold
    · rcases hfits.fetched f hf lines rfl x hmem with hignored | hlt
      · simp [hignored] at hshown
      · exact hlt

end Handle

theorem Inv.underWay (h : s.Inv cap) {sent : List Sent} (hsent : sent ⊆ s.underWay) :
    Inv cap { s with underWay := sent } := by
  refine ⟨h.server, fun e he => h.sent e (hsent he), h.streamed, h.opened, h.shut, h.refresh, ?_,
    h.copied, ?_⟩
  · intro r hr
    have hlisted := h.listed r hr
    exact ⟨hlisted.clock, fun e he => hlisted.sent e (hsent he), hlisted.opened, hlisted.shut⟩
  · intro f hf
    have hfetched := h.fetched f hf
    exact ⟨hfetched.clock, hfetched.total, hfetched.lines, fun e he => hfetched.sent e (hsent he),
      hfetched.streamed⟩

/-- What an answer does besides leaves the answers of before as they are. -/
theorem ListedOk.answered {r : Listed} (h : s.ListedOk r) (refresh : Refresh)
    (buffers : TabID → Buffer Line) (system : Buffer Line) :
    ListedOk { s with
      refresh := refresh, server := { s.server with buffers := buffers, system := system } } r :=
  ⟨h.clock, h.sent, h.opened, h.shut⟩

theorem FetchedOk.answered {f : Fetched} (h : s.FetchedOk cap f) (refresh : Refresh)
    (buffers : TabID → Buffer Line) (system : Buffer Line) :
    FetchedOk cap { s with
      refresh := refresh, server := { s.server with buffers := buffers, system := system } } f :=
  ⟨h.clock, h.total, h.lines, h.sent, h.streamed⟩

theorem Inv.setRefresh (h : s.Inv cap) {refresh : Refresh} (hok : RefreshOk refresh)
    (hlisted : ∀ r ∈ refresh.listed?, s.ListedOk r)
    (hcopied : ∀ c ∈ refresh.copied?, ∀ id, c.target ≠ some id → ∀ x ∈ s.streamed id,
      x ∈ (s.client.buffers id).getD [] → x ∈ (c.buffers id).getD [])
    (hfetched : ∀ f ∈ refresh.fetched?, s.FetchedOk cap f) :
    Inv cap { s with refresh := refresh } := by
  refine ⟨h.server, h.sent, h.streamed, h.opened, h.shut, hok, ?_, hcopied, ?_⟩
  · exact fun r hr => (hlisted r hr).answered refresh _ _
  · exact fun f hf => (hfetched f hf).answered refresh _ _

theorem Inv.unanswered (h : s.Inv cap) {refresh : Refresh} (hlisted : refresh.listed? = none)
    (client : ViewModel Line) {opened shut : List TabID} (hopened : opened ⊆ s.opened)
    (hshut : shut ⊆ s.shut) :
    Inv cap { s with refresh := refresh, client := client, opened := opened, shut := shut } := by
  cases refresh with
  | idle | listing =>
    exact ⟨h.server, h.sent, h.streamed, fun id hid => h.opened id (hopened hid),
      fun id hid => h.shut id (hshut hid), trivial, fun _ hr => by simp [Refresh.listed?] at hr,
      fun _ hc => by simp [Refresh.copied?] at hc, fun _ hf => by simp [Refresh.fetched?] at hf⟩
  | listed | fetching | fetched | reading | systemRead => simp [Refresh.listed?] at hlisted

/-- An answer leaves the server as it is, apart from the offsets. -/
theorem Inv.setServer (h : s.Inv cap) {buffers : TabID → Buffer Line} (system : Buffer Line)
    (hbuffers : ∀ id, (buffers id).lines = (s.server.buffers id).lines ∧
      (buffers id).maxLines = (s.server.buffers id).maxLines ∧ 0 ≤ (buffers id).scrollOffset) :
    Inv cap { s with server := { s.server with buffers := buffers, system := system } } := by
  refine ⟨⟨h.server.cap_pos, ?_, ?_, ?_, h.server.closed⟩, ?_, h.streamed, h.opened, h.shut,
    h.refresh, ?_, h.copied, ?_⟩
  · exact fun id => (hbuffers id).2.1.trans (h.server.maxLines id)
  · exact fun id => (hbuffers id).2.2
  · exact fun id => (hbuffers id).1.trans (h.server.lines id)
  · intro sent hsent
    obtain ⟨hclock, htruth⟩ := h.sent sent hsent
    exact ⟨hclock, htruth.mono ⟨fun _ => prefix_rfl, fun _ h => h, fun _ h => h⟩⟩
  · exact fun r hr => (h.listed r hr).answered _ buffers system
  · exact fun f hf => (h.fetched f hf).answered _ buffers system

theorem snapshot_same {b : Buffer Line} (h : 0 ≤ b.scrollOffset) (limit : Int) :
    (b.snapshot limit).2.lines = b.lines ∧ (b.snapshot limit).2.maxLines = b.maxLines ∧
      0 ≤ (b.snapshot limit).2.scrollOffset := by
  have hmax := Buffer.viewMax_nonneg b.lines.length limit
  simp only [Buffer.snapshot, Buffer.clampTo]
  split_ifs
  · exact ⟨rfl, rfl, hmax⟩
  · exact ⟨rfl, rfl, h⟩

theorem snd_lt_of_mem_zipIdx {l : List GoString} {x : Line} (hx : x ∈ l.zipIdx) :
    x.2 < l.length := by
  rw [mem_zipIdx_iff_getElem?] at hx
  exact (List.getElem?_eq_some_iff.mp hx).1

theorem mem_rtake_zipIdx {l : List GoString} {x : Line} (hx : x ∈ l.zipIdx) (k : ℕ) :
    x ∈ l.zipIdx.rtake k ∨ x.2 + k < l.length := by
  refine or_iff_not_imp_right.mpr fun hnew => ?_
  rw [mem_zipIdx_iff_getElem?] at hx
  rw [rtake, length_zipIdx, mem_iff_getElem?]
  refine ⟨x.2 - (l.length - k), ?_⟩
  rw [getElem?_drop, show l.length - k + (x.2 - (l.length - k)) = x.2 by omega,
    getElem?_zipIdx, hx]
  simp

theorem ServerOk.snapshot (h : ServerOk cap server) {id : TabID}
    (hend : (server.buffers id).scrollOffset = 0 ∨
      (server.buffers id).lines.length ≤ AndroidRefresh.maxLines) :
    ((server.buffers id).snapshot AndroidRefresh.maxLines).1.lines =
      (server.history id).zipIdx.rtake (min AndroidRefresh.maxLines cap.toNat) := by
  rw [← rtake_rtake, ← h.lines, Buffer.snapshot_window (h.offset id) (by decide)]
  generalize AndroidRefresh.maxLines = limit at hend ⊢
  have hstart : (server.buffers id).lines.length - min limit (server.buffers id).lines.length -
      min (server.buffers id).scrollOffset.toNat ((server.buffers id).lines.length - limit) =
      (server.buffers id).lines.length - limit := by
    omega
  rw [hstart, rtake, take_of_length_le]
  rw [length_drop]
  omega

theorem Inv.serve (h : s.Inv cap) (candidate : Option TabID) (theme : Option GoString)
    (htimely : s.Timely (.serve candidate theme)) : (s.serve candidate theme).Inv cap := by
  rw [System.serve]
  cases hrefresh : s.refresh with
  | idle | listed | fetched | systemRead => exact h
  | listing =>
    refine h.setRefresh trivial ?_ (fun _ hc => by simp [Refresh.copied?] at hc)
      fun _ hf => by simp [Refresh.fetched?] at hf
    intro r hr
    obtain rfl := Option.some.inj hr
    refine ⟨le_rfl, ?_, h.opened, fun id hid => h.server.closed id (h.shut id hid)⟩
    intro sent hsent _ type tab theme hevent
    have htruth := (h.sent sent hsent).2
    rw [hevent, Truthful] at htruth
    split_ifs at htruth ⊢
    · exact h.server.closed _ htruth
    · exact htruth
  | fetching c id =>
    have htarget : c.target = some id := by
      have := h.refresh
      rwa [hrefresh] at this
    dsimp only
    split_ifs with hid
    · refine Inv.setRefresh (h.setServer s.server.system ?_) htarget ?_ ?_ ?_
      · intro id'
        by_cases heq : id' = id
        · subst heq
          rw [update_self]
          exact snapshot_same (h.server.offset id') _
        · rw [update_of_ne heq]
          exact ⟨rfl, rfl, h.server.offset id'⟩
      · exact fun r hr => (h.listed r (by rw [hrefresh]; exact hr)).answered _ _ _
      · exact fun c' hc => h.copied c' (by rw [hrefresh]; exact hc)
      · intro f hf
        obtain rfl := Option.some.inj hf
        refine ⟨le_rfl, le_rfl, ?_, ?_, ?_⟩
        · intro x hx _
          rw [h.server.snapshot (htimely id (by rw [hrefresh]; rfl))]
          exact mem_rtake_zipIdx hx _
        · intro sent hsent _ lines hevent x hx
          have htruth := (h.sent sent hsent).2
          rw [hevent] at htruth
          exact snd_lt_of_mem_zipIdx (htruth x hx)
        · exact fun x hx => snd_lt_of_mem_zipIdx (h.streamed id x hx)
    · exact h.unanswered rfl s.client (List.Subset.refl _) (List.Subset.refl _)
  | reading c f =>
    have hok := h.refresh
    rw [hrefresh] at hok
    refine Inv.setRefresh (h.setServer _ ?_) hok ?_ ?_ ?_
    · exact fun id => ⟨rfl, rfl, h.server.offset id⟩
    · exact fun r hr => (h.listed r (by rw [hrefresh]; exact hr)).answered _ _ _
    · exact fun c' hc => h.copied c' (by rw [hrefresh]; exact hc)
    · exact fun f' hf => (h.fetched f' (by rw [hrefresh]; exact hf)).answered _ _ _

theorem Inv.receive (h : s.Inv cap) : s.receive.Inv cap := by
  rw [System.receive]
  cases hrefresh : s.refresh with
  | idle | listing | fetching | reading => exact h
  | listed r =>
    have hlisted : ∀ r' ∈ some r, s.ListedOk r' := fun r' hr =>
      h.listed r' (by rw [hrefresh]; exact hr)
    -- the copy has all that is there
    dsimp only
    split
    · next hnone =>
      refine h.setRefresh ⟨hnone, fun _ hf => by simp at hf⟩ hlisted ?_
        fun _ hf => by simp [Refresh.fetched?] at hf
      intro c hc id _ x _ hold
      obtain rfl := Option.some.inj hc
      exact hold
    · next id hid =>
      refine h.setRefresh hid hlisted ?_ fun _ hf => by simp [Refresh.fetched?] at hf
      intro c hc id _ x _ hold
      obtain rfl := Option.some.inj hc
      exact hold
  | fetched c f =>
    have htarget : c.target = some f.id := by
      have := h.refresh
      rwa [hrefresh] at this
    refine h.setRefresh ⟨htarget, ?_⟩ ?_ ?_ ?_
    · intro f' hf
      obtain rfl := Option.some.inj hf
      exact update_self ..
    · exact fun r hr => h.listed r (by rw [hrefresh]; exact hr)
    · intro c' hc id hid x hx hold
      obtain rfl := Option.some.inj hc
      have hne : id ≠ f.id := fun heq => hid (heq ▸ htarget)
      dsimp only
      rw [update_of_ne hne]
      exact h.copied c (by rw [hrefresh]; rfl) id hid x hx hold
    · exact fun f' hf => h.fetched f' (by rw [hrefresh]; exact hf)
  | systemRead c f systemLines =>
    exact h.unanswered rfl _ (List.Subset.refl _) (List.Subset.refl _)

theorem Inv.step (h : s.Inv cap) {l : RefreshStep} (htimely : s.Timely l) : (s.step l).Inv cap := by
  cases l with
  | call call => exact h.call call
  | handle i =>
    simp only [System.step]
    cases hsent : s.underWay[i]? with
    | none => exact h
    | some sent =>
      have hmem := mem_of_getElem? hsent
      exact (h.handleEvent (h.fits hmem (htimely sent hsent))).underWay (eraseIdx_subset)
  | snapshot snapshot =>
    refine h.handleEvent ⟨trivial, ?_, ?_, ?_⟩
    · exact fun _ _ _ _ _ heq => by cases heq
    · exact fun _ _ _ _ heq => by cases heq
    · exact fun _ _ _ heq => by cases heq
  | begin =>
    simp only [System.step]
    split
    · exact h.unanswered rfl s.client (nil_subset _) (nil_subset _)
    · exact h
  | serve candidate theme => exact h.serve candidate theme htimely
  | receive => exact h.receive
  | fail => exact h.unanswered rfl s.client (List.Subset.refl _) (List.Subset.refl _)

/-- In every interleaving in which the events are timely, the refresh keeps what they have
brought. -/
theorem refresh_keeps_events (bufferMaxLines : Int) (run : List RefreshStep)
    (hrun : Meets System.step Timely (start bufferMaxLines) run) :
    Along System.step (fun s l s' => s.updates l = true → Kept s s') (start bufferMaxLines)
      run := by
  refine hrun.along (fun _ _ h hl => h.step hl) ?_ (inv_start bufferMaxLines)
  intro s l h _ hupdates
  cases l with
  | receive =>
    cases hrefresh : s.refresh with
    | systemRead c f systemLines => exact h.kept hrefresh
    | _ => simp [updates, hrefresh] at hupdates
  | _ => cases hrefresh : s.refresh <;> simp [updates, hrefresh] at hupdates

def tabOf (id : TabID) : AndroidTab := ⟨id, some .idle⟩

/-- The client has two tabs, the first of which is active, and begins to refresh. -/
def twoTabs : List RefreshStep :=
  [.call (.createTab (tabOf (lit "1"))), .call (.createTab (tabOf (lit "2"))), .handle 0, .handle 0,
    .begin]

/-- Output of the other tab before the first answer, and of the active one before the second. -/
def timelyRun : List RefreshStep :=
  twoTabs ++ [.call (.appendOutput (lit "2") [lit "x"]), .handle 0, .serve none none, .receive,
    .call (.appendOutput (lit "1") [lit "y"]), .handle 0, .serve none none, .receive,
    .serve none none, .receive]

theorem refresh_keeps_events_timely :
    Meets System.step Timely (start 5000) timelyRun ∧
      (exec System.step (start 5000) timelyRun).client.buffers (lit "1") = some [(lit "y", 0)] ∧
      (exec System.step (start 5000) timelyRun).client.buffers (lit "2") = some [(lit "x", 0)] ∧
      Along System.step (fun s l s' => s.updates l = true → Kept s s') (start 5000) timelyRun := by
  have hrun : Meets System.step Timely (start 5000) timelyRun := by decide
  exact ⟨hrun, by decide, by decide, refresh_keeps_events 5000 timelyRun hrun⟩

/-- Output of the other tab after the copy. -/
def otherTabRun : List RefreshStep :=
  twoTabs ++ [.serve none none, .receive, .call (.appendOutput (lit "2") [lit "x"]), .handle 0,
    .serve none none, .receive, .serve none none]

/-- Output of the active tab after its buffer was served. -/
def activeTabRun : List RefreshStep :=
  twoTabs ++ [.serve none none, .receive, .serve none none,
    .call (.appendOutput (lit "1") [lit "y"]), .handle 0, .receive, .serve none none]

/-- A tab is created and another one closed after the tabs were served. -/
def tabsRun : List RefreshStep :=
  twoTabs ++ [.serve none none, .call (.createTab (tabOf (lit "3"))), .call (.closeTab (lit "1")),
    .handle 0, .handle 0, .receive, .serve none none, .receive, .serve none none]

theorem refresh_loses_events :
    (∃ s, s = exec System.step (start 5000) otherTabRun ∧ s.updates .receive = true ∧
      ¬ Kept s (s.step .receive)) ∧
    (∃ s, s = exec System.step (start 5000) activeTabRun ∧ s.updates .receive = true ∧
      ¬ Kept s (s.step .receive)) ∧
    ∃ s, s = exec System.step (start 5000) tabsRun ∧ s.updates .receive = true ∧
      lit "3" ∈ s.opened ∧ lit "3" ∉ (s.step .receive).client.tabs.map AndroidTab.id ∧
      lit "1" ∈ s.shut ∧ lit "1" ∈ (s.step .receive).client.tabs.map AndroidTab.id ∧
      ¬ Kept s (s.step .receive) := by
  refine ⟨⟨_, rfl, by decide, fun h => ?_⟩, ⟨_, rfl, by decide, fun h => ?_⟩,
    _, rfl, by decide, by decide, by decide, by decide, by decide, fun h => ?_⟩
  · have hline := h.lines (lit "2") (lit "x", 0) (by decide) (by decide)
    exact absurd hline (by decide)
  · have hline := h.lines (lit "1") (lit "y", 0) (by decide) (by decide)
    exact absurd hline (by decide)
  · exact h.shut (lit "1") (by decide) (by decide)

end System

end Centaurx.AndroidRefresh
