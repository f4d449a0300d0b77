import Mathlib.Data.List.Perm.Basic
import Mathlib.Logic.Function.Basic

namespace Centaurx.Fanout
open List Function

/-- A buffered channel. -/
structure Chan (ε : Type) where
  buf : List ε := []
  closed : Bool := false
  deriving DecidableEq

/-- A sender at work: its event and the channels it has not come to yet. -/
structure Cast (ε : Type) where
  event : ε
  targets : List ℕ
  deriving DecidableEq

/-- Channels are numbered in the order in which they are made; the subscribers of a key are not
ordered by anything. -/
structure State (κ ε : Type) where
  chans : List (Chan ε) := []
  subs : κ → List ℕ := fun _ => []
  /-- Off the list, but not closed yet. -/
  leaving : List ℕ := []
  casts : List (Cast ε) := []
  panicked : Bool := false

/-- A channel with room for `cap` events takes one. -/
def Chan.offer {ε : Type} (cap : ℕ) (ch : Chan ε) (e : ε) : Chan ε :=
  if ch.buf.length < cap then { ch with buf := ch.buf ++ [e] } else ch

namespace State

variable {κ ε : Type} (s : State κ ε)

def subscribe [DecidableEq κ] (k : κ) : State κ ε :=
  { s with
    chans := s.chans ++ [{}]
    subs := update s.subs k (s.subs k ++ [s.chans.length]) }

/-- A sender copies the subscribers, in any order. -/
def cast (k : κ) (e : ε) (order : List ℕ) : State κ ε :=
  if order.Perm (s.subs k) then { s with casts := s.casts ++ [⟨e, order⟩] } else s

/-- The sender comes to its next channel. -/
def send (cap i : ℕ) : State κ ε :=
  match s.casts[i]? with
  | none => s
  | some ⟨e, targets⟩ =>
    match targets with
    | [] => s
    | c :: targets =>
      let s := { s with casts := s.casts.set i ⟨e, targets⟩ }
      match s.chans[c]? with
      | none => s
      | some ch =>
        if ch.closed then { s with panicked := true }
        else { s with chans := s.chans.set c (ch.offer cap e) }

/-- The subscriber takes an event out of its channel. -/
def receive (c : ℕ) : State κ ε :=
  match s.chans[c]? with
  | none => s
  | some ch => { s with chans := s.chans.set c { ch with buf := ch.buf.tail } }

/-- The channel is taken off the list, if it is there. -/
def leave [DecidableEq κ] (k : κ) (c : ℕ) : State κ ε :=
  if c ∈ s.subs k then
    { s with
      subs := update s.subs k ((s.subs k).erase c)
      leaving := s.leaving ++ [c] }
  else s

/-- A channel that is off the list is closed, once. -/
def close (c : ℕ) : State κ ε :=
  if c ∈ s.leaving then
    match s.chans[c]? with
    | none => s
    | some ch =>
      { s with
        chans := s.chans.set c { ch with closed := true }
        leaving := s.leaving.erase c }
  else s

/-- Some sender has still to come to the channel. -/
def Targeted (c : ℕ) : Prop := ∃ p ∈ s.casts, c ∈ p.targets

instance (c : ℕ) : Decidable (s.Targeted c) :=
  inferInstanceAs (Decidable (∃ p ∈ s.casts, c ∈ p.targets))

def Open (c : ℕ) : Prop := ∃ ch, s.chans[c]? = some ch ∧ ch.closed = false

/-- Channels that may be sent to are open. A channel is on at most one list, and is not on its
way out then. -/
structure Sound : Prop where
  subs_open : ∀ k, ∀ c ∈ s.subs k, s.Open c
  targets_open : ∀ c, s.Targeted c → s.Open c
  nodup : ∀ k, (s.subs k).Nodup
  owner : ∀ k k' c, c ∈ s.subs k → c ∈ s.subs k' → k = k'
  leaving_off : ∀ c ∈ s.leaving, ∀ k, c ∉ s.subs k
  leaving_lt : ∀ c ∈ s.leaving, c < s.chans.length
  calm : s.panicked = false

variable {s}

theorem Open.lt {c : ℕ} (h : s.Open c) : c < s.chans.length := by
  obtain ⟨ch, hch, -⟩ := h
  exact (List.getElem?_eq_some_iff.mp hch).1

theorem Open.set {t : State κ ε} {c d : ℕ} {ch ch' : Chan ε} (h : s.Open c)
    (hd : s.chans[d]? = some ch) (ht : t.chans = s.chans.set d ch')
    (hclosed : c = d → ch.closed = false → ch'.closed = false) : t.Open c := by
  obtain ⟨ch₀, hch₀, hopen⟩ := h
  have hlt := (List.getElem?_eq_some_iff.mp hch₀).1
  by_cases hcd : c = d
  · subst hcd
    have : ch₀ = ch := Option.some.inj (hch₀.symm.trans hd)
    subst this
    exact ⟨ch', by rw [ht]; simp [hlt], hclosed rfl hopen⟩
  · exact ⟨ch₀, by rw [ht, getElem?_set_ne (Ne.symm hcd)]; exact hch₀, hopen⟩

theorem sound_new : (({} : State κ ε)).Sound :=
  ⟨by simp, fun c ⟨p, hp, _⟩ => by simp at hp, by simp, by simp, by simp,
    by simp, rfl⟩

theorem Targeted.of_subset {t : State κ ε} {c : ℕ}
    (h : ∀ p ∈ t.casts, ∃ q ∈ s.casts, p.targets ⊆ q.targets) (ht : t.Targeted c) :
    s.Targeted c := by
  obtain ⟨p, hp, hc⟩ := ht
  obtain ⟨q, hq, hpq⟩ := h p hp
  exact ⟨q, hq, hpq hc⟩

theorem Sound.cast (h : s.Sound) (k : κ) (e : ε) (order : List ℕ) : (s.cast k e order).Sound := by
  rw [State.cast]
  split
  · rename_i horder
    refine ⟨h.subs_open, fun c hc => ?_, h.nodup, h.owner, h.leaving_off, h.leaving_lt,
      h.calm⟩
    obtain ⟨p, hp, hcp⟩ := hc
    rcases mem_append.mp hp with hp | hp
    · exact h.targets_open c ⟨p, hp, hcp⟩
    · rw [mem_singleton.mp hp] at hcp
      exact h.subs_open k c (horder.mem_iff.mp hcp)
  · exact h

section Key

variable [DecidableEq κ]

theorem mem_subscribe {k k' : κ} {c : ℕ} (h : c ∈ (s.subscribe k).subs k') :
    c ∈ s.subs k' ∨ (k' = k ∧ c = s.chans.length) := by
  by_cases hk : k' = k
  · subst hk
    simpa [State.subscribe] using h
  · exact .inl (by simpa [State.subscribe, hk] using h)

theorem nodup_subscribe {k : κ} (h : ∀ k', (s.subs k').Nodup)
    (hfresh : ∀ k', s.chans.length ∉ s.subs k') (k' : κ) : ((s.subscribe k).subs k').Nodup := by
  by_cases hk : k' = k
  · subst hk
    simpa [State.subscribe, nodup_append] using ⟨h k', fun c hc heq => hfresh k' (heq ▸ hc)⟩
  · simpa [State.subscribe, hk] using h k'

theorem owner_subscribe {k : κ} (h : ∀ k k' c, c ∈ s.subs k → c ∈ s.subs k' → k = k')
    (hfresh : ∀ k', s.chans.length ∉ s.subs k') {k₁ k₂ : κ} {c : ℕ}
    (h₁ : c ∈ (s.subscribe k).subs k₁) (h₂ : c ∈ (s.subscribe k).subs k₂) : k₁ = k₂ := by
  rcases mem_subscribe h₁ with h₁ | ⟨rfl, rfl⟩
  · rcases mem_subscribe h₂ with h₂ | ⟨-, rfl⟩
    · exact h k₁ k₂ c h₁ h₂
    · exact absurd h₁ (hfresh k₁)
  · rcases mem_subscribe h₂ with h₂ | ⟨rfl, -⟩
    · exact absurd h₂ (hfresh k₂)
    · rfl

theorem Sound.subscribe (h : s.Sound) (k : κ) : (s.subscribe k).Sound := by
  have hkeep : ∀ c, s.Open c → (s.subscribe k).Open c := by
    rintro c ⟨ch, hch, hopen⟩
    refine ⟨ch, ?_, hopen⟩
    rw [State.subscribe, getElem?_append_left (List.getElem?_eq_some_iff.mp hch).1]
    exact hch
  have hnew : (s.subscribe k).Open s.chans.length := ⟨{}, by simp [State.subscribe], rfl⟩
  have hfresh : ∀ k', s.chans.length ∉ s.subs k' := fun k' hmem =>
    absurd (h.subs_open k' _ hmem).lt (Nat.lt_irrefl _)
  refine ⟨fun k' c hc => ?_, fun c hc => hkeep c (h.targets_open c hc),
    nodup_subscribe h.nodup hfresh, fun k₁ k₂ c h₁ h₂ => owner_subscribe h.owner hfresh h₁ h₂,
    fun c hc k' hmem => ?_, fun c hc => ?_, h.calm⟩
  · rcases mem_subscribe hc with hc | ⟨-, rfl⟩
    · exact hkeep c (h.subs_open k' c hc)
    · exact hnew
  · rcases mem_subscribe hmem with hmem | ⟨-, rfl⟩
    · exact h.leaving_off c hc k' hmem
    · exact absurd (h.leaving_lt _ hc) (Nat.lt_irrefl _)
  · have := h.leaving_lt c hc
    simp only [State.subscribe, length_append, length_singleton]
    omega

theorem Sound.leave (h : s.Sound) (k : κ) (c : ℕ) : (s.leave k c).Sound := by
  rw [State.leave]
  split
  · rename_i hc
    have hmem : ∀ {k' d}, d ∈ update s.subs k ((s.subs k).erase c) k' →
        d ∈ s.subs k' := by
      intro k' d hd
      by_cases hk : k' = k
      · subst hk
        exact mem_of_mem_erase (by simpa using hd)
      · simpa [hk] using hd
    refine ⟨fun k' d hd => h.subs_open k' d (hmem hd), h.targets_open, fun k' => ?_,
      fun k₁ k₂ d h₁ h₂ => h.owner k₁ k₂ d (hmem h₁) (hmem h₂), fun d hd k' hd' => ?_,
      fun d hd => ?_, h.calm⟩
    · by_cases hk : k' = k
      · subst hk
        simpa using (h.nodup k').erase c
      · simpa [hk] using h.nodup k'
    · rcases mem_append.mp hd with hd | hd
      · exact h.leaving_off d hd k' (hmem hd')
      · obtain rfl := mem_singleton.mp hd
        obtain rfl := h.owner k' k d (hmem hd') hc
        exact (h.nodup k').not_mem_erase (by simpa using hd')
    · rcases mem_append.mp hd with hd | hd
      · exact h.leaving_lt d hd
      · obtain rfl := mem_singleton.mp hd
        exact (h.subs_open k d hc).lt
  · exact h

end Key

theorem Sound.receive (h : s.Sound) (c : ℕ) : (s.receive c).Sound := by
  rw [State.receive]
  split
  · exact h
  · rename_i ch hch
    exact ⟨fun k d hd => (h.subs_open k d hd).set hch rfl fun _ hopen => hopen,
      fun d hd => (h.targets_open d hd).set hch rfl fun _ hopen => hopen,
      h.nodup, h.owner, h.leaving_off, fun d hd => by simpa using h.leaving_lt d hd, h.calm⟩

/-- A sender never comes to a closed channel. -/
theorem Sound.send (h : s.Sound) (cap i : ℕ) : (s.send cap i).Sound := by
  rw [State.send]
  split
  · exact h
  · rename_i e targets hi
    split
    · exact h
    · rename_i c targets
      have hsub : ∀ d, { s with casts := s.casts.set i ⟨e, targets⟩ }.Targeted d →
          s.Targeted d := by
        refine fun d hd => Targeted.of_subset (fun p hp => ?_) hd
        rcases mem_or_eq_of_mem_set hp with hp | rfl
        · exact ⟨p, hp, List.Subset.refl _⟩
        · exact ⟨_, mem_of_getElem? hi, subset_cons_self _ _⟩
      obtain ⟨ch, hch, hopen⟩ :=
        h.targets_open c ⟨_, mem_of_getElem? hi, mem_cons_self⟩
      have hoffer : (ch.offer cap e).closed = false := by
        rw [Chan.offer]
        split
        · exact hopen
        · exact hopen
      simp only [hch, hopen]
      exact ⟨fun k d hd => (h.subs_open k d hd).set hch rfl fun _ _ => hoffer,
        fun d hd => (h.targets_open d (hsub d hd)).set hch rfl fun _ _ => hoffer,
        h.nodup, h.owner, h.leaving_off, fun d hd => by simpa using h.leaving_lt d hd, h.calm⟩

/-- A channel may be closed when no sender has still to come to it. -/
theorem Sound.close (h : s.Sound) {c : ℕ} (hc : ¬s.Targeted c) : (s.close c).Sound := by
  rw [State.close]
  split
  · rename_i hleaving
    split
    · exact h
    · rename_i ch hch
      refine ⟨fun k d hd => (h.subs_open k d hd).set hch rfl fun hdc => ?_,
        fun d hd => (h.targets_open d hd).set hch rfl fun hdc => ?_, h.nodup, h.owner,
        fun d hd => h.leaving_off d (mem_of_mem_erase hd),
        fun d hd => by simpa using h.leaving_lt d (mem_of_mem_erase hd), h.calm⟩
      · subst hdc
        exact absurd hd (h.leaving_off d hleaving k)
      · subst hdc
        exact absurd hd hc
  · exact h

section Order

variable (s)

/-- The events that wait in a channel. -/
def buf (c : ℕ) : List ε :=
  match s.chans[c]? with
  | none => []
  | some ch => ch.buf

/-- The sender at `i` overtakes nobody on its next channel. -/
def InTurn (rank : ε → ℕ) (i : ℕ) : Prop :=
  ∀ p ∈ s.casts[i]?, ∀ c ∈ p.targets.head?, ∀ q ∈ s.casts, c ∈ q.targets →
    rank p.event ≤ rank q.event

instance (rank : ε → ℕ) (i : ℕ) : Decidable (s.InTurn rank i) :=
  inferInstanceAs (Decidable (∀ p ∈ s.casts[i]?, ∀ c ∈ p.targets.head?, ∀ q ∈ s.casts,
    c ∈ q.targets → rank p.event ≤ rank q.event))

/-- Events of one key are cast with growing ranks, up to `top`; what a channel has given out, what
waits in it and what is still to be sent to it come in this order. -/
structure InOrder (rank : ε → ℕ) (top : κ → ℕ) (received : ℕ → List ε) : Prop where
  subs_lt : ∀ k, ∀ c ∈ s.subs k, c < s.chans.length
  targets_lt : ∀ p ∈ s.casts, ∀ c ∈ p.targets, c < s.chans.length
  received_lt : ∀ c, received c ≠ [] → c < s.chans.length
  nodup : ∀ k, (s.subs k).Nodup
  owner : ∀ k k' c, c ∈ s.subs k → c ∈ s.subs k' → k = k'
  targets_nodup : ∀ p ∈ s.casts, p.targets.Nodup
  cast_le : ∀ k, ∀ c ∈ s.subs k, ∀ p ∈ s.casts, c ∈ p.targets → rank p.event ≤ top k
  lane_le : ∀ k, ∀ c ∈ s.subs k, ∀ e ∈ received c ++ s.buf c, rank e ≤ top k
  lane_lt : ∀ p ∈ s.casts, ∀ c ∈ p.targets, ∀ e ∈ received c ++ s.buf c, rank e < rank p.event
  casts_lt : ∀ (i j : ℕ) (p q : Cast ε), i < j → s.casts[i]? = some p → s.casts[j]? = some q →
    ∀ c ∈ p.targets, c ∈ q.targets → rank p.event < rank q.event
  increasing : ∀ c, (received c ++ s.buf c).Pairwise fun e e' => rank e < rank e'

variable {s} {rank : ε → ℕ} {top : κ → ℕ} {received : ℕ → List ε}

theorem inOrder_new : (({} : State κ ε)).InOrder rank top fun _ => [] :=
  ⟨by simp, by simp, by simp, by simp, by simp, by simp, by simp, by simp, by simp, by simp,
    by simp [buf]⟩

theorem buf_eq_nil {c : ℕ} (h : s.chans.length ≤ c) : s.buf c = [] := by
  rw [buf, getElem?_eq_none h]

variable {t : State κ ε}

theorem buf_congr (h : t.chans = s.chans) (c : ℕ) : t.buf c = s.buf c := by
  rw [buf, buf, h]

theorem buf_set {c d : ℕ} {ch : Chan ε} (hd : d < s.chans.length) (h : t.chans = s.chans.set d ch) :
    t.buf c = if c = d then ch.buf else s.buf c := by
  rw [buf, h]
  split_ifs with hcd
  · subst hcd
    simp [hd]
  · rw [getElem?_set_ne (Ne.symm hcd)]
    rfl

theorem InOrder.cast [DecidableEq κ] (h : s.InOrder rank top received) (k : κ) {e : ε}
    {order : List ℕ} (horder : order.Perm (s.subs k)) {n : ℕ} (hn : top k < n) (he : rank e = n) :
    (s.cast k e order).InOrder rank (update top k n) received := by
  have htop : ∀ k', top k' ≤ update top k n k' := by
    intro k'
    by_cases hk : k' = k
    · subst hk
      simpa using Nat.le_of_lt hn
    · simp [hk]
  rw [State.cast, if_pos horder]
  have hmem : ∀ {p : Cast ε}, p ∈ s.casts ++ [⟨e, order⟩] → p ∈ s.casts ∨ p = ⟨e, order⟩ := by
    intro p hp
    simpa using hp
  refine ⟨h.subs_lt, fun p hp c hc => ?_, h.received_lt, h.nodup, h.owner, fun p hp => ?_,
    fun k' c hc p hp hcp => ?_,
    fun k' c hc e' he' => Nat.le_trans (h.lane_le k' c hc e' he') (htop k'),
    fun p hp c hc e' he' => ?_, fun i j p q hij hi hj c hp hq => ?_, h.increasing⟩
  · rcases hmem hp with hp | rfl
    · exact h.targets_lt p hp c hc
    · exact h.subs_lt k c (horder.mem_iff.mp hc)
  · rcases hmem hp with hp | rfl
    · exact h.targets_nodup p hp
    · exact horder.nodup_iff.mpr (h.nodup k)
  · rcases hmem hp with hp | rfl
    · exact Nat.le_trans (h.cast_le k' c hc p hp hcp) (htop k')
    · obtain rfl := h.owner k' k c hc (horder.mem_iff.mp hcp)
      simpa using Nat.le_of_eq he
  · rcases hmem hp with hp | rfl
    · exact h.lane_lt p hp c hc e' he'
    · have := h.lane_le k c (horder.mem_iff.mp hc) e' he'
      dsimp only
      omega
  · have hi' : s.casts[i]? = some p := by
      have hlen : j < (s.casts ++ [(⟨e, order⟩ : Cast ε)]).length :=
        (List.getElem?_eq_some_iff.mp hj).1
      rw [length_append, length_singleton] at hlen
      rwa [getElem?_append_left (by omega)] at hi
    by_cases hlast : j < s.casts.length
    · rw [getElem?_append_left hlast] at hj
      exact h.casts_lt i j p q hij hi' hj c hp hq
    · -- the newest event is greater than all that go to its channels
      rw [getElem?_append_right (by omega)] at hj
      obtain rfl := mem_singleton.mp (mem_of_getElem? hj)
      have := h.cast_le k c (horder.mem_iff.mp hq) p (mem_of_getElem? hi') hp
      dsimp only
      omega

/-- Nothing that matters for the order has changed but the list of subscribers, which has shrunk,
and how much of a lane is received. -/
theorem InOrder.of_lanes {received' : ℕ → List ε} (h : s.InOrder rank top received)
    (hcasts : t.casts = s.casts) (hlen : t.chans.length = s.chans.length)
    (hlane : ∀ c, received' c ++ t.buf c = received c ++ s.buf c)
    (hsubs : ∀ k, (t.subs k).Sublist (s.subs k)) : t.InOrder rank top received' := by
  refine ⟨fun k c hc => ?_, ?_, fun c hc => ?_, fun k => (h.nodup k).sublist (hsubs k),
    fun k k' c hc hc' => h.owner k k' c ((hsubs k).subset hc) ((hsubs k').subset hc'), ?_,
    fun k c hc p hp => ?_, fun k c hc => ?_, ?_, ?_, fun c => ?_⟩
  · rw [hlen]
    exact h.subs_lt k c ((hsubs k).subset hc)
  · rw [hcasts, hlen]
    exact h.targets_lt
  · rw [hlen]
    by_contra hge
    have hold : received c = [] := by
      by_contra hne
      exact hge (h.received_lt c hne)
    have hl := hlane c
    rw [hold, buf_eq_nil (Nat.le_of_not_lt hge), append_nil] at hl
    exact hc (append_eq_nil_iff.mp hl).1
  · rw [hcasts]
    exact h.targets_nodup
  · rw [hcasts] at hp
    exact h.cast_le k c ((hsubs k).subset hc) p hp
  · rw [hlane]
    exact h.lane_le k c ((hsubs k).subset hc)
  · rw [hcasts]
    simpa only [hlane] using h.lane_lt
  · rw [hcasts]
    exact h.casts_lt
  · rw [hlane]
    exact h.increasing c

theorem InOrder.leave [DecidableEq κ] (h : s.InOrder rank top received) (k : κ) (c : ℕ) :
    (s.leave k c).InOrder rank top received := by
  rw [State.leave]
  split
  · refine h.of_lanes rfl rfl (fun _ => rfl) fun k' => ?_
    by_cases hk : k' = k
    · subst hk
      simpa using erase_sublist
    · simp [hk]
  · exact h

theorem InOrder.close (h : s.InOrder rank top received) (c : ℕ) :
    (s.close c).InOrder rank top received := by
  rw [State.close]
  split
  · split
    · exact h
    · rename_i ch hch
      have hlt := (List.getElem?_eq_some_iff.mp hch).1
      refine h.of_lanes rfl (by simp) (fun d => congrArg _ ?_) fun k => List.Sublist.refl _
      rw [buf_set hlt rfl]
      split_ifs with hd
      · rw [hd, buf, hch]
      · rfl
  · exact h

theorem buf_subscribe [DecidableEq κ] (k : κ) (c : ℕ) : (s.subscribe k).buf c = s.buf c := by
  by_cases hc : c < s.chans.length
  · rw [buf, buf, State.subscribe, getElem?_append_left hc]
  · have hnil : s.buf c = [] := buf_eq_nil (by omega)
    rw [hnil, buf]
    simp only [State.subscribe]
    rw [getElem?_append_right (by omega)]
    cases c - s.chans.length with
    | zero | succ n => rfl

theorem InOrder.subscribe [DecidableEq κ] (h : s.InOrder rank top received) (k : κ) :
    (s.subscribe k).InOrder rank top received := by
  have hlen : (s.subscribe k).chans.length = s.chans.length + 1 := by simp [State.subscribe]
  have hfresh : ∀ k', s.chans.length ∉ s.subs k' := fun k' hmem =>
    absurd (h.subs_lt k' _ hmem) (Nat.lt_irrefl _)
  refine ⟨fun k' c hc => ?_, fun p hp c hc => ?_, fun c hc => ?_,
    nodup_subscribe h.nodup hfresh, fun k₁ k₂ c h₁ h₂ => owner_subscribe h.owner hfresh h₁ h₂,
    h.targets_nodup, fun k' c hc p hp hcp => ?_, fun k' c hc e he => ?_, fun p hp c hc => ?_,
    h.casts_lt, fun c => ?_⟩
  · rw [hlen]
    rcases mem_subscribe hc with hc | ⟨-, rfl⟩
    · have := h.subs_lt k' c hc
      omega
    · omega
  · have := h.targets_lt p hp c hc
    omega
  · have := h.received_lt c hc
    omega
  · rcases mem_subscribe hc with hc | ⟨-, rfl⟩
    · exact h.cast_le k' c hc p hp hcp
    · exact absurd (h.targets_lt p hp _ hcp) (Nat.lt_irrefl _)
  · rw [buf_subscribe] at he
    rcases mem_subscribe hc with hc | ⟨-, rfl⟩
    · exact h.lane_le k' c hc e he
    · -- a new channel is empty
      rw [buf_eq_nil (Nat.le_refl _), append_nil] at he
      exact absurd (h.received_lt _ (ne_nil_of_mem he)) (Nat.lt_irrefl _)
  · rw [buf_subscribe]
    exact h.lane_lt p hp c hc
  · rw [buf_subscribe]
    exact h.increasing c

theorem lane_receive (c d : ℕ) :
    update received c (received c ++ (s.buf c).head?.toList) d ++ (s.receive c).buf d =
      received d ++ s.buf d := by
  cases hch : s.chans[c]? with
  | none =>
    have hrec : s.receive c = s := by rw [State.receive, hch]
    have hnil : s.buf c = [] := by rw [buf, hch]
    by_cases hd : d = c
    · subst hd
      simp [hrec, hnil]
    · simp [hrec, hd]
  | some ch =>
    have hlt := (List.getElem?_eq_some_iff.mp hch).1
    have hrec : (s.receive c).chans = s.chans.set c { ch with buf := ch.buf.tail } := by
      rw [State.receive, hch]
    have hbuf : s.buf c = ch.buf := by rw [buf, hch]
    rw [buf_set hlt hrec]
    by_cases hd : d = c
    · subst hd
      rw [if_pos rfl, update_self, hbuf, append_assoc]
      congr 1
      cases ch.buf <;> rfl
    · rw [if_neg hd, update_of_ne hd]

theorem InOrder.receive (h : s.InOrder rank top received) (c : ℕ) :
    (s.receive c).InOrder rank top
      (update received c (received c ++ (s.buf c).head?.toList)) := by
  refine h.of_lanes ?_ ?_ (lane_receive c) fun k => ?_
  · rw [State.receive]
    split <;> rfl
  · rw [State.receive]
    split
    · rfl
    · exact length_set
  · rw [State.receive]
    split <;> exact List.Sublist.refl _

theorem InOrder.of_casts (h : s.InOrder rank top received) (hchans : t.chans = s.chans)
    (hsubs : t.subs = s.subs)
    (hcasts : ∀ (j : ℕ) (p : Cast ε), t.casts[j]? = some p →
      ∃ q, s.casts[j]? = some q ∧ q.event = p.event ∧ p.targets.Sublist q.targets)
    :
    t.InOrder rank top received := by
  have hmem : ∀ p ∈ t.casts, ∃ q ∈ s.casts, q.event = p.event ∧ p.targets.Sublist q.targets := by
    intro p hp
    obtain ⟨j, hj⟩ := mem_iff_getElem?.mp hp
    obtain ⟨q, hq, hsame⟩ := hcasts j p hj
    exact ⟨q, mem_of_getElem? hq, hsame⟩
  refine ⟨?_, fun p hp c hc => ?_, ?_, ?_, ?_, fun p hp => ?_, fun k c hc p hp hcp => ?_,
    fun k c hc => ?_, fun p hp c hc => ?_, fun i j p q hij hi hj c hp hq => ?_, fun c => ?_⟩
  · rw [hsubs, hchans]
    exact h.subs_lt
  · obtain ⟨q, hq, -, hsub⟩ := hmem p hp
    rw [hchans]
    exact h.targets_lt q hq c (hsub.subset hc)
  · rw [hchans]
    exact h.received_lt
  · rw [hsubs]
    exact h.nodup
  · rw [hsubs]
    exact h.owner
  · obtain ⟨q, hq, -, hsub⟩ := hmem p hp
    exact (h.targets_nodup q hq).sublist hsub
  · obtain ⟨q, hq, heq, hsub⟩ := hmem p hp
    rw [hsubs] at hc
    rw [← heq]
    exact h.cast_le k c hc q hq (hsub.subset hcp)
  · rw [buf_congr hchans]
    rw [hsubs] at hc
    exact h.lane_le k c hc
  · obtain ⟨q, hq, heq, hsub⟩ := hmem p hp
    rw [buf_congr hchans, ← heq]
    exact h.lane_lt q hq c (hsub.subset hc)
  · obtain ⟨p', hp', heq, hsub⟩ := hcasts i p hi
    obtain ⟨q', hq', heq', hsub'⟩ := hcasts j q hj
    rw [← heq, ← heq']
    exact h.casts_lt i j p' q' hij hp' hq' c (hsub.subset hp) (hsub'.subset hq)
  · rw [buf_congr hchans]
    exact h.increasing c

/-- An event that comes after all in the channel and before all that are still to come. -/
theorem InOrder.offer (h : s.InOrder rank top received) {cap c : ℕ} {ch : Chan ε} {e : ε}
    (hch : s.chans[c]? = some ch) (hlane : ∀ e' ∈ received c ++ s.buf c, rank e' < rank e)
    (hcasts : ∀ p ∈ s.casts, c ∈ p.targets → rank e < rank p.event)
    (htop : ∀ k, c ∈ s.subs k → rank e ≤ top k) :
    { s with chans := s.chans.set c (ch.offer cap e) }.InOrder rank top received := by
  have hlt := (List.getElem?_eq_some_iff.mp hch).1
  have hlen : (s.chans.set c (ch.offer cap e)).length = s.chans.length := length_set
  have hbuf : s.buf c = ch.buf := by rw [buf, hch]
  -- the channel takes the event at its end, or it is full and nothing changes
  have hoffer : (ch.offer cap e).buf = s.buf c ∨ (ch.offer cap e).buf = s.buf c ++ [e] := by
    rw [Chan.offer, hbuf]
    split
    · exact .inr rfl
    · exact .inl rfl
  have hnew : ∀ d, State.buf { s with chans := s.chans.set c (ch.offer cap e) } d = s.buf d ∨
      (d = c ∧ State.buf { s with chans := s.chans.set c (ch.offer cap e) } d =
        s.buf c ++ [e]) := by
    intro d
    rw [buf_set hlt rfl]
    by_cases hd : d = c
    · subst hd
      rw [if_pos rfl]
      exact hoffer.imp_right fun ho => ⟨rfl, ho⟩
    · rw [if_neg hd]
      exact .inl rfl
  refine ⟨fun k d hd => ?_, fun p hp d hd => ?_, fun d hd => ?_, h.nodup, h.owner, h.targets_nodup,
    h.cast_le, fun k d hd e' he' => ?_, fun p hp d hd e' he' => ?_, h.casts_lt, fun d => ?_⟩
  · exact Nat.lt_of_lt_of_eq (h.subs_lt k d hd) hlen.symm
  · exact Nat.lt_of_lt_of_eq (h.targets_lt p hp d hd) hlen.symm
  · exact Nat.lt_of_lt_of_eq (h.received_lt d hd) hlen.symm
  · rcases hnew d with hb | ⟨rfl, hb⟩
    · rw [hb] at he'
      exact h.lane_le k d hd e' he'
    · rw [hb, ← append_assoc, mem_append, mem_singleton] at he'
      rcases he' with he' | rfl
      · exact h.lane_le k d hd e' he'
      · exact htop k hd
  · rcases hnew d with hb | ⟨rfl, hb⟩
    · rw [hb] at he'
      exact h.lane_lt p hp d hd e' he'
    · rw [hb, ← append_assoc, mem_append, mem_singleton] at he'
      rcases he' with he' | rfl
      · exact h.lane_lt p hp d hd e' he'
      · exact hcasts p hp hd
  · rcases hnew d with hb | ⟨rfl, hb⟩
    · rw [hb]
      exact h.increasing d
    · rw [hb, ← append_assoc, pairwise_append]
      refine ⟨h.increasing d, pairwise_singleton _ _, fun e' he' e'' he'' => ?_⟩
      rw [mem_singleton.mp he'']
      exact hlane e' he'

theorem InOrder.send (h : s.InOrder rank top received) (cap : ℕ) {i : ℕ} (hi : s.InTurn rank i) :
    (s.send cap i).InOrder rank top received := by
  rw [State.send]
  split
  · exact h
  · rename_i e targets hcast
    split
    · exact h
    · rename_i c targets
      have hadvance : { s with casts := s.casts.set i ⟨e, targets⟩ }.InOrder rank top received := by
        refine h.of_casts rfl rfl fun j p hj => ?_
        rw [getElem?_set] at hj
        split_ifs at hj with hij
        · subst hij
          obtain rfl := Option.some.inj hj
          exact ⟨_, hcast, rfl, sublist_cons_self _ _⟩
        · exact ⟨p, hj, rfl, List.Sublist.refl _⟩
      have hmem := mem_of_getElem? hcast
      have hlater : ∀ p ∈ s.casts.set i ⟨e, targets⟩, c ∈ p.targets → rank e < rank p.event := by
        intro p hp hcp
        obtain ⟨j, hj⟩ := mem_iff_getElem?.mp hp
        rw [getElem?_set] at hj
        split_ifs at hj with hij
        · -- the sender itself does not come twice
          obtain rfl := Option.some.inj hj
          exact absurd hcp (nodup_cons.mp (h.targets_nodup _ hmem)).1
        · have hle := hi _ hcast c rfl p (mem_of_getElem? hj) hcp
          rcases Nat.lt_or_gt_of_ne hij with hlt | hlt
          · exact h.casts_lt i j _ p hlt hcast hj c mem_cons_self hcp
          · have := h.casts_lt j i p _ hlt hj hcast c hcp mem_cons_self
            dsimp only at hle this
            omega
      dsimp only
      split
      · exact hadvance
      · rename_i ch hch
        split
        · exact hadvance.of_lanes rfl rfl (fun _ => rfl) fun _ => List.Sublist.refl _
        · exact hadvance.offer hch (h.lane_lt _ hmem c mem_cons_self) hlater
            fun k hk => h.cast_le k c hk _ hmem mem_cons_self

end Order

end State

end Centaurx.Fanout
