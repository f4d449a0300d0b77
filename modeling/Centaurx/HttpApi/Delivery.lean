import Centaurx.Broadcast
import Centaurx.Lib.Newest

namespace Centaurx
open Go Runs Fanout Newest List Function

structure TracedHub where
  hub : Hub := {}
  published : UserID → List StreamEvent := fun _ => []
  received : ℕ → List StreamEvent := fun _ => []

namespace TracedHub

def step (historySize : ℕ) (t : TracedHub) (op : HubStep) : TracedHub :=
  let hub := t.hub.step historySize op
  match op with
  | .publish user body order =>
    if order.Perm (t.hub.fan.subs user) then
      { t with
        hub := hub
        published := update t.published user
          (t.published user ++ [(t.hub.users user).stamp body]) }
    else { t with hub := hub }
  | .receive c =>
    { t with
      hub := hub
      received := update t.received c
        (t.received c ++ (t.hub.fan.buf c).head?.toList) }
  | .subscribe _ | .send _ | .unsubscribe .. => { t with hub := hub }

theorem step_hub (historySize : ℕ) (t : TracedHub) (op : HubStep) :
    (t.step historySize op).hub = t.hub.step historySize op := by
  cases op with
  | publish user body order =>
    simp only [step]
    split <;> rfl
  | subscribe user | send i | receive c | unsubscribe user c => rfl

/-- A call of `publish` does not overtake another one on a channel, and the numbers do not start
again. -/
def InTurn (t : TracedHub) : HubStep → Prop
  | .send i => t.hub.fan.InTurn (fun e => e.seq.toNat) i
  | .publish user _ _ => (t.hub.users user).seq.toNat + 1 < 2 ^ 64
  | .subscribe _ | .receive _ | .unsubscribe .. => True

instance (t : TracedHub) : ∀ op, Decidable (t.InTurn op)
  | .send i => inferInstanceAs (Decidable (t.hub.fan.InTurn (fun e => e.seq.toNat) i))
  | .publish .. => inferInstanceAs (Decidable (_ < _))
  | .subscribe _ | .receive _ | .unsubscribe .. => isTrue trivial

def InOrder (t : TracedHub) : Prop :=
  t.hub.fan.InOrder (fun e => e.seq.toNat) (fun user => (t.hub.users user).seq.toNat) t.received

theorem InOrder.step {historySize : ℕ} {t : TracedHub} (h : t.InOrder) {op : HubStep}
    (hop : t.InTurn op) : (t.step historySize op).InOrder := by
  cases op with
  | subscribe user => exact State.InOrder.subscribe h user
  | publish user body order =>
    by_cases horder : order.Perm (t.hub.fan.subs user)
    · have hseq : ((t.hub.users user).seq + 1).toNat = (t.hub.users user).seq.toNat + 1 := by
        rw [UInt64.toNat_add]
        exact Nat.mod_eq_of_lt hop
      have hcast := State.InOrder.cast h user horder (e := (t.hub.users user).stamp body)
        (Nat.lt_succ_self _) hseq
      have htop :
          (fun u => ((t.step historySize (.publish user body order)).hub.users u).seq.toNat) =
          update (fun u => (t.hub.users u).seq.toNat) user
            ((t.hub.users user).seq.toNat + 1) := by
        funext u
        by_cases hu : u = user
        · subst hu
          simpa [step_hub, Hub.step, horder, UserHub.publish] using hseq
        · simp [step_hub, Hub.step, horder, hu]
      rw [InOrder, htop]
      simpa [TracedHub.step, Hub.step, horder] using hcast
    · simpa [InOrder, TracedHub.step, Hub.step, horder] using h
  | send i => exact State.InOrder.send h Hub.depth hop
  | receive c => exact State.InOrder.receive h c
  | unsubscribe user c =>
    by_cases hc : c ∈ t.hub.fan.subs user
    · have hclose := (State.InOrder.leave h user c).close c
      simpa [InOrder, TracedHub.step, Hub.step, hc] using hclose
    · simpa [InOrder, TracedHub.step, Hub.step, hc] using h

end TracedHub

/-- **Order.** In a run in which no call of `publish` overtakes another one on a channel, the
numbers of the events that are taken out of a channel grow. -/
theorem delivered_in_order (historySize : ℕ) (run : List HubStep)
    (hrun : Meets (TracedHub.step historySize) TracedHub.InTurn {} run) (c : ℕ) :
    ((exec (TracedHub.step historySize) {} run).received c).Pairwise
      fun e e' => e.seq < e'.seq := by
  have h : (exec (TracedHub.step historySize) {} run).InOrder :=
    hrun.invariant (I := TracedHub.InOrder) (fun _ _ h hop => h.step hop) State.inOrder_new
  exact ((pairwise_append.mp (h.increasing c)).1).imp fun hlt => UInt64.lt_iff_toNat_lt.mpr hlt

/-- Two calls, one after the other at each channel. -/
theorem delivered_in_order_twoPublishes :
    ((exec (TracedHub.step 1000) {} [.subscribe (lit "u"), .publish (lit "u") (.system []) [0],
      .publish (lit "u") (.system [lit "x"]) [0], .send 0, .send 1, .receive 0,
      .receive 0]).received 0).Pairwise fun e e' => e.seq < e'.seq :=
  delivered_in_order 1000 _ (by decide) 0

/-- The second call sends first. -/
theorem publish_overtakes :
    ((exec (TracedHub.step 1000) {} [.subscribe (lit "u"), .publish (lit "u") (.system []) [0],
      .publish (lit "u") (.system [lit "x"]) [0], .send 1, .send 0, .receive 0,
      .receive 0]).received 0).map StreamEvent.seq = [2, 1] := by
  decide

/-- The size of the history that `NewHub` takes. -/
def newHub (historySize : Int) : ℕ := if historySize ≤ 0 then 1000 else historySize.toNat

theorem TracedHub.holds_step {historySize : ℕ} {t : TracedHub} {user : UserID}
    (h : (t.hub.users user).Holds historySize (t.published user)) (op : HubStep) :
    ((t.step historySize op).hub.users user).Holds historySize
      ((t.step historySize op).published user) := by
  cases op with
  | subscribe _ | send _ | receive _ => exact h
  | unsubscribe user' c =>
    by_cases hc : c ∈ t.hub.fan.subs user'
    · simpa [TracedHub.step, Hub.step, hc] using h
    · simpa [TracedHub.step, Hub.step, hc] using h
  | publish user' body order =>
    by_cases horder : order.Perm (t.hub.fan.subs user')
    · by_cases hu : user = user'
      · subst hu
        simpa [TracedHub.step, Hub.step, horder] using h.publish body
      · simpa [TracedHub.step, Hub.step, horder, hu] using h
    · simpa [TracedHub.step, Hub.step, horder] using h

theorem published_holds (historySize : ℕ) (run : List HubStep) (user : UserID) :
    let t := exec (TracedHub.step historySize) {} run
    (t.hub.users user).Holds historySize (t.published user) :=
  exec_invariant (I := fun t : TracedHub => (t.hub.users user).Holds historySize (t.published user))
    (fun _ op h => TracedHub.holds_step h op) (UserHub.new_holds historySize) run

namespace UserHub.Holds

variable {historySize : ℕ} {uh : UserHub} {events : List StreamEvent}

theorem seq_toNat (h : uh.Holds historySize events) (hlt : events.length < 2 ^ 64) :
    uh.seq.toNat = events.length := by
  rw [h.seq_eq, UInt64.toNat_ofNat_of_lt' hlt]

theorem seqs_toNat (h : uh.Holds historySize events) (hlt : events.length < 2 ^ 64) :
    events.map (fun e => e.seq.toNat) = range' 1 events.length := by
  have hseqs := congrArg (map UInt64.toNat) h.seqs
  rw [map_map, map_map] at hseqs
  refine hseqs.trans (ext_getElem (by simp) fun i hi _ => ?_)
  have hi' : i < events.length := by simpa using hi
  have hsmall : i + 1 < 2 ^ 64 := by omega
  simp only [getElem_map, getElem_range, comp_apply, getElem_range']
  rw [UInt64.toNat_ofNat_of_lt' hsmall]
  omega

theorem seq_getElem? (h : uh.Holds historySize events) (hlt : events.length < 2 ^ 64) {i : ℕ}
    {e : StreamEvent} (hi : events[i]? = some e) : e.seq.toNat = i + 1 := by
  obtain ⟨hlen, rfl⟩ := List.getElem?_eq_some_iff.mp hi
  have hmap := congrArg (·[i]?) (h.seqs_toNat hlt)
  simp only [getElem?_map, hi, Option.map_some] at hmap
  rw [getElem?_range' hlen] at hmap
  have := Option.some.inj hmap
  omega

theorem filter_drop (h : uh.Holds historySize events) (hlt : events.length < 2 ^ 64) (start : ℕ)
    (after : UInt64) :
    (events.drop start).filter (fun e => e.seq > after) =
      events.drop (max start after.toNat) := by
  have hsplit : events.drop start = (events.drop start).take (after.toNat - start) ++
      events.drop (max start after.toNat) := by
    rw [show max start after.toNat = start + (after.toNat - start) by omega, ← drop_drop,
      take_append_drop]
  have hold : ((events.drop start).take (after.toNat - start)).filter
      (fun e => e.seq > after) = [] := by
    refine filter_eq_nil_iff.mpr fun e he => ?_
    obtain ⟨i, hi⟩ := mem_iff_getElem?.mp he
    rw [getElem?_take] at hi
    split_ifs at hi with hlt'
    rw [getElem?_drop] at hi
    have hseq := h.seq_getElem? hlt hi
    simp only [gt_iff_lt, decide_eq_true_eq, UInt64.lt_iff_toNat_lt]
    omega
  have hnew : (events.drop (max start after.toNat)).filter (fun e => e.seq > after) =
      events.drop (max start after.toNat) := by
    refine filter_eq_self.mpr fun e he => ?_
    obtain ⟨i, hi⟩ := mem_iff_getElem?.mp he
    rw [getElem?_drop] at hi
    have hseq := h.seq_getElem? hlt hi
    simp only [gt_iff_lt, decide_eq_true_eq, UInt64.lt_iff_toNat_lt]
    omega
  rw [hsplit, filter_append, hold, hnew, nil_append]

end UserHub.Holds

/-- **The history.** As long as the numbers have not run out, they count the events; the history is
the newest part of them, as long as it may be; and `Replay` gives the events after a number when
the history reaches back to it, and the whole history otherwise. -/
theorem replay_window (historySize : Int) (hsize : 1 ≤ historySize) (run : List HubStep)
    (user : UserID) (after : UInt64)
    (hlt : ((exec (TracedHub.step (newHub historySize)) {} run).published user).length < 2 ^ 64) :
    let t := exec (TracedHub.step (newHub historySize)) {} run
    let uh := t.hub.users user
    let kept := min uh.seq.toNat historySize.toNat
    uh.seq.toNat = (t.published user).length ∧
      (t.published user).map (fun e => e.seq.toNat) = range' 1 uh.seq.toNat ∧
      uh.history = (t.published user).rtake kept ∧
      uh.history.map (fun e => e.seq.toNat) = range' (uh.seq.toNat - kept + 1) kept ∧
      (uh.seq.toNat - historySize.toNat ≤ after.toNat →
        uh.replay after = (t.published user).drop after.toNat) ∧
      (after.toNat < uh.seq.toNat - historySize.toNat →
        uh.replay after = uh.history ∧ uh.history.length = historySize.toNat) := by
  intro t uh kept
  have hnew : newHub historySize = historySize.toNat := if_neg (by omega)
  have h : uh.Holds (newHub historySize) (t.published user) := published_holds _ run user
  have hseq : uh.seq.toNat = (t.published user).length := h.seq_toNat hlt
  have hhistory : uh.history =
      (t.published user).drop ((t.published user).length - historySize.toNat) := by
    rw [← hnew]
    exact h.history
  have hkept : (t.published user).length - historySize.toNat =
      (t.published user).length - kept := by
    dsimp only [kept]
    omega
  refine ⟨hseq, ?_, ?_, ?_, fun hafter => ?_, fun hafter => ?_⟩
  · rw [hseq]
    exact h.seqs_toNat hlt
  · rw [hhistory, hkept]
    rfl
  · rw [hhistory, map_drop, h.seqs_toNat hlt, drop_range', hkept, hseq]
    congr 1 <;> dsimp only [kept] <;> omega
  · rw [UserHub.replay, hhistory, h.filter_drop hlt]
    congr 1
    omega
  · constructor
    · rw [UserHub.replay, hhistory, h.filter_drop hlt]
      congr 1
      omega
    · rw [hhistory, length_drop]
      omega

/-- Three events, a history of two. -/
theorem replay_window_three :
    let t := exec (TracedHub.step (newHub 2)) {} [.publish (lit "u") (.system []) [],
      .publish (lit "u") (.system []) [], .publish (lit "u") (.system []) []]
    (t.hub.users (lit "u")).replay 1 = (t.published (lit "u")).drop 1 :=
  (replay_window 2 (by decide) _ (lit "u") 1 (by decide)).2.2.2.2.1 (by decide)

end Centaurx
