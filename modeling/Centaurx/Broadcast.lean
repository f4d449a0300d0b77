import Centaurx.HttpApi.Hub
import Centaurx.Lib.Fanout
import Centaurx.Lib.Runs

namespace Centaurx
open Go Runs Fanout

structure Hub where
  users : UserID → UserHub := fun _ => .new
  fan : State UserID StreamEvent := {}

/-- Atomic steps of the hub and of those who hold its channels. Every call of `publish` is one
sender. -/
inductive HubStep
  | subscribe (user : UserID)
  /-- `publish` up to the point where it releases the lock; a map is read in any order. -/
  | publish (user : UserID) (body : StreamBody) (order : List ℕ)
  | send (i : ℕ)
  | receive (c : ℕ)
  | unsubscribe (user : UserID) (c : ℕ)

namespace Hub

/-- The capacity of a subscriber's channel. -/
def depth : ℕ := 256

def step (historySize : ℕ) (h : Hub) : HubStep → Hub
  | .subscribe user => { h with fan := h.fan.subscribe user }
  | .publish user body order =>
    if order.Perm (h.fan.subs user) then
      { users := Function.update h.users user ((h.users user).publish historySize body)
        fan := h.fan.cast user ((h.users user).stamp body) order }
    else h
  | .send i => { h with fan := h.fan.send depth i }
  | .receive c => { h with fan := h.fan.receive c }
  | .unsubscribe user c =>
    if c ∈ h.fan.subs user then { h with fan := (h.fan.leave user c).close c } else h

/-- No channel is closed that a call of `publish` has still to come to. -/
def Undisturbed (h : Hub) : HubStep → Prop
  | .unsubscribe _ c => ¬h.fan.Targeted c
  | _ => True

instance (h : Hub) : ∀ op : HubStep, Decidable (h.Undisturbed op)
  | .unsubscribe .. => inferInstanceAs (Decidable ¬_)
  | .subscribe _ | .publish .. | .send _ | .receive _ => isTrue trivial

theorem step_sound {historySize : ℕ} {h : Hub} (hs : h.fan.Sound) {op : HubStep}
    (hop : h.Undisturbed op) : (h.step historySize op).fan.Sound := by
  cases op with
  | subscribe user => exact hs.subscribe user
  | publish user body order =>
    rw [step]
    split
    · exact hs.cast user _ order
    · exact hs
  | send i => exact hs.send depth i
  | receive c => exact hs.receive c
  | unsubscribe user c =>
    rw [step]
    split
    · refine (hs.leave user c).close fun ht => hop (ht.of_subset fun p hp => ⟨p, ?_, ?_⟩)
      · simpa [State.leave, *] using hp
      · exact List.Subset.refl _
    · exact hs

end Hub

inductive BusStep
  | subscribe (user : UserID)
  | publish (user : UserID) (event : SinkEvent) (order : List ℕ)
  | send (i : ℕ)
  | receive (c : ℕ)
  /-- The first part of the cancel function, under the lock. -/
  | leave (user : UserID) (c : ℕ)
  /-- Its second part. -/
  | close (c : ℕ)

/-- The channels of each user; an entry of the map without channels is the same as no entry. -/
abbrev Bus := State UserID SinkEvent

namespace Bus

def depth : ℕ := 256

def step (b : Bus) : BusStep → Bus
  | .subscribe user => b.subscribe user
  | .publish user event order => b.cast user event order
  | .send i => b.send depth i
  | .receive c => b.receive c
  | .leave user c => b.leave user c
  | .close c => b.close c

/-- No channel is closed that a call of `publish` has still to come to. -/
def Undisturbed (b : Bus) : BusStep → Prop
  | .close c => ¬b.Targeted c
  | _ => True

instance (b : Bus) : ∀ op : BusStep, Decidable (Bus.Undisturbed b op)
  | .close _ => inferInstanceAs (Decidable ¬_)
  | .subscribe _ | .publish .. | .send _ | .receive _ | .leave .. => isTrue trivial

theorem step_sound {b : Bus} (hs : b.Sound) {op : BusStep} (hop : Bus.Undisturbed b op) :
    (Bus.step b op).Sound := by
  cases op with
  | subscribe user => exact hs.subscribe user
  | publish user event order => exact hs.cast user event order
  | send i => exact hs.send depth i
  | receive c => exact hs.receive c
  | leave user c => exact hs.leave user c
  | close c => exact hs.close hop

end Bus

/-- **Publishing.** In a run in which no channel is closed while a call of `publish` has still to
come to it, no call sends on a closed channel. -/
theorem publish_never_panics (historySize : ℕ) (hubRun : List HubStep) (busRun : List BusStep)
    (hhub : Meets (Hub.step historySize) Hub.Undisturbed {} hubRun)
    (hbus : Meets Bus.step Bus.Undisturbed {} busRun) :
    (exec (Hub.step historySize) {} hubRun).fan.panicked = false ∧
      (exec Bus.step {} busRun).panicked = false := by
  refine ⟨?_, ?_⟩
  · exact (hhub.invariant (I := fun h : Hub => h.fan.Sound)
      (fun _ _ hs hop => Hub.step_sound hs hop) State.sound_new).calm
  · exact (hbus.invariant (I := fun b : Bus => b.Sound) (fun _ _ hs hop => Bus.step_sound hs hop)
      State.sound_new).calm

/-- A subscriber gets an event and leaves. -/
theorem publish_never_panics_leaving :
    (exec (Hub.step 1000) {} [.subscribe (lit "u"), .publish (lit "u") (.system []) [0], .send 0,
        .receive 0, .unsubscribe (lit "u") 0]).fan.panicked = false ∧
      (exec Bus.step {} [.subscribe (lit "u"), .publish (lit "u") (.system []) [0], .send 0,
        .leave (lit "u") 0, .receive 0, .close 0]).panicked = false :=
  publish_never_panics 1000 _ _ (by decide) (by decide)

/-- A subscriber leaves while a call of `publish` has its channel on the copied list. -/
theorem publish_on_closed_channel :
    (exec (Hub.step 1000) {} [.subscribe (lit "u"), .publish (lit "u") (.system []) [0],
        .unsubscribe (lit "u") 0, .send 0]).fan.panicked = true ∧
      (exec Bus.step {} [.subscribe (lit "u"), .publish (lit "u") (.system []) [0],
        .leave (lit "u") 0, .close 0, .send 0]).panicked = true := by
  decide

end Centaurx
