import Centaurx.Core.Sections

namespace Centaurx
open Go List

/-- The part of a `StreamEvent` that the sink methods fill in. `OnTabEvent` does not pass on
the active tab. Timestamps are left out. -/
inductive StreamBody
  | output (tab : TabID) (lines : List GoString)
  | system (lines : List GoString)
  | tab (type : TabEventType) (view : Option TabView) (theme : ThemeName)
  deriving DecidableEq

structure StreamEvent where
  seq : UInt64
  body : StreamBody
  deriving DecidableEq

/-- `OnOutput`, `OnSystemOutput` and `OnTabEvent`, up to the call of `publish`. -/
def SinkEvent.body : SinkEvent → StreamBody
  | .output id lines => .output id lines
  | .system lines => .system lines
  | .tab type view _ theme => .tab type view theme

/-- The hub's state for one user, without its subscribers. -/
structure UserHub where
  seq : UInt64
  history : List StreamEvent
  deriving DecidableEq

namespace UserHub

def new : UserHub := ⟨0, []⟩

/-- The event that `publish` stamps with the next sequence number. -/
def stamp (uh : UserHub) (body : StreamBody) : StreamEvent := ⟨uh.seq + 1, body⟩

def publish (historySize : ℕ) (uh : UserHub) (body : StreamBody) : UserHub :=
  let history := uh.history ++ [uh.stamp body]
  { seq := uh.seq + 1
    history :=
      if history.length > historySize then history.drop (history.length - historySize)
      else history }

/-- `Replay`. -/
def replay (uh : UserHub) (after : UInt64) : List StreamEvent :=
  uh.history.filter (fun e => e.seq > after)

/-- The hub's state after events with the given bodies: the sequence numbers count them, and
the history is the newest part. -/
structure Holds (historySize : ℕ) (uh : UserHub) (events : List StreamEvent) : Prop where
  seq_eq : uh.seq = UInt64.ofNat events.length
  seqs : events.map StreamEvent.seq =
    (range events.length).map (fun i => UInt64.ofNat (i + 1))
  history : uh.history = events.drop (events.length - historySize)

theorem new_holds (historySize : ℕ) : new.Holds historySize [] :=
  ⟨rfl, rfl, by simp [new]⟩

theorem Holds.publish {historySize : ℕ} {uh : UserHub} {events : List StreamEvent}
    (h : uh.Holds historySize events) (body : StreamBody) :
    (uh.publish historySize body).Holds historySize (events ++ [uh.stamp body]) := by
  have hseq : uh.seq + 1 = UInt64.ofNat (events.length + 1) := by
    rw [h.seq_eq, UInt64.ofNat_add]
    rfl
  refine ⟨?_, ?_, ?_⟩
  · simpa [UserHub.publish] using hseq
  · rw [map_append, h.seqs, length_append, length_singleton, range_succ,
      map_append]
    simp [stamp, hseq]
  · have hlen : uh.history.length = events.length - (events.length - historySize) := by
      rw [h.history, length_drop]
    simp only [UserHub.publish, length_append, length_singleton, hlen]
    split_ifs with hs
    · -- A full history loses its oldest event.
      rw [h.history, ← drop_append_of_le_length (by omega), drop_drop]
      congr 1
      omega
    · have h0 : events.length + 1 - historySize = 0 := by omega
      have h0' : events.length - historySize = 0 := by omega
      rw [h.history, h0, h0']
      rfl

end UserHub

end Centaurx
