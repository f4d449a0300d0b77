import Centaurx.Core.Buffer
import Centaurx.HttpApi.Hub
import Centaurx.Lib.Newest

namespace Centaurx
open Go Newest List

namespace Buffer

variable {α : Type}

/-- How many lines a view can show. -/
def viewHeight (limit : Int) (total : ℕ) : ℕ := (viewLimit total limit).toNat

variable {b : Buffer α}

theorem append_keep (hpos : 0 < b.maxLines) (ls : List α) :
    (b.append ls).lines = keep b.maxLines.toNat b.lines ls := by
  rw [append, keep]
  by_cases hls : ls = []
  · simp [hls]
  · have hlen : ls.length ≠ 0 := by simpa using hls
    simp only [if_neg hlen, if_neg hls, if_neg (not_le.mpr hpos), apply_ite lines]
    split_ifs with hlong
    · rw [rtake]
      congr 1
      omega
    · rw [rtake_of_length_le (by omega)]

theorem append_bottom (h : b.scrollOffset = 0) (ls : List α) : (b.append ls).scrollOffset = 0 := by
  simp only [append, apply_ite scrollOffset, h]
  split_ifs <;> omega

theorem append_offset_nonneg (h : 0 ≤ b.scrollOffset) (ls : List α) :
    0 ≤ (b.append ls).scrollOffset := by
  simp only [append, apply_ite scrollOffset]
  split_ifs <;> omega

theorem snapshot_bottom (h : b.scrollOffset = 0) (limit : Int) :
    (b.snapshot limit).1.lines = b.lines.rtake (viewHeight limit b.lines.length) ∧
      (b.snapshot limit).2 = b := by
  have hmax := viewMax_nonneg b.lines.length limit
  have hclamp : b.clampTo (viewMax b.lines.length limit) = b := by
    rw [clampTo, h, if_neg (not_lt.mpr hmax)]
  have hlimit : 0 ≤ viewLimit b.lines.length limit ∧
      viewLimit b.lines.length limit ≤ b.lines.length := by
    rw [viewLimit]
    split_ifs <;> omega
  have hend : viewEnd b.lines.length 0 = b.lines.length := by
    rw [viewEnd]
    split_ifs <;> omega
  have hstart : viewStart b.lines.length 0 limit =
      b.lines.length - viewLimit b.lines.length limit := by
    rw [viewStart, hend]
    split_ifs <;> omega
  simp only [snapshot, hclamp, view, h, slice, hend, hstart, and_true]
  rw [rtake, viewHeight, take_of_length_le (by simp; omega)]
  congr 1
  omega

end Buffer

/-- What an event is for the buffers of a client. -/
inductive Body (α : Type)
  | output (tab : TabID) (lines : List α)
  | other
  deriving DecidableEq

/-- The lines for a tab. -/
def Body.linesFor {α : Type} (tab : TabID) : Body α → List α
  | .output tab' lines => if tab' = tab then lines else []
  | .other => []

structure Event (α : Type) where
  seq : UInt64
  body : Body α
  deriving DecidableEq

structure EventLog (α : Type) where
  seq : UInt64 := 0
  history : List (Event α) := []
  deriving DecidableEq

namespace EventLog

variable {α : Type}

def stamp (log : EventLog α) (body : Body α) : Event α := ⟨log.seq + 1, body⟩

def publish (historySize : ℕ) (log : EventLog α) (body : Body α) : EventLog α :=
  let history := log.history ++ [log.stamp body]
  { seq := log.seq + 1
    history :=
      if history.length > historySize then history.drop (history.length - historySize)
      else history }

def replay (log : EventLog α) (after : UInt64) : List (Event α) :=
  log.history.filter fun e => e.seq > after

end EventLog

def StreamBody.body : StreamBody → Body GoString
  | .output id lines => .output id lines
  | .system _ => .other
  | .tab .. => .other

def StreamEvent.event (e : StreamEvent) : Event GoString := ⟨e.seq, e.body.body⟩

def UserHub.log (uh : UserHub) : EventLog GoString := ⟨uh.seq, uh.history.map StreamEvent.event⟩

theorem UserHub.log_publish (historySize : ℕ) (uh : UserHub) (body : StreamBody) :
    (uh.publish historySize body).log = uh.log.publish historySize body.body := by
  simp only [UserHub.publish, UserHub.log, EventLog.publish]
  split_ifs with h1 h2 h2 <;> simp_all [StreamEvent.event, UserHub.stamp, EventLog.stamp]

theorem UserHub.log_replay (uh : UserHub) (after : UInt64) :
    (uh.replay after).map StreamEvent.event = uh.log.replay after := by
  rw [UserHub.replay, EventLog.replay, UserHub.log, filter_map]
  rfl

end Centaurx
