import Centaurx.Lib.GoString

namespace Centaurx.Shipohoy
open Go List

/-- What is still to be read, in the pieces in which it comes. -/
abbrev Source := List (List UInt8)

/-- `io.ReadFull` of `n` bytes: what was read, and what is left. It is short only at the end. -/
def readFull : ℕ → Source → List UInt8 × Source
  | _, [] => ([], [])
  | n, c :: cs =>
    if n ≤ c.length then (c.take n, c.drop n :: cs)
    else
      let r := readFull (n - c.length) cs
      (c ++ r.1, r.2)

/-- The pieces make no difference. -/
theorem readFull_spec (n : ℕ) (s : Source) :
    (readFull n s).1 = s.flatten.take n ∧ (readFull n s).2.flatten = s.flatten.drop n := by
  induction s generalizing n with
  | nil => simp [readFull]
  | cons c cs ih =>
    rw [readFull, flatten_cons, take_append, drop_append]
    dsimp only
    split_ifs with hn
    · simp [Nat.sub_eq_zero_of_le hn]
    · obtain ⟨htake, hdrop⟩ := ih (n - c.length)
      have hlong : c.length ≤ n := by omega
      exact ⟨by rw [htake, take_of_length_le hlong], by rw [hdrop, drop_eq_nil_of_le hlong]; rfl⟩

/-- `binary.BigEndian.Uint32(header[4:8])`. -/
def frameSize (header : List UInt8) : ℕ := (header.drop 4).foldl (fun n b => n * 256 + b.toNat) 0

structure Copied where
  stdout : List UInt8 := []
  stderr : List UInt8 := []
  err : Option GoString := none
  deriving DecidableEq

/-- A write to the writer of the frame type. -/
def Copied.write (out : Copied) (type : UInt8) (bytes : List UInt8) : Copied :=
  if type = 2 then { out with stderr := out.stderr ++ bytes }
  else { out with stdout := out.stdout ++ bytes }

/-- The loop of `copyDockerStream`. `io.CopyN` writes what it has read and reports a short read. -/
def copyFrames (s : Source) (out : Copied) : Copied :=
  let header := readFull 8 s
  if header.1.length < 8 then out
  else
    let size := frameSize header.1
    if size = 0 then copyFrames header.2 out
    else
      let payload := readFull size header.2
      let out := out.write (header.1.headD 0) payload.1
      if payload.1.length < size then { out with err := some (lit "EOF") }
      else copyFrames payload.2 out
termination_by s.flatten.length
decreasing_by
  all_goals
    simp +zetaDelta only [(readFull_spec _ _).1, (readFull_spec _ _).2, length_take,
      length_drop] at *
    omega

def copyDockerStream (s : Source) : Copied := copyFrames s {}

structure Frame where
  type : UInt8
  payload : List UInt8
  length_lt : payload.length < 2 ^ 32

def bigEndian (n : ℕ) : List UInt8 :=
  [UInt8.ofNat (n / 2 ^ 24), UInt8.ofNat (n / 2 ^ 16), UInt8.ofNat (n / 2 ^ 8), UInt8.ofNat n]

def Frame.header (f : Frame) : List UInt8 := [f.type, 0, 0, 0] ++ bigEndian f.payload.length

/-- The bytes of the stream. -/
def encode (frames : List Frame) : List UInt8 := frames.flatMap fun f => f.header ++ f.payload

theorem frameSize_header (f : Frame) : frameSize f.header = f.payload.length := by
  have hlt := f.length_lt
  simp only [Frame.header, frameSize, bigEndian, cons_append, nil_append, drop_succ_cons, drop_zero,
    foldl_cons, foldl_nil, UInt8.toNat_ofNat']
  omega

/-- The payloads that the first `k` bytes of the stream have, as far as they have them. -/
def received : List Frame → ℕ → List (UInt8 × List UInt8)
  | [], _ => []
  | f :: fs, k =>
    if k < 8 then []
    else (f.type, f.payload.take (k - 8)) :: received fs (k - 8 - f.payload.length)

/-- The first `k` bytes end in a frame whose header they have and whose payload they do not. -/
def torn : List Frame → ℕ → Bool
  | [], _ => false
  | f :: fs, k =>
    if k < 8 + f.payload.length then decide (8 ≤ k) else torn fs (k - 8 - f.payload.length)

/-- The payloads of the frames for one writer, one behind the other. -/
def demux (stderr : Bool) (parts : List (UInt8 × List UInt8)) : List UInt8 :=
  (parts.filter fun p => (p.1 == 2) == stderr).flatMap Prod.snd

/-- The output with more payloads. -/
def Copied.writeAll (out : Copied) (parts : List (UInt8 × List UInt8)) : Copied :=
  parts.foldl (fun out p => out.write p.1 p.2) out

theorem writeAll_eq (parts : List (UInt8 × List UInt8)) (out : Copied) : out.writeAll parts =
    ⟨out.stdout ++ demux false parts, out.stderr ++ demux true parts, out.err⟩ := by
  induction parts generalizing out with
  | nil => simp [Copied.writeAll, demux]
  | cons p parts ih =>
    rw [Copied.writeAll, foldl_cons, ← Copied.writeAll, ih, Copied.write]
    by_cases hp : p.1 = 2 <;> simp [demux, hp]

theorem write_nil (out : Copied) (type : UInt8) : out.write type [] = out := by
  rw [Copied.write]
  split_ifs <;> rw [append_nil]

theorem readFull_append {s : Source} {x y : List UInt8} {k : ℕ} (hs : s.flatten = (x ++ y).take k) :
    (readFull x.length s).1 = x.take k ∧
      (readFull x.length s).2.flatten = y.take (k - x.length) := by
  rw [(readFull_spec _ s).1, (readFull_spec _ s).2, hs, drop_take, drop_left, take_take,
    Nat.min_comm, ← take_take, take_left]
  exact ⟨rfl, rfl⟩

theorem copyFrames_take (frames : List Frame) (k : ℕ) (s : Source) (out : Copied)
    (hs : s.flatten = (encode frames).take k) :
    copyFrames s out =
      if torn frames k then { out.writeAll (received frames k) with err := some (lit "EOF") }
      else out.writeAll (received frames k) := by
  induction frames generalizing k s out with
  | nil =>
    have hnil : take k (encode []) = [] := take_nil
    rw [copyFrames, (readFull_spec 8 s).1, hs, hnil]
    rfl
  | cons f fs ih =>
    have hencode : encode (f :: fs) = f.header ++ (f.payload ++ encode fs) := append_assoc ..
    rw [hencode] at hs
    obtain ⟨hheader, hrest⟩ : (readFull 8 s).1 = f.header.take k ∧
      (readFull 8 s).2.flatten = (f.payload ++ encode fs).take (k - 8) := readFull_append hs
    by_cases hk : k < 8
    · have htorn : torn (f :: fs) k = false := by
        rw [torn, if_pos (by omega), decide_eq_false (by omega)]
      have hshort : (readFull 8 s).1.length < 8 := by
        rw [hheader, length_take]
        omega
      rw [copyFrames, if_pos hshort, htorn, received, if_pos hk]
      rfl
    · obtain ⟨hpayload, hafter⟩ := readFull_append hrest
      have hlen : f.header.length = 8 := rfl
      have hwrite : (out.write f.type (f.payload.take (k - 8))).writeAll
          (received fs (k - 8 - f.payload.length)) = out.writeAll (received (f :: fs) k) := by
        rw [received, if_neg hk]
        rfl
      rw [take_of_length_le (by omega)] at hheader
      rw [copyFrames, hheader, hlen, if_neg (lt_irrefl 8), frameSize_header, ← hwrite, torn]
      dsimp only
      by_cases hshort : k < 8 + f.payload.length
      · have hnone : received fs (k - 8 - f.payload.length) = [] := by
          rw [Nat.sub_eq_zero_of_le (by omega)]
          cases fs <;> rfl
        rw [if_neg (by omega), hpayload, if_pos (by rw [length_take]; omega), if_pos hshort,
          decide_eq_true (by omega), hnone]
        rfl
      · rw [take_of_length_le (by omega)] at hpayload
        rw [if_neg hshort, take_of_length_le (by omega)]
        by_cases hempty : f.payload.length = 0
        · rw [length_eq_zero_iff.mp hempty, nil_append, ← Nat.sub_zero (k - 8)] at hrest
          rw [if_pos hempty, ih _ _ out hrest, length_eq_zero_iff.mp hempty, write_nil]
          rfl
        · rw [if_neg hempty, hpayload, if_neg (lt_irrefl _), ih _ _ _ hafter]
          rfl

theorem received_of_le (frames : List Frame) {k : ℕ} (hk : (encode frames).length ≤ k) :
    received frames k = frames.map (fun f => (f.type, f.payload)) ∧ torn frames k = false := by
  induction frames generalizing k with
  | nil => exact ⟨rfl, rfl⟩
  | cons f fs ih =>
    have hlen : (encode (f :: fs)).length = 8 + f.payload.length + (encode fs).length := by
      rw [encode, flatMap_cons, length_append, length_append]
      rfl
    rw [hlen] at hk
    obtain ⟨hreceived, htorn⟩ := ih (k := k - 8 - f.payload.length) (by omega)
    rw [received, if_neg (by omega), torn, if_neg (by omega), take_of_length_le (by omega)]
    exact ⟨by rw [hreceived]; rfl, htorn⟩

/-- **Demultiplexing.** The frames come in pieces of any size, all of them or the first `k` bytes.
Payloads of type 2 go to stderr and all others to stdout, as far as they have come, and there is an
error exactly if the stream ends behind the header of a frame and before the end of its payload. -/
theorem copyDockerStream_demux (frames : List Frame) (s : Source) :
    (s.flatten = encode frames → copyDockerStream s =
      ⟨demux false (frames.map fun f => (f.type, f.payload)),
        demux true (frames.map fun f => (f.type, f.payload)), none⟩) ∧
    ∀ k, s.flatten = (encode frames).take k →
      (copyDockerStream s).stdout = demux false (received frames k) ∧
      (copyDockerStream s).stderr = demux true (received frames k) ∧
      ((copyDockerStream s).err ≠ none ↔ torn frames k = true) := by
  constructor
  · intro hs
    obtain ⟨hreceived, htorn⟩ := received_of_le frames le_rfl
    rw [copyDockerStream, copyFrames_take frames _ s {} (by rw [take_length, hs]), htorn, hreceived,
      writeAll_eq]
    rfl
  · intro k hs
    rw [copyDockerStream, copyFrames_take frames k s {} hs, writeAll_eq]
    split_ifs with htorn <;> simp [htorn]

end Centaurx.Shipohoy
