import Centaurx.SshServer.Editor
import Mathlib.Data.List.Chain

namespace Centaurx.SshServer
open Go List

/-- `unicode.IsLetter` of a byte, as a rune. -/
def isLetter (b : UInt8) : Bool :=
  between 0x41 0x5A b || between 0x61 0x7A b || b == 0xAA || b == 0xB5 || b == 0xBA ||
    between 0xC0 0xD6 b || between 0xD8 0xF6 b || between 0xF8 0xFF b

def endsCSI (b : UInt8) : Bool := b == 0x7E || isLetter b

/-- The sequences that `readCSI` has keys for. -/
def csiTable : List (GoString × Key) :=
  [(lit "A", .keyUp), (lit "B", .keyDown), (lit "C", .keyRight), (lit "D", .keyLeft),
    (lit "H", .keyHome), (lit "F", .keyEnd), (lit "5~", .keyPageUp), (lit "6~", .keyPageDown),
    (lit "3~", .keyDelete), (lit "Z", .keyShiftTab), (lit "1;2Z", .keyShiftTab)]

def csiKey (seq : GoString) : List Key := (csiTable.lookup seq).toList

/-- `readCSI`, with the bytes of the sequence so far: the keys, and the bytes that are left. -/
def readCSI (seq : GoString) : GoString → List Key × GoString
  | [] => ([], [])
  | b :: rest =>
    if endsCSI b then (csiKey (seq ++ [b]), rest)
    else if (seq ++ [b]).length > 8 then ([], rest)
    else readCSI (seq ++ [b]) rest

def readSS3 : GoString → List Key × GoString
  | [] => ([], [])
  | b :: rest =>
    (if b = 0x48 then [.keyHome] else if b = 0x46 then [.keyEnd] else [], rest)

def readEscape : GoString → List Key × GoString
  | [] => ([], [])
  | b :: rest =>
    if b = 0x5B then readCSI [] rest
    else if b = 0x4F then readSS3 rest
    else if b = 0x62 ∨ b = 0x42 then ([.keyAltB], rest)
    else if b = 0x66 ∨ b = 0x46 then ([.keyAltF], rest)
    else ([], rest)

/-- The bytes that are keys of their own. -/
def controlTable : List (UInt8 × Key) :=
  [(0x0D, .keyEnter), (0x0A, .keyCtrlJ), (0x7F, .keyBackspace), (0x08, .keyBackspace),
    (0x01, .keyCtrlA), (0x05, .keyCtrlE), (0x15, .keyCtrlU), (0x0B, .keyCtrlK), (0x17, .keyCtrlW),
    (0x04, .keyCtrlD), (0x03, .keyCtrlC), (0x09, .keyTab)]

/-- A round of `readKeys` on a byte that is not skipped. -/
def readKey (b : UInt8) (rest : GoString) : List Key × GoString :=
  if b = 0x1B then readEscape rest
  else
    match controlTable.lookup b with
    | some k => ([k], rest)
    | none =>
      if b < 0x80 then ([.keyRune b.toNat], rest)
      else
        ([.keyRune (decodeRune (b :: rest)).1], (b :: rest).drop (decodeRune (b :: rest)).2)

/-- The loop of `readKeys`, with `lastWasCR`. A newline behind a carriage return is skipped. -/
def readKeysN : ℕ → Bool → GoString → List Key
  | 0, _, _ | _, _, [] => []
  | n + 1, lastWasCR, b :: rest =>
    if lastWasCR ∧ b = 0x0A then readKeysN n false rest
    else (readKey b rest).1 ++ readKeysN n (b = 0x0D) (readKey b rest).2

def readKeysFrom (lastWasCR : Bool) (s : GoString) : List Key := readKeysN s.length lastWasCR s

def readKeys (s : GoString) : List Key := readKeysFrom false s

theorem readCSI_length (seq s : GoString) : (readCSI seq s).2.length ≤ s.length := by
  induction s generalizing seq with
  | nil => exact le_rfl
  | cons b rest ih =>
    rw [readCSI]
    split_ifs
    · exact Nat.le_succ _
    · exact Nat.le_succ _
    · exact (ih _).trans (Nat.le_succ _)

theorem readSS3_length (s : GoString) : (readSS3 s).2.length ≤ s.length := by
  cases s with
  | nil => exact le_rfl
  | cons b rest => exact Nat.le_succ _

theorem readEscape_length (s : GoString) : (readEscape s).2.length ≤ s.length := by
  cases s with
  | nil => exact le_rfl
  | cons b rest =>
    rw [readEscape]
    split_ifs
    · exact (readCSI_length _ _).trans (Nat.le_succ _)
    · exact (readSS3_length _).trans (Nat.le_succ _)
    all_goals exact Nat.le_succ _

theorem readKey_length (b : UInt8) (rest : GoString) :
    (readKey b rest).2.length ≤ rest.length := by
  rw [readKey]
  by_cases hesc : b = 0x1B
  · rw [if_pos hesc]
    exact readEscape_length rest
  · rw [if_neg hesc]
    split
    · exact le_rfl
    · split_ifs
      · exact le_rfl
      · exact drop_rune_length b rest

theorem readKeysN_of_le (s : GoString) {m n : ℕ} (hm : s.length ≤ m) (hn : s.length ≤ n) :
    (fun cr => readKeysN m cr s) = fun cr => readKeysN n cr s := by
  refine @rounds_of_le _ (fun n s cr => readKeysN n cr s) (fun n => ?_) (fun b s m n h => ?_) s
    _ _ hm hn
  · cases n <;> rfl
  · funext cr
    have hrest : readKeysN m false s = readKeysN n false s := congrFun (h s le_rfl) false
    have hkey : readKeysN m (b = 0x0D) (readKey b s).2 = readKeysN n (b = 0x0D) (readKey b s).2 :=
      congrFun (h _ (readKey_length b s)) _
    rw [readKeysN, readKeysN, hrest, hkey]

theorem readKeysFrom_cons (cr : Bool) (b : UInt8) (rest : GoString) :
    readKeysFrom cr (b :: rest) =
      if cr ∧ b = 0x0A then readKeysFrom false rest
      else (readKey b rest).1 ++ readKeysFrom (b = 0x0D) (readKey b rest).2 := by
  have hkey : readKeysN rest.length (b = 0x0D) (readKey b rest).2 =
      readKeysFrom (b = 0x0D) (readKey b rest).2 :=
    congrFun (readKeysN_of_le _ (readKey_length b rest) le_rfl) _
  rw [readKeysFrom, length_cons, readKeysN, readKeysFrom, hkey]

/-- A character, a control byte, or a control sequence. -/
inductive Item
  | char (r : ℕ)
  | control (b : UInt8)
  | csi (params inter : GoString) (final : UInt8)
  deriving DecidableEq

namespace Item

/-- Printable characters, the bytes of the table, and the sequences of ECMA-48. -/
def Ok : Item → Prop
  | char r => Scalar r ∧ 0x20 ≤ r ∧ r ≠ 0x7F
  | control b => (controlTable.lookup b).isSome
  | csi params inter final =>
    (∀ b ∈ params, between 0x30 0x3F b) ∧ (∀ b ∈ inter, between 0x20 0x2F b) ∧
      between 0x40 0x7E final

instance : DecidablePred Ok
  | char _ => inferInstanceAs (Decidable (_ ∧ _))
  | control _ => inferInstanceAs (Decidable (_ = true))
  | csi _ _ _ => inferInstanceAs (Decidable (_ ∧ _))

def bytes : Item → GoString
  | char r => encodeRune r
  | control b => [b]
  | csi params inter final => 0x1B :: 0x5B :: (params ++ inter ++ [final])

def keys : Item → List Key
  | char r => [.keyRune r]
  | control b => (controlTable.lookup b).toList
  | csi params inter final => csiKey (params ++ inter ++ [final])

/-- `readCSI` knows where the sequence ends: at a letter or a tilde, or because it stops looking
right there. -/
def Found : Item → Prop
  | csi params inter final =>
    params.length + inter.length ≤ 8 ∧
      (endsCSI final = true ∨ params.length + inter.length = 8)
  | _ => True

instance : DecidablePred Found
  | csi _ _ _ => inferInstanceAs (Decidable (_ ∧ _))
  | char _ | control _ => isTrue trivial

end Item

theorem lookup_control {b : UInt8} (hlow : 0x20 ≤ b.toNat) (hdel : b.toNat ≠ 0x7F) :
    controlTable.lookup b = none := by
  have htable : ∀ p ∈ controlTable, p.1.toNat < 0x20 ∨ p.1.toNat = 0x7F := by decide
  rw [lookup_eq_none_iff]
  intro p hp
  have hbyte := htable p hp
  have hne : b ≠ p.1 := fun h => by
    rw [h] at hlow hdel
    omega
  exact bne_iff_ne.mpr hne

theorem readKey_ascii {b : UInt8} (hlow : 0x20 ≤ b.toNat) (hhigh : b.toNat < 0x7F)
    (rest : GoString) : readKey b rest = ([.keyRune b.toNat], rest) := by
  have hesc : b ≠ 0x1B := fun h => by simp [h] at hlow
  have hascii : b < 0x80 := UInt8.lt_iff_toNat_lt.mpr (hhigh.trans (by decide))
  rw [readKey, if_neg hesc, lookup_control hlow (by omega)]
  exact if_pos hascii

theorem readKey_char {r : ℕ} (h : (Item.char r).Ok) (rest : GoString) :
    ∃ b bs, encodeRune r = b :: bs ∧ 0x20 ≤ b.toNat ∧
      readKey b (bs ++ rest) = ([.keyRune r], rest) := by
  obtain ⟨hr, hlow, hdel⟩ := h
  by_cases hascii : r < 0x80
  · have hbyte := toNat_ofNat (n := r) (by omega)
    refine ⟨UInt8.ofNat r, [], by rw [encodeRune, if_pos hascii], by omega, ?_⟩
    rw [nil_append, readKey_ascii (by omega) (by omega), hbyte]
  · obtain ⟨b, bs, hb, -⟩ := encodeRune_cons r
    have hdecode := decodeRune_encodeRune hr rest
    have hhigh : ¬b < 0x80 := fun hlt => by
      have hrune := mem_encodeRune_ascii (hb ▸ mem_cons_self : b ∈ encodeRune r) hlt
      exact hascii (hrune ▸ UInt8.lt_iff_toNat_lt.mp hlt)
    have hge := not_lt_0x80.mp hhigh
    have hesc : b ≠ 0x1B := fun heq => by simp [heq] at hge
    refine ⟨b, bs, hb, by omega, ?_⟩
    rw [hb, cons_append] at hdecode
    rw [readKey, if_neg hesc, lookup_control (by omega) (by omega)]
    refine (if_neg hhigh).trans ?_
    rw [hdecode]
    simp

theorem readKeysFrom_char {r : ℕ} (h : (Item.char r).Ok) (cr : Bool) (rest : GoString) :
    readKeysFrom cr (encodeRune r ++ rest) = .keyRune r :: readKeysFrom false rest := by
  obtain ⟨b, bs, hb, hlow, hkey⟩ := readKey_char h rest
  have hlf : ¬(cr ∧ b = 0x0A) := fun hlf => by simp [hlf.2] at hlow
  have hcr : b ≠ 0x0D := fun heq => by simp [heq] at hlow
  rw [hb, cons_append, readKeysFrom_cons, if_neg hlf, hkey, decide_eq_false hcr]
  rfl

theorem readKeysFrom_control {b : UInt8} (h : (Item.control b).Ok) {cr : Bool}
    (hlf : ¬(cr ∧ b = 0x0A)) (rest : GoString) :
    readKeysFrom cr (b :: rest) = (Item.control b).keys ++ readKeysFrom (b = 0x0D) rest := by
  obtain ⟨k, hk⟩ := Option.isSome_iff_exists.mp h
  have hesc : b ≠ 0x1B := fun heq => by
    rw [heq] at hk
    cases hk
  have hkey : readKey b rest = ([k], rest) := by
    rw [readKey, if_neg hesc, hk]
  rw [readKeysFrom_cons, if_neg hlf, hkey, Item.keys, hk]
  rfl

/-- Bytes that do not end the sequence, as long as there are not too many. -/
theorem readCSI_append {seq mid : GoString} (hmid : ∀ b ∈ mid, endsCSI b = false)
    (hlen : seq.length + mid.length ≤ 8) (rest : GoString) :
    readCSI seq (mid ++ rest) = readCSI (seq ++ mid) rest := by
  induction mid generalizing seq with
  | nil => rw [nil_append, append_nil]
  | cons b mid ih =>
    have hb := hmid b mem_cons_self
    rw [length_cons] at hlen
    have hshort : ¬(seq ++ [b]).length > 8 := by
      rw [length_append, length_singleton]
      omega
    rw [cons_append, readCSI, if_neg (Bool.eq_false_iff.mp hb), if_neg hshort,
      ih (fun c hc => hmid c (mem_cons_of_mem b hc)) (by simp; omega), append_assoc,
      singleton_append]

/-- After nine bytes the reader gives up, and the rest is read as something else. -/
theorem readCSI_too_long {mid : GoString} (hmid : ∀ b ∈ mid, endsCSI b = false)
    (hlen : 8 < mid.length) (rest : GoString) :
    readCSI [] (mid ++ rest) = ([], mid.drop 9 ++ rest) := by
  have hsplit : mid ++ rest = mid.take 8 ++ (mid.get ⟨8, hlen⟩ :: (mid.drop 9 ++ rest)) := by
    rw [← cons_append, get_eq_getElem, ← drop_eq_getElem_cons hlen,
      ← append_assoc, take_append_drop]
  have htake : (mid.take 8).length = 8 := by
    rw [length_take, Nat.min_eq_left hlen.le]
  have hlong : (mid.take 8 ++ [mid.get ⟨8, hlen⟩]).length > 8 := by
    rw [length_append, htake, length_singleton]
    decide
  have hb := hmid _ (get_mem mid ⟨8, hlen⟩)
  have hfront : ∀ b ∈ mid.take 8, endsCSI b = false := fun b hb => hmid b (mem_of_mem_take hb)
  rw [hsplit, readCSI_append hfront (by simp [htake]), nil_append, readCSI,
    if_neg (Bool.eq_false_iff.mp hb), if_pos hlong]

theorem csiKey_eq_nil {seq : GoString} (h : ∀ p ∈ csiTable, seq ≠ p.1) : csiKey seq = [] := by
  have hnone : csiTable.lookup seq = none :=
    lookup_eq_none_iff.mpr fun p hp => bne_iff_ne.mpr (h p hp)
  rw [csiKey, hnone]
  rfl

theorem csiKey_long {seq : GoString} (h : 4 < seq.length) : csiKey seq = [] := by
  have htable : ∀ p ∈ csiTable, p.1.length ≤ 4 := by decide
  refine csiKey_eq_nil fun p hp heq => ?_
  have hshort := htable p hp
  rw [← heq] at hshort
  omega

section

variable {params inter : GoString} {final : UInt8}

theorem readKeysFrom_csi (cr : Bool) (seq rest : GoString) :
    readKeysFrom cr (0x1B :: 0x5B :: (seq ++ rest)) =
      (readCSI [] (seq ++ rest)).1 ++ readKeysFrom false (readCSI [] (seq ++ rest)).2 := by
  rw [readKeysFrom_cons, if_neg (by simp)]
  rfl

theorem endsCSI_high {b : UInt8} (h : endsCSI b = true) : 0x40 < b.toNat := by
  simp only [endsCSI, isLetter, Bool.or_eq_true, between_iff, beq_iff_eq, ← UInt8.toNat_inj,
    UInt8.reduceToNat] at h
  omega

theorem mid_printable (h : (Item.csi params inter final).Ok) :
    ∀ b ∈ params ++ inter, 0x20 ≤ b.toNat ∧ b.toNat ≤ 0x3F := by
  intro b hb
  rcases mem_append.mp hb with hb | hb
  · have hb := between_iff.mp (h.1 b hb)
    exact ⟨hb.1.trans' (by decide), hb.2⟩
  · have hb := between_iff.mp (h.2.1 b hb)
    exact ⟨hb.1, hb.2.trans (by decide)⟩

theorem mid_not_final (h : (Item.csi params inter final).Ok) :
    ∀ b ∈ params ++ inter, endsCSI b = false := by
  intro b hb
  have hprint := mid_printable h b hb
  exact Bool.eq_false_iff.mpr fun hend => by
    have hhigh := endsCSI_high hend
    omega

theorem readCSI_found (h : (Item.csi params inter final).Ok)
    (hfound : (Item.csi params inter final).Found) (rest : GoString) :
    readCSI [] (params ++ inter ++ [final] ++ rest) =
      (csiKey (params ++ inter ++ [final]), rest) := by
  obtain ⟨hlen, hend⟩ := hfound
  rw [← length_append] at hlen hend
  rw [append_assoc, singleton_append,
    readCSI_append (mid_not_final h) (by simpa using hlen), nil_append, readCSI]
  split_ifs with hfinal hlong
  · rfl
  · rw [csiKey_long (by omega)]
  · rw [length_append, length_singleton] at hlong
    exact absurd (hend.resolve_left hfinal) (by omega)

theorem readKeys_too_long (h : (Item.csi params inter final).Ok)
    (hlen : 8 < (params ++ inter).length) (cr : Bool) :
    readKeysFrom cr ((Item.csi params inter final).bytes ++ []) ≠
      (Item.csi params inter final).keys ++ readKeysFrom false [] := by
  have hfinal := between_iff.mp h.2.2
  have hnone : (Item.csi params inter final).keys = [] :=
    csiKey_long (by rw [length_append, length_singleton]; omega)
  have hread : readKeysFrom cr ((Item.csi params inter final).bytes ++ []) =
      readKeysFrom false ((params ++ inter).drop 9 ++ [final]) := by
    rw [append_nil, Item.bytes, readKeysFrom_csi, readCSI_too_long (mid_not_final h) hlen]
    rfl
  rw [hread, hnone]
  -- the first byte that is left is printable
  obtain ⟨b, rest, hb, hlow, hhigh⟩ : ∃ b rest, (params ++ inter).drop 9 ++ [final] = b :: rest ∧
      0x20 ≤ b.toNat ∧ b.toNat < 0x7F := by
    cases hdrop : (params ++ inter).drop 9 with
    | nil => exact ⟨final, [], rfl, hfinal.1.trans' (by decide), Nat.lt_succ_of_le hfinal.2⟩
    | cons b rest =>
      have hb := mid_printable h b (mem_of_mem_drop (hdrop ▸ mem_cons_self))
      exact ⟨b, rest ++ [final], rfl, hb.1, by omega⟩
  rw [hb, readKeysFrom_cons, if_neg (by simp), readKey_ascii hlow hhigh]
  exact cons_ne_nil _ _

/-- A sequence without a letter or a tilde at its end takes the next character along. -/
theorem readKeys_no_end (h : (Item.csi params inter final).Ok)
    (hlen : (params ++ inter).length < 8) (hfinal : endsCSI final = false) (cr : Bool) :
    readKeysFrom cr ((Item.csi params inter final).bytes ++ [0x78]) ≠
      (Item.csi params inter final).keys ++ readKeysFrom false [0x78] := by
  have hmid : ∀ b ∈ params ++ inter ++ [final], endsCSI b = false := by
    intro b hb
    rcases mem_append.mp hb with hb | hb
    · exact mid_not_final h b hb
    · rwa [mem_singleton.mp hb]
  have hshort : (params ++ inter ++ [final]).length ≤ 8 := by
    rw [length_append, length_singleton]
    omega
  have hnone : csiKey (params ++ inter ++ [final] ++ [0x78]) = [] := by
    have htable : ∀ p ∈ csiTable, p.1.getLast? ≠ some 0x78 := by decide
    refine csiKey_eq_nil fun p hp heq => htable p hp ?_
    rw [← heq, getLast?_concat]
  have hread : readKeysFrom cr ((Item.csi params inter final).bytes ++ [0x78]) = [] := by
    rw [Item.bytes, cons_append, cons_append, readKeysFrom_csi,
      readCSI_append hmid (by simpa using hshort), nil_append, readCSI, if_pos (by decide),
      hnone]
    rfl
  rw [hread]
  exact (append_ne_nil_of_right_ne_nil _ (by decide)).symm

end

/-- An item is read as a whole, from every state and whatever stands behind it, exactly where
`readCSI` finds its end. -/
theorem readKeysFrom_item {i : Item} (h : i.Ok) (cr : Bool) (hlf : ¬(cr ∧ i = .control 0x0A)) :
    (∀ rest, readKeysFrom cr (i.bytes ++ rest) =
      i.keys ++ readKeysFrom (i = .control 0x0D) rest) ↔ i.Found := by
  cases i with
  | char r => exact ⟨fun _ => trivial, fun _ rest => readKeysFrom_char h cr rest⟩
  | control b =>
    refine ⟨fun _ => trivial, fun _ rest => ?_⟩
    have hlf' : ¬(cr ∧ b = 0x0A) := by simpa using hlf
    have hcr : decide (Item.control b = .control 0x0D) = decide (b = 0x0D) := by simp
    rw [hcr]
    exact readKeysFrom_control h hlf' rest
  | csi params inter final =>
    constructor
    · intro hall
      by_contra hfound
      by_cases hlen : 8 < (params ++ inter).length
      · exact readKeys_too_long h hlen cr (hall [])
      · have hno : (params ++ inter).length < 8 ∧ endsCSI final = false := by
          rw [Item.Found, ← length_append] at hfound
          grind
        exact readKeys_no_end h hno.1 hno.2 cr (hall [0x78])
    · intro hfound rest
      have hread := readCSI_found h hfound rest
      rw [Item.bytes, cons_append, cons_append, readKeysFrom_csi, hread]
      rfl

/-- The keys of the items, where a newline behind a carriage return is none of its own. -/
def keysOf : Bool → List Item → List Key
  | _, [] => []
  | cr, i :: items =>
    (if cr ∧ i = .control 0x0A then [] else i.keys) ++ keysOf (i = .control 0x0D) items

theorem readKeysFrom_items {items : List Item} (hok : ∀ i ∈ items, i.Ok)
    (hfound : ∀ i ∈ items, i.Found) (cr : Bool) :
    readKeysFrom cr (items.flatMap Item.bytes) = keysOf cr items := by
  induction items generalizing cr with
  | nil => rfl
  | cons i items ih =>
    have hi := hok i mem_cons_self
    have hrest := ih (fun j hj => hok j (mem_cons_of_mem i hj))
      (fun j hj => hfound j (mem_cons_of_mem i hj)) (i = .control 0x0D)
    rw [flatMap_cons, keysOf]
    split_ifs with hlf
    · obtain ⟨hcr, rfl⟩ := hlf
      rw [Item.bytes, singleton_append, readKeysFrom_cons, if_pos ⟨hcr, rfl⟩, nil_append]
      exact hrest
    · rw [(readKeysFrom_item hi cr hlf).mpr (hfound i mem_cons_self), hrest]

/-- No carriage return stands directly before a newline. -/
def NoCRLF (items : List Item) : Prop :=
  items.IsChain fun i j => ¬(i = .control 0x0D ∧ j = .control 0x0A)

theorem length_keysOf_le (cr : Bool) (items : List Item) :
    (keysOf cr items).length ≤ (items.flatMap Item.keys).length := by
  induction items generalizing cr with
  | nil => exact le_rfl
  | cons i items ih =>
    have := ih (i = .control 0x0D)
    rw [keysOf, flatMap_cons, length_append, length_append]
    split_ifs
    · rw [length_nil]
      omega
    · omega

theorem keysOf_eq_iff {items : List Item} {cr : Bool} : keysOf cr items = items.flatMap Item.keys ↔
    ¬(cr ∧ items.head? = some (.control 0x0A)) ∧ NoCRLF items := by
  induction items generalizing cr with
  | nil => simp [keysOf, NoCRLF]
  | cons i items ih =>
    rw [keysOf, flatMap_cons, head?_cons, Option.some.injEq]
    split_ifs with hlf
    · -- the key of the newline is missing
      refine iff_of_false (fun heq => ?_) fun h => h.1 hlf
      have hle := length_keysOf_le (i = .control 0x0D) items
      have hkey : (Item.control 0x0A).keys.length = 1 := by decide
      rw [← nil_append (keysOf _ _), heq, hlf.2, length_append, hkey] at hle
      omega
    · rw [append_cancel_left_eq, ih, NoCRLF, NoCRLF, isChain_cons]
      simp only [hlf, not_false_eq_true, true_and, decide_eq_true_eq, not_and]
      refine and_congr_left fun _ => ⟨fun h j hj hi heq => h hi (heq ▸ hj), fun h hi hj => ?_⟩
      exact h _ hj hi rfl

/-- Each item is read as a whole whatever stands behind it exactly where `readCSI` finds its end.
Items for which it does give their keys in order exactly if no newline stands behind a carriage
return. -/
theorem readKeys_items (items : List Item) (hok : ∀ i ∈ items, i.Ok) :
    (∀ i ∈ items, (∀ rest, readKeys (i.bytes ++ rest) =
      i.keys ++ readKeysFrom (i = .control 0x0D) rest) ↔ i.Found) ∧
    ((∀ i ∈ items, i.Found) →
      (readKeys (items.flatMap Item.bytes) = items.flatMap Item.keys ↔ NoCRLF items)) := by
  constructor
  · intro i hi
    exact readKeysFrom_item (hok i hi) false (by simp)
  · intro hfound
    rw [readKeys, readKeysFrom_items hok hfound, keysOf_eq_iff]
    simp

/-- "é", an arrow, Ctrl-A, and a colour sequence that has no key. -/
theorem readKeys_items_mixed :
    readKeys ([.char 0xE9, .csi [] [] 0x41, .control 0x01, .csi [0x33, 0x31] [] 0x6D].flatMap
      Item.bytes) = [.keyRune 0xE9, .keyUp, .keyCtrlA] :=
  ((readKeys_items _ (by decide)).2 (by decide)).mpr (by simp [NoCRLF])

/-- Inserting a blank, `ESC [ @`, takes the `x` behind it along, a cursor report with ten parameter
bytes leaves `2R` behind, and the newline behind a carriage return is no key. -/
theorem readKeys_unknown_sequences :
    (∀ i ∈ [Item.csi [] [] 0x40, .char 0x78], i.Ok) ∧
      readKeys ([Item.csi [] [] 0x40, .char 0x78].flatMap Item.bytes) = [] ∧
      (Item.csi (lit "1234567;12") [] 0x52).Ok ∧
      readKeys (Item.csi (lit "1234567;12") [] 0x52).bytes = [.keyRune 0x32, .keyRune 0x52] ∧
      readKeys ([Item.control 0x0D, .control 0x0A].flatMap Item.bytes) = [.keyEnter] := by
  decide

end Centaurx.SshServer
