import Centaurx.Lib.Utf8

namespace Centaurx.Go
open List

/-- `unicode.IsSpace`. -/
def isSpace (r : ℕ) : Bool :=
  (0x09 ≤ r && r ≤ 0x0D) || r = 0x20 || r = 0x85 || r = 0xA0 || r = 0x1680 ||
    (0x2000 ≤ r && r ≤ 0x200A) || r = 0x2028 || r = 0x2029 || r = 0x202F || r = 0x205F ||
    r = 0x3000

/-- No rune of the string is white space. -/
def spaceFree (s : GoString) : Bool := (runes s).all fun r => !isSpace r.1

def chunksN : ℕ → GoString → List (ℕ × GoString)
  | 0, _ => []
  | _ + 1, [] => []
  | n + 1, b :: s =>
    ((decodeRune (b :: s)).1, (b :: s).take (decodeRune (b :: s)).2) ::
      chunksN n ((b :: s).drop (decodeRune (b :: s)).2)

/-- The runes of a string, each with the bytes it was read from. -/
def chunks (s : GoString) : List (ℕ × GoString) := chunksN s.length s

theorem chunksN_of_le (s : GoString) {m n : ℕ} (hm : s.length ≤ m) (hn : s.length ≤ n) :
    chunksN m s = chunksN n s := by
  refine rounds_of_le (fun n => ?_) (fun b s m n h => ?_) s hm hn
  · cases n <;> rfl
  · rw [chunksN, chunksN, h _ (drop_rune_length b s)]

theorem chunks_cons (b : UInt8) (s : GoString) :
    chunks (b :: s) =
      ((decodeRune (b :: s)).1, (b :: s).take (decodeRune (b :: s)).2) ::
        chunks ((b :: s).drop (decodeRune (b :: s)).2) := by
  rw [chunks, length_cons, chunksN, chunks, chunksN_of_le _ (drop_rune_length b s) le_rfl]

theorem chunks_flatten (s : GoString) : (chunks s).flatMap Prod.snd = s := by
  induction s using rune_induction with
  | nil => rfl
  | cons b s ih => rw [chunks_cons, flatMap_cons, ih, take_append_drop]

variable {s : GoString}

theorem chunks_ne_nil : ∀ c ∈ chunks s, c.2 ≠ [] := by
  induction s using rune_induction with
  | nil => simp [chunks, chunksN]
  | cons b s ih =>
    have hpos := decodeRune_pos b s
    intro c hc
    rw [chunks_cons] at hc
    rcases mem_cons.mp hc with rfl | hc
    · simp
      omega
    · exact ih c hc

theorem chunks_runes (s : GoString) : (chunks s).map Prod.fst = (runes s).map Prod.fst := by
  induction s using rune_induction with
  | nil => rfl
  | cons b s ih => rw [chunks_cons, runes_cons, map_cons, map_cons, ih]

theorem chunks_append {t : GoString} (ht : Boundary t) (s : GoString) :
    chunks (s ++ t) = chunks s ++ chunks t := by
  induction s using rune_induction with
  | nil => simp [chunks, chunksN]
  | cons b s ih =>
    have hd := decodeRune_append (s := b :: s) (by simp) ht
    rw [cons_append] at hd
    rw [cons_append, chunks_cons, chunks_cons b s, hd, ← cons_append,
      drop_append_of_le_length (decodeRune_le b s),
      take_append_of_le_length (decodeRune_le b s), ih, cons_append]

theorem spaceFree_iff_chunks : spaceFree s = true ↔ ∀ c ∈ chunks s, isSpace c.1 = false := by
  have h : ∀ r, (r ∈ (chunks s).map Prod.fst ↔ r ∈ (runes s).map Prod.fst) := by
    intro r
    rw [chunks_runes]
  simp only [mem_map] at h
  simp only [spaceFree, all_eq_true, Bool.not_eq_true']
  constructor
  · intro hs c hc
    obtain ⟨r, hr, hrc⟩ := (h c.1).mp ⟨c, hc, rfl⟩
    rw [← hrc]
    exact hs r hr
  · intro hs r hr
    obtain ⟨c, hc, hcr⟩ := (h r.1).mpr ⟨r, hr, rfl⟩
    rw [← hcr]
    exact hs c hc

section WordsOf
variable {α : Type*} {p : α → Bool}

/-- The longest runs of entries that are no breaks. -/
def wordsOf (p : α → Bool) (l : List α) : List (List α) := (l.splitOnP p).filter (· ≠ [])

@[simp]
theorem wordsOf_nil : wordsOf p [] = [] := by simp [wordsOf, splitOnP_nil]

theorem wordsOf_append_cons {c : α} (hc : p c = true) (l m : List α) :
    wordsOf p (l ++ c :: m) = wordsOf p l ++ wordsOf p m := by
  rw [wordsOf, splitOnP_append_cons l m hc, filter_append, wordsOf, wordsOf]

theorem wordsOf_breaks_append {l : List α} (hl : ∀ c ∈ l, p c = true) (m : List α) :
    wordsOf p (l ++ m) = wordsOf p m := by
  induction l with
  | nil => rfl
  | cons c l ih =>
    rw [forall_mem_cons] at hl
    have hcut := wordsOf_append_cons hl.1 [] (l ++ m)
    rw [wordsOf_nil, nil_append, nil_append] at hcut
    rw [cons_append, hcut, ih hl.2]

theorem wordsOf_breaks {l : List α} (hl : ∀ c ∈ l, p c = true) : wordsOf p l = [] := by
  have h := wordsOf_breaks_append hl []
  rwa [append_nil, wordsOf_nil] at h

theorem wordsOf_append_breaks {m : List α} (hm : ∀ c ∈ m, p c = true) (l : List α) :
    wordsOf p (l ++ m) = wordsOf p l := by
  cases m with
  | nil => rw [append_nil]
  | cons c m =>
    rw [forall_mem_cons] at hm
    rw [wordsOf_append_cons hm.1, wordsOf_breaks hm.2, append_nil]

theorem wordsOf_of_no_break {l : List α} (hne : l ≠ []) (hl : ∀ c ∈ l, p c = false) :
    wordsOf p l = [l] := by
  rw [wordsOf, splitOnP_eq_singleton hl]
  simp [hne]

theorem wordsOf_append_word {l w : List α} (hl : ∀ c ∈ l.getLast?, p c = true) (hne : w ≠ [])
    (hw : ∀ c ∈ w, p c = false) : wordsOf p (l ++ w) = wordsOf p l ++ [w] := by
  rcases eq_nil_or_concat l with rfl | ⟨l, c, rfl⟩
  · rw [nil_append, wordsOf_of_no_break hne hw, wordsOf_nil, nil_append]
  · rw [concat_eq_append] at hl ⊢
    rw [getLast?_concat] at hl
    have hc : p c = true := hl c rfl
    have hend := wordsOf_append_cons hc l []
    rw [wordsOf_nil, append_nil] at hend
    rw [append_assoc, singleton_append, wordsOf_append_cons hc,
      wordsOf_of_no_break hne hw, hend]

end WordsOf

variable {b : UInt8}

theorem boundary_ascii (hb : b < 0x80) (s : GoString) : Boundary (b :: s) := by
  have h : b.toNat < 0x80 := UInt8.lt_iff_toNat_lt.mp hb
  simp only [Boundary, head?_cons, Option.mem_def, Option.some.injEq, forall_eq']
  rw [← Bool.not_eq_true, cont_iff]
  omega

theorem boundary_nil : Boundary [] := by simp [Boundary]

/-- `strings.Fields`. -/
def fields (s : GoString) : List GoString :=
  (((chunks s).splitOnP (fun c => isSpace c.1)).filter (· ≠ [])).map (flatMap Prod.snd)

/-- The fields of a text that is read into runes. -/
def chunkFields (cs : List (ℕ × GoString)) : List GoString :=
  (wordsOf (fun c => isSpace c.1) cs).map (flatMap Prod.snd)

theorem fields_eq (s : GoString) : fields s = chunkFields (chunks s) := rfl

@[simp]
theorem fields_nil : fields [] = [] := by decide

theorem chunkFields_append_cons {c : ℕ × GoString} (hc : isSpace c.1 = true)
    (cs ds : List (ℕ × GoString)) :
    chunkFields (cs ++ c :: ds) = chunkFields cs ++ chunkFields ds := by
  have hsplit := @wordsOf_append_cons (ℕ × GoString) (fun c => isSpace c.1) c hc cs ds
  rw [chunkFields, hsplit, map_append, chunkFields, chunkFields]

theorem chunkFields_spaces_append {cs : List (ℕ × GoString)} (hcs : ∀ c ∈ cs, isSpace c.1 = true)
    (ds : List (ℕ × GoString)) : chunkFields (cs ++ ds) = chunkFields ds := by
  rw [chunkFields, wordsOf_breaks_append hcs, chunkFields]

theorem chunkFields_append_spaces {ds : List (ℕ × GoString)} (hds : ∀ c ∈ ds, isSpace c.1 = true)
    (cs : List (ℕ × GoString)) : chunkFields (cs ++ ds) = chunkFields cs := by
  rw [chunkFields, wordsOf_append_breaks hds, chunkFields]

theorem fields_append_cons (hb : b < 0x80) (hs : isSpace b.toNat = true) (s t : GoString) :
    fields (s ++ b :: t) = fields s ++ fields t := by
  have hc : chunks (b :: t) = (b.toNat, [b]) :: chunks t := by
    rw [chunks_cons, decodeRune_ascii hb]
    rfl
  rw [fields_eq, fields_eq, fields_eq, chunks_append (boundary_ascii hb t), hc,
    @chunkFields_append_cons (b.toNat, [b]) hs]

theorem fields_append_space (s t : GoString) : fields (s ++ 0x20 :: t) = fields s ++ fields t :=
  fields_append_cons (by decide) (by decide) s t

theorem fields_of_spaceFree (hs : s ≠ []) (h : spaceFree s = true) : fields s = [s] := by
  have hne : chunks s ≠ [] := by
    intro h0
    have := chunks_flatten s
    rw [h0] at this
    exact hs this.symm
  rw [fields, splitOnP_eq_singleton (spaceFree_iff_chunks.mp h)]
  simp [hne, chunks_flatten]

theorem flatten_filter_ne_nil {α : Type*} [DecidableEq α] (ls : List (List α)) :
    (ls.filter (· ≠ [])).flatten = ls.flatten := by
  induction ls with
  | nil => rfl
  | cons l ls ih =>
    by_cases hl : l = []
    · simp_all
    · simp_all

theorem flatMap_flatten {α β : Type*} (f : α → List β) (ls : List (List α)) :
    ls.flatten.flatMap f = (ls.map (flatMap f)).flatten := by
  induction ls with
  | nil => rfl
  | cons l ls ih =>
    rw [flatten_cons, flatMap_append, ih, map_cons, flatten_cons]

theorem splitOnP_flatten {α : Type*} (p : α → Bool) (l : List α) :
    (l.splitOnP p).flatten = l.filter (fun a => !p a) := by
  induction l with
  | nil => rfl
  | cons a l ih =>
    rw [splitOnP_cons_eq_if_modifyHead]
    obtain ⟨x, xs, hx⟩ := exists_cons_of_ne_nil (splitOnP_ne_nil p l)
    rw [hx] at ih ⊢
    cases hp : p a <;> simp_all

theorem fields_flatten (s : GoString) :
    (fields s).flatten = ((chunks s).filter (fun c => !isSpace c.1)).flatMap Prod.snd := by
  rw [← splitOnP_flatten, ← flatten_filter_ne_nil (splitOnP _ _), fields,
    flatMap_flatten]

theorem filter_chunks_length {cs : List (ℕ × GoString)} (q : ℕ × GoString → Bool)
    (hne : ∀ c ∈ cs, c.2 ≠ []) :
    ((cs.filter q).flatMap Prod.snd).length ≤ (cs.flatMap Prod.snd).length ∧
      (((cs.filter q).flatMap Prod.snd).length = (cs.flatMap Prod.snd).length →
        ∀ c ∈ cs, q c = true) := by
  induction cs with
  | nil => simp
  | cons c cs ih =>
    obtain ⟨hle, heq⟩ := ih (fun d hd => hne d (mem_cons_of_mem _ hd))
    have hc : 0 < c.2.length := length_pos_iff.mpr (hne c (by simp))
    cases hq : q c with
    | true =>
      simp only [filter_cons, hq, if_true, flatMap_cons, length_append]
      refine ⟨by omega, ?_⟩
      intro h
      exact forall_mem_cons.mpr ⟨hq, heq (by omega)⟩
    | false =>
      simp only [filter_cons, hq, Bool.false_eq_true, if_false, flatMap_cons,
        length_append]
      exact ⟨by omega, fun h => absurd h (by omega)⟩

theorem fields_flatten_length_le (s : GoString) : (fields s).flatten.length ≤ s.length := by
  have h := (filter_chunks_length (fun c => !isSpace c.1) (chunks_ne_nil (s := s))).1
  rwa [← fields_flatten, chunks_flatten] at h

/-- Only white space is lost. -/
theorem spaceFree_of_fields_length (h : s.length ≤ (fields s).flatten.length) :
    spaceFree s = true := by
  have heq := (filter_chunks_length (fun c => !isSpace c.1) (chunks_ne_nil (s := s))).2
  rw [← fields_flatten, chunks_flatten] at heq
  have hle := fields_flatten_length_le s
  rw [spaceFree_iff_chunks]
  intro c hc
  simpa using heq (by omega) c hc

theorem spaceFree_append {t : GoString} (ht : Boundary t) (s : GoString) :
    spaceFree (s ++ t) = (spaceFree s && spaceFree t) := by
  rw [spaceFree, runes_append ht, all_append]
  rfl

theorem spaceFree_ascii_cons (hb : b < 0x80) (s : GoString) :
    spaceFree (b :: s) = (!isSpace b.toNat && spaceFree s) := by
  rw [spaceFree, runes_ascii_cons hb, all_cons]
  rfl

theorem spaceFree_append_cons (hb : b < 0x80) (hs : isSpace b.toNat = false) (s t : GoString) :
    spaceFree (s ++ b :: t) = (spaceFree s && spaceFree t) := by
  rw [spaceFree_append (boundary_ascii hb t), spaceFree_ascii_cons hb, hs]
  simp

theorem spaceFree_of_ascii (h : ∀ b ∈ s, b < 0x80 ∧ isSpace b.toNat = false) :
    spaceFree s = true := by
  induction s with
  | nil => rfl
  | cons b s ih =>
    obtain ⟨hb, hsp⟩ := h b (by simp)
    rw [spaceFree_ascii_cons hb, hsp, ih (fun c hc => h c (mem_cons_of_mem _ hc))]
    rfl

theorem spaceFree_intercalate (hb : b < 0x80) (hs : isSpace b.toNat = false) (es : List GoString) :
    spaceFree ([b].intercalate es) = true ↔ ∀ e ∈ es, spaceFree e = true := by
  induction es with
  | nil => simp [spaceFree]
  | cons e es ih =>
    cases es with
    | nil => simp
    | cons f es =>
      rw [intercalate_cons_cons, append_assoc, singleton_append,
        spaceFree_append_cons hb hs, Bool.and_eq_true, ih]
      simp only [mem_cons, forall_eq_or_imp]

/-- `strings.TrimPrefix`. -/
def trimPrefix (s p : GoString) : GoString := if p.isPrefixOf s then s.drop p.length else s

/-- `strings.TrimSuffix`. -/
def trimSuffix (s p : GoString) : GoString :=
  if p.isSuffixOf s then s.take (s.length - p.length) else s

theorem trimPrefix_cases (s p : GoString) :
    (p.isPrefixOf s = true ∧ s = p ++ trimPrefix s p) ∨
      (p.isPrefixOf s = false ∧ trimPrefix s p = s) := by
  rw [trimPrefix]
  split_ifs with h
  · obtain ⟨t, rfl⟩ := isPrefixOf_iff_prefix.mp h
    exact .inl ⟨h, by simp⟩
  · exact .inr ⟨Bool.eq_false_iff.mpr h, rfl⟩

theorem trimSuffix_cases (s p : GoString) :
    (p.isSuffixOf s = true ∧ s = trimSuffix s p ++ p) ∨
      (p.isSuffixOf s = false ∧ trimSuffix s p = s) := by
  rw [trimSuffix]
  split_ifs with h
  · obtain ⟨t, rfl⟩ := isSuffixOf_iff_suffix.mp h
    exact .inl ⟨h, by simp⟩
  · exact .inr ⟨Bool.eq_false_iff.mpr h, rfl⟩

theorem stripN_spec (pieces : List GoString) (n : ℕ) (s : GoString) :
    ∃ ps : List GoString, (∀ p ∈ ps, p ∈ pieces) ∧ s = ps.flatten ++ stripN pieces n s := by
  induction n generalizing s with
  | zero => exact ⟨[], by simp, rfl⟩
  | succ n ih =>
    rw [stripN]
    split
    · rename_i rest hrest
      obtain ⟨p, hp, hdrop⟩ := exists_of_findSome?_eq_some hrest
      obtain ⟨ps, hps, hs⟩ := ih rest
      refine ⟨p :: ps, forall_mem_cons.mpr ⟨hp, hps⟩, ?_⟩
      rw [flatten_cons, append_assoc, ← hs]
      obtain ⟨q, rfl, hq⟩ := dropPrefix?_eq_some_iff.mp hdrop
      rw [eq_of_beq hq]
    · exact ⟨[], by simp, rfl⟩

/-- `TrimSpace` takes white space off both ends. -/
theorem trimSpace_spec (s : GoString) :
    ∃ l r : List GoString, (∀ p ∈ l, p ∈ spaces) ∧ (∀ p ∈ r, p ∈ spaces) ∧
      s = l.flatten ++ trimSpace s ++ r.flatten := by
  obtain ⟨l, hl, hs⟩ := stripN_spec spaces s.length s
  obtain ⟨q, hq, hr⟩ := stripN_spec (spaces.map reverse)
    (stripN spaces s.length s).length (stripN spaces s.length s).reverse
  refine ⟨l, (q.map reverse).reverse, hl, ?_, ?_⟩
  · intro p hp
    simp only [mem_reverse, mem_map] at hp
    obtain ⟨x, hx, rfl⟩ := hp
    obtain ⟨y, hy, rfl⟩ := mem_map.mp (hq x hx)
    simpa using hy
  · have hr' := congrArg reverse hr
    rw [reverse_reverse, reverse_append, reverse_flatten] at hr'
    rw [append_assoc, trimSpace]
    conv_lhs => rw [hs, hr']

theorem trimSpace_ne_nil (hb : ∀ p ∈ spaces, p.head? ≠ some b) : trimSpace (b :: s) ≠ [] := by
  intro h
  obtain ⟨l, r, hl, hr, hs⟩ := trimSpace_spec (b :: s)
  rw [h, append_nil, ← flatten_append] at hs
  have hall : ∀ p ∈ l ++ r, p ∈ spaces := by
    intro p hp
    exact (mem_append.mp hp).elim (hl p) (hr p)
  cases hlr : l ++ r with
  | nil => rw [hlr] at hs; simp at hs
  | cons p ps =>
    have hp : p ∈ spaces := hall p (by simp [hlr])
    have hne : p ≠ [] := by
      rintro rfl
      exact absurd hp (by decide)
    obtain ⟨c, p, rfl⟩ := exists_cons_of_ne_nil hne
    rw [hlr, flatten_cons, cons_append] at hs
    exact hb _ hp (by simp [(cons.inj hs).1])

theorem mem_spaces {p : GoString} (hp : p ∈ spaces) :
    ∃ r, Scalar r ∧ isSpace r = true ∧ p = encodeRune r := by
  have h : ∀ p ∈ spaces, (decodeRune p).1 < 0xD800 ∧ isSpace (decodeRune p).1 = true ∧
      p = encodeRune (decodeRune p).1 := by decide
  obtain ⟨h1, h2, h3⟩ := h p hp
  exact ⟨_, .inl h1, h2, h3⟩

theorem boundary_encodeRune (r : ℕ) (t : GoString) : Boundary (encodeRune r ++ t) := by
  obtain ⟨b, bs, henc, hb, -⟩ := encodeRune_cons r
  simpa [Boundary, henc] using hb

theorem boundary_ofRunes (rs : List ℕ) : Boundary (ofRunes rs) := by
  cases rs with
  | nil => exact boundary_nil
  | cons r rs => exact boundary_encodeRune r _

theorem trimSpace_of_spaceFree (h : spaceFree s = true) : trimSpace s = s := by
  obtain ⟨l, r, hl, hr, hs⟩ := trimSpace_spec s
  have hl0 : l = [] := by
    cases l with
    | nil => rfl
    | cons p l =>
      obtain ⟨n, hn, hsp, rfl⟩ := mem_spaces (hl p (by simp))
      rw [hs, flatten_cons, append_assoc, append_assoc, spaceFree,
        runes_encodeRune_append hn, all_cons, hsp] at h
      exact absurd h (by simp)
  subst hl0
  cases r with
  | nil => simpa using hs.symm
  | cons p r =>
    obtain ⟨n, hn, hsp, rfl⟩ := mem_spaces (hr p (by simp))
    rw [hs, flatten_nil, nil_append, flatten_cons,
      spaceFree_append (boundary_encodeRune n _), Bool.and_eq_true, spaceFree,
      spaceFree, runes_encodeRune_append hn, all_cons, hsp] at h
    exact absurd h.2 (by simp)

theorem dropPrefix?_eq_none {p : GoString} : s.dropPrefix? p = none ↔ ¬p <+: s := by
  constructor
  · rintro h ⟨t, rfl⟩
    have : (p ++ t).dropPrefix? p = some t :=
      dropPrefix?_eq_some_iff.mpr ⟨p, rfl, beq_self_eq_true p⟩
    rw [h] at this
    cases this
  · intro h
    cases hd : s.dropPrefix? p with
    | none => rfl
    | some t =>
      obtain ⟨q, rfl, hq⟩ := dropPrefix?_eq_some_iff.mp hd
      exact absurd ⟨t, by rw [eq_of_beq hq]⟩ h

theorem stripN_of_not_prefix {pieces : List GoString} (h : ∀ p ∈ pieces, ¬p <+: s) (n : ℕ) :
    stripN pieces n s = s := by
  have hnone : pieces.findSome? (fun p => s.dropPrefix? p) = none :=
    findSome?_eq_none_iff.mpr fun p hp => dropPrefix?_eq_none.mpr (h p hp)
  cases n with
  | zero => rfl
  | succ n => rw [stripN, hnone]

theorem stripN_not_prefix {pieces : List GoString} (hne : ∀ p ∈ pieces, p ≠ []) (n : ℕ)
    (s : GoString) (hn : s.length ≤ n) : ∀ p ∈ pieces, ¬p <+: stripN pieces n s := by
  induction n generalizing s with
  | zero =>
    obtain rfl : s = [] := length_eq_zero_iff.mp (by omega)
    intro p hp h
    exact hne p hp (prefix_nil.mp h)
  | succ n ih =>
    rw [stripN]
    split
    · rename_i rest hrest
      obtain ⟨p, hp, hdrop⟩ := exists_of_findSome?_eq_some hrest
      obtain ⟨q, rfl, hq⟩ := dropPrefix?_eq_some_iff.mp hdrop
      have hpos := length_pos_of_ne_nil (hne p hp)
      rw [eq_of_beq hq, length_append] at hn
      exact ih rest (by omega)
    · rename_i hnone
      exact fun p hp => dropPrefix?_eq_none.mp (findSome?_eq_none_iff.mp hnone p hp)

theorem trimSpace_eq_self (hstart : ∀ p ∈ spaces, ¬p <+: s) (hend : ∀ p ∈ spaces, ¬p <:+ s) :
    trimSpace s = s := by
  have hreverse : ∀ p ∈ spaces.map reverse, ¬p <+: s.reverse := by
    intro p hp
    obtain ⟨q, hq, rfl⟩ := mem_map.mp hp
    rw [ reverse_prefix]
    exact hend q hq
  rw [trimSpace, stripN_of_not_prefix hstart, stripN_of_not_prefix hreverse, reverse_reverse]

theorem trimSpace_not_suffix (s : GoString) : ∀ p ∈ spaces, ¬p <:+ trimSpace s := by
  have hne : ∀ p ∈ spaces.map reverse, p ≠ [] := by decide
  intro p hp
  rw [← reverse_prefix, trimSpace, reverse_reverse]
  exact stripN_not_prefix hne _ _ (by simp) _ (mem_map_of_mem hp)

theorem not_isPrefixOf_trimSpace (s : GoString) : ∀ p ∈ spaces, ¬p <+: trimSpace s := by
  have hne : ∀ p ∈ spaces, p ≠ [] := by decide
  simp only [trimSpace]
  generalize hl : stripN spaces s.length s = left
  have hleft : ∀ p ∈ spaces, ¬p <+: left := hl ▸ stripN_not_prefix hne _ s le_rfl
  -- What is taken off on the right does not change how the text begins.
  have hpre : (stripN (spaces.map reverse) left.length left.reverse).reverse <+: left := by
    obtain ⟨ps, -, hs⟩ := stripN_spec (spaces.map reverse) left.length left.reverse
    rw [← reverse_suffix, reverse_reverse]
    exact ⟨_, hs.symm⟩
  exact fun p hp h => hleft p hp (h.trans hpre)

theorem trimSpace_trimSpace (s : GoString) : trimSpace (trimSpace s) = trimSpace s :=
  trimSpace_eq_self (not_isPrefixOf_trimSpace s) (trimSpace_not_suffix s)

theorem dropPrefix?_append_newline (hne : s ≠ []) {p : GoString} (hp : p ∈ spaces) :
    (s ++ [0x0A]).dropPrefix? p = (s.dropPrefix? p).map (· ++ [0x0A]) := by
  cases hs : s.dropPrefix? p with
  | some rest =>
    obtain ⟨q, rfl, hq⟩ := dropPrefix?_eq_some_iff.mp hs
    rw [Option.map_some, append_assoc]
    exact dropPrefix?_eq_some_iff.mpr ⟨q, rfl, hq⟩
  | none =>
    rw [Option.map_none, dropPrefix?_eq_none, prefix_concat_iff]
    rintro (hall | hpre)
    · have hlast : ∀ p ∈ spaces, p.getLast? = some 0x0A → p = [0x0A] := by decide
      have hone := hlast p hp (by rw [hall, getLast?_concat])
      rw [hone] at hall
      rw [← nil_append [0x0A]] at hall
      exact hne (append_cancel_right hall).symm
    · exact dropPrefix?_eq_none.mp hs hpre

theorem stripN_append_newline (n : ℕ) (s : GoString) (hn : s.length ≤ n) :
    stripN spaces (n + 1) (s ++ [0x0A]) =
      if stripN spaces n s = [] then [] else stripN spaces n s ++ [0x0A] := by
  induction n generalizing s with
  | zero =>
    rw [eq_nil_of_length_eq_zero (Nat.le_zero.mp hn)]
    rfl
  | succ n ih =>
    by_cases hne : s = []
    · have hnil : ∀ p ∈ spaces, ¬p <+: ([] : GoString) := by decide
      have hstep : spaces.findSome? (fun p => ([0x0A] : GoString).dropPrefix? p) = some [] := rfl
      rw [hne, nil_append, stripN, hstep, stripN_of_not_prefix hnil, if_pos rfl]
      exact stripN_of_not_prefix hnil _
    · rw [stripN, stripN]
      cases hs : spaces.findSome? fun p => s.dropPrefix? p with
      | none =>
        have hnone : spaces.findSome? (fun p => (s ++ [0x0A]).dropPrefix? p) = none := by
          rw [findSome?_eq_none_iff] at hs ⊢
          intro p hp
          rw [dropPrefix?_append_newline hne hp, hs p hp, Option.map_none]
        rw [hnone]
        exact (if_neg hne).symm
      | some rest =>
        obtain ⟨before, p, behind, hspaces, hp, hbefore⟩ := findSome?_eq_some_iff.mp hs
        have hmem : p ∈ spaces := hspaces ▸ mem_append_right _ mem_cons_self
        have hsome : spaces.findSome? (fun p => (s ++ [0x0A]).dropPrefix? p) =
            some (rest ++ [0x0A]) := by
          refine findSome?_eq_some_iff.mpr ⟨before, p, behind, hspaces, ?_, fun q hq => ?_⟩
          · rw [dropPrefix?_append_newline hne hmem, hp, Option.map_some]
          · have hq' : q ∈ spaces := hspaces ▸ mem_append_left _ hq
            rw [dropPrefix?_append_newline hne hq', hbefore q hq, Option.map_none]
        rw [hsome]
        obtain ⟨q, rfl, hq⟩ := dropPrefix?_eq_some_iff.mp hp
        have hpos : 0 < q.length := by
          have hnonempty : ∀ p ∈ spaces, p ≠ [] := by decide
          rw [eq_of_beq hq]
          exact length_pos_of_ne_nil (hnonempty p hmem)
        rw [length_append] at hn
        exact ih rest (by omega)

theorem trimSpace_append_newline (s : GoString) : trimSpace (s ++ [0x0A]) = trimSpace s := by
  have hleft := stripN_append_newline s.length s le_rfl
  rw [trimSpace, trimSpace, length_append, length_singleton, hleft]
  split_ifs with hnil
  · rw [hnil]
  · have hstep : ∀ t : GoString, (spaces.map reverse).findSome?
        (fun p => ((0x0A : UInt8) :: t).dropPrefix? p) = some t := fun t => by
      simp [spaces, dropPrefix?]
    rw [reverse_append, length_append, length_singleton, reverse_singleton,
      singleton_append, stripN, hstep]

theorem chunks_encodeRune {r : ℕ} (hr : Scalar r) (t : GoString) :
    chunks (encodeRune r ++ t) = (r, encodeRune r) :: chunks t := by
  obtain ⟨b, bs, henc, -⟩ := encodeRune_cons r
  have hd := decodeRune_encodeRune hr t
  rw [henc, cons_append] at hd ⊢
  rw [chunks_cons, hd, ← cons_append, take_left, drop_left]

theorem chunks_spaces {ps : List GoString} (hps : ∀ p ∈ ps, p ∈ spaces) :
    Boundary ps.flatten ∧ (∀ c ∈ chunks ps.flatten, isSpace c.1 = true) ∧
      ∀ t, chunks (ps.flatten ++ t) = chunks ps.flatten ++ chunks t := by
  induction ps with
  | nil => exact ⟨boundary_nil, by simp [chunks, chunksN], fun t => rfl⟩
  | cons p ps ih =>
    rw [forall_mem_cons] at hps
    obtain ⟨r, hr, hsp, rfl⟩ := mem_spaces hps.1
    obtain ⟨-, hspaces, happend⟩ := ih hps.2
    refine ⟨boundary_encodeRune r _, ?_, fun t => ?_⟩
    · rw [flatten_cons, chunks_encodeRune hr, forall_mem_cons]
      exact ⟨hsp, hspaces⟩
    · rw [flatten_cons, append_assoc, chunks_encodeRune hr, chunks_encodeRune hr, happend]
      rfl

theorem fields_trimSpace (s : GoString) : fields (trimSpace s) = fields s := by
  obtain ⟨l, r, hl, hr, hs⟩ := trimSpace_spec s
  obtain ⟨-, hleft, happend⟩ := chunks_spaces hl
  obtain ⟨hbound, hright, -⟩ := chunks_spaces hr
  conv_rhs =>
    rw [hs, fields_eq, chunks_append hbound, chunkFields_append_spaces hright, happend,
      chunkFields_spaces_append hleft]
  rfl

theorem mem_trimSpace (hb : ∀ p ∈ spaces, b ∉ p) (h : b ∈ s) : b ∈ trimSpace s := by
  obtain ⟨l, r, hl, hr, hs⟩ := trimSpace_spec s
  rw [hs, mem_append, mem_append, mem_flatten, mem_flatten] at h
  rcases h with (⟨p, hp, hbp⟩ | h) | ⟨p, hp, hbp⟩
  · exact absurd hbp (hb p (hl p hp))
  · exact h
  · exact absurd hbp (hb p (hr p hp))

theorem mem_spaces_of_chunk {c : ℕ × GoString} (hc : c ∈ chunks s) (hsp : isSpace c.1 = true) :
    c.2 ∈ spaces := by
  have hencode : ∀ r, isSpace r = true → encodeRune r ∈ spaces := by
    intro r hr
    simp only [isSpace, Bool.or_eq_true, Bool.and_eq_true, decide_eq_true_eq] at hr
    rcases hr with (((((((((⟨hlo, hhi⟩ | rfl) | rfl) | rfl) | rfl) | ⟨hlo, hhi⟩) | rfl) | rfl) |
      rfl) | rfl) | rfl
    · interval_cases r <;> decide
    · decide
    · decide
    · decide
    · decide
    · interval_cases r <;> decide
    all_goals decide
  induction s using rune_induction with
  | nil => simp [chunks, chunksN] at hc
  | cons b s ih =>
    rw [chunks_cons, mem_cons] at hc
    rcases hc with rfl | hc
    · rcases decodeRune_spec b s with herr | ⟨r, t, -, hs, hd⟩
      · have hno : ¬isSpace runeError = true := by decide
        rw [herr] at hsp
        exact absurd hsp hno
      · rw [hd] at hsp ⊢
        simp only [hs, take_left]
        exact hencode r hsp
    · exact ih hc

theorem chunks_of_fields_nil (h : fields s = []) : ∀ c ∈ chunks s, isSpace c.1 = true := by
  have hfields := fields_flatten s
  rw [h, flatten_nil, eq_comm, flatMap_eq_nil_iff] at hfields
  intro c hc
  by_contra hsp
  exact chunks_ne_nil c hc (hfields c (mem_filter.mpr ⟨hc, by simp [hsp]⟩))

theorem space_suffix_of_fields (h : fields s = []) (hne : s ≠ []) : ∃ p ∈ spaces, p <:+ s := by
  have hflat := chunks_flatten s
  have hall := chunks_of_fields_nil h
  rcases eq_nil_or_concat (chunks s) with h0 | ⟨cs, c, hcs⟩
  · rw [h0] at hflat
    exact absurd hflat.symm hne
  · have hc : c ∈ chunks s := by simp [hcs]
    refine ⟨c.2, mem_spaces_of_chunk hc (hall c hc), cs.flatMap Prod.snd, ?_⟩
    rw [← hflat, hcs]
    simp

theorem blank_iff : blank s = true ↔ ∀ r ∈ toRunes s, isSpace r = true := by
  have hrunes : toRunes s = (chunks s).map Prod.fst := by rw [toRunes, chunks_runes]
  rw [blank, decide_eq_true_iff, hrunes]
  constructor
  · intro htrim r hr
    obtain ⟨c, hc, rfl⟩ := mem_map.mp hr
    have hfields : fields s = [] := by rw [← fields_trimSpace, htrim, fields_nil]
    exact chunks_of_fields_nil hfields c hc
  · intro hall
    have hfields : fields (trimSpace s) = [] := by
      rw [fields_trimSpace, fields_eq, chunkFields, wordsOf_breaks]
      · rfl
      · exact fun c hc => hall _ (mem_map_of_mem hc)
    by_contra hne
    obtain ⟨p, hp, hsuffix⟩ := space_suffix_of_fields hfields hne
    exact trimSpace_not_suffix s p hp hsuffix

end Centaurx.Go
