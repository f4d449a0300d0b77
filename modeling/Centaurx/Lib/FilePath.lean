import Centaurx.Lib.GoString

namespace Centaurx.FilePath
open Go List

def sep : UInt8 := 0x2F
def dot : GoString := [0x2E]
def dotdot : GoString := [0x2E, 0x2E]

def isAbs (p : GoString) : Bool := p.head? = some sep

/-- What is between the slashes. -/
def elements (p : GoString) : List GoString := p.splitOn sep

/-- One element is resolved: empty ones and `.` vanish, and `..` takes back the name before
it. At the root there is nothing to take back, and in a relative path the `..` stays. -/
def push (rooted : Bool) (out : List GoString) (e : GoString) : List GoString :=
  if e = [] ∨ e = dot then out
  else if e = dotdot then
    match out.getLast? with
    | none => if rooted then [] else [dotdot]
    | some last => if last = dotdot then out ++ [dotdot] else out.dropLast
  else out ++ [e]

def resolve (rooted : Bool) (es : List GoString) : List GoString := es.foldl (push rooted) []

/-- The path with the given elements. -/
def render (rooted : Bool) (es : List GoString) : GoString :=
  if rooted then sep :: [sep].intercalate es
  else if es = [] then dot
  else [sep].intercalate es

/-- The elements that remain of a path. -/
def parts (p : GoString) : List GoString := resolve (isAbs p) (elements p)

def clean (p : GoString) : GoString := render (isAbs p) (parts p)

def join (elem : List GoString) : GoString :=
  match elem.dropWhile (· = []) with
  | [] => []
  | es => clean ([sep].intercalate es)

/-- The elements that two paths have in common at the start are dropped. -/
def dropCommon : List GoString → List GoString → List GoString × List GoString
  | b :: bs, t :: ts => if b = t then dropCommon bs ts else (b :: bs, t :: ts)
  | bs, ts => (bs, ts)

/-- `filepath.Rel`: up from what is left of the base and down to the target. -/
def rel (basepath targpath : GoString) : Option GoString :=
  if clean targpath = clean basepath then some dot
  else if isAbs basepath ≠ isAbs targpath then none
  else
    let left := dropCommon (parts basepath) (parts targpath)
    if left.1.head? = some dotdot then none
    else some ([sep].intercalate (replicate left.1.length dotdot ++ left.2))

/-- The last element, as `path.Base` has it. -/
def base (p : GoString) : GoString :=
  if p = [] then dot
  else
    let last := ((p.reverse.dropWhile (· = sep)).takeWhile (· ≠ sep)).reverse
    if last = [] then [sep] else last

/-- `p` lies below `dir`: of two rooted paths, `p` has the elements of `dir` and more. -/
structure StrictlyInside (dir p : GoString) : Prop where
  dir_abs : isAbs dir = true
  abs : isAbs p = true
  below : parts dir <+: parts p
  ne : parts dir ≠ parts p

/-- A path element that names a file or a directory. -/
structure Plain (e : GoString) : Prop where
  ne_nil : e ≠ []
  ne_dot : e ≠ dot
  ne_dotdot : e ≠ dotdot
  sep_notMem : sep ∉ e

/-- Names, after some `..` if the path is relative. -/
def Normal (rooted : Bool) (es : List GoString) : Prop :=
  ∃ k names, es = replicate k dotdot ++ names ∧ (rooted = true → k = 0) ∧
    ∀ e ∈ names, Plain e

variable {rooted : Bool} {es : List GoString} {e p q : GoString}

theorem push_plain (he : Plain e) (out : List GoString) : push rooted out e = out ++ [e] := by
  simp [push, he.ne_nil, he.ne_dot, he.ne_dotdot]

theorem push_dotdot_append (he : Plain e) (out : List GoString) :
    push rooted (out ++ [e]) dotdot = out := by
  have hne : dotdot ≠ [] := by decide
  have hnd : dotdot ≠ dot := by decide
  simp [push, hne, hnd, he.ne_dotdot]

theorem push_dotdot_replicate (k : ℕ) :
    push false (replicate k dotdot) dotdot = replicate (k + 1) dotdot := by
  have hne : dotdot ≠ [] := by decide
  have hnd : dotdot ≠ dot := by decide
  cases k with
  | zero => simp [push, hne, hnd]
  | succ k =>
    rw [replicate_succ', push]
    simp [hne, hnd, replicate_succ']

theorem Normal.nil : Normal rooted [] := ⟨0, [], rfl, fun _ => rfl, by simp⟩

theorem Normal.push (h : Normal rooted es) (he : sep ∉ e) : Normal rooted (push rooted es e) := by
  obtain ⟨k, names, rfl, hk, hnames⟩ := h
  by_cases h0 : e = [] ∨ e = dot
  · rw [FilePath.push, if_pos h0]
    exact ⟨k, names, rfl, hk, hnames⟩
  by_cases hdd : e = dotdot
  · subst hdd
    rcases eq_nil_or_concat names with rfl | ⟨init, last, rfl⟩
    · rw [append_nil]
      cases rooted with
      | true =>
        -- Nothing is above the root.
        obtain rfl := hk rfl
        exact Normal.nil
      | false =>
        rw [push_dotdot_replicate]
        exact ⟨k + 1, [], by simp, by simp, by simp⟩
    · have hl : Plain last := hnames last (by simp)
      rw [concat_eq_append, ← append_assoc, push_dotdot_append hl]
      exact ⟨k, init, rfl, hk, fun x hx => hnames x (by simp [hx])⟩
  · have hp : Plain e := ⟨fun h => h0 (.inl h), fun h => h0 (.inr h), hdd, he⟩
    rw [push_plain hp, append_assoc]
    refine ⟨k, names ++ [e], rfl, hk, ?_⟩
    intro x hx
    rcases mem_append.mp hx with hx | hx
    · exact hnames x hx
    · obtain rfl := mem_singleton.mp hx
      exact hp

theorem push_dotdot_rooted (h : Normal true es) : FilePath.push true es dotdot = es.dropLast := by
  obtain ⟨k, names, rfl, hk, hnames⟩ := h
  obtain rfl := hk rfl
  rw [replicate_zero, nil_append]
  rcases eq_nil_or_concat names with rfl | ⟨init, last, rfl⟩
  · rfl
  · rw [concat_eq_append, push_dotdot_append (hnames last (by simp)), dropLast_concat]

theorem sep_notMem_elements (p : GoString) : ∀ e ∈ elements p, sep ∉ e := by
  induction p with
  | nil => simp [elements]
  | cons b p ih =>
    intro e he
    rw [elements, splitOn_cons_eq_if_modifyHead] at he
    split at he
    · rcases mem_cons.mp he with rfl | he
      · simp
      · exact ih e he
    · rename_i hb
      obtain ⟨x, xs, hx⟩ := exists_cons_of_ne_nil (splitOn_ne_nil sep p)
      rw [hx, modifyHead_cons] at he
      have hall : ∀ y ∈ x :: xs, sep ∉ y := by
        rw [← hx]
        exact ih
      rcases mem_cons.mp he with rfl | he
      · simp only [mem_cons, not_or]
        exact ⟨fun h => hb (by simp [h]), hall x (by simp)⟩
      · exact hall e (by simp [he])

theorem foldl_push_normal (hes : Normal rooted es) (fs : List GoString)
    (hfs : ∀ f ∈ fs, sep ∉ f) : Normal rooted (fs.foldl (FilePath.push rooted) es) := by
  induction fs generalizing es with
  | nil => exact hes
  | cons f fs ih => exact ih (hes.push (hfs f (by simp))) (fun x hx => hfs x (by simp [hx]))

theorem parts_normal (p : GoString) : Normal (isAbs p) (parts p) :=
  foldl_push_normal Normal.nil _ (sep_notMem_elements p)

theorem foldl_push_plain (names out : List GoString) (h : ∀ e ∈ names, Plain e) :
    names.foldl (push rooted) out = out ++ names := by
  induction names generalizing out with
  | nil => simp
  | cons e names ih =>
    rw [foldl_cons, push_plain (h e (by simp)), ih _ (fun x hx => h x (by simp [hx]))]
    simp

theorem foldl_push_replicate (k : ℕ) :
    (replicate k dotdot).foldl (push false) [] = replicate k dotdot := by
  induction k with
  | zero => rfl
  | succ k ih => rw [replicate_succ', foldl_append, ih, foldl_cons, foldl_nil,
      push_dotdot_replicate, replicate_succ']

theorem Normal.resolve (h : Normal rooted es) : resolve rooted es = es := by
  obtain ⟨k, names, rfl, hk, hnames⟩ := h
  have hdots : (replicate k dotdot).foldl (FilePath.push rooted) [] =
      replicate k dotdot := by
    cases rooted with
    | true =>
      obtain rfl := hk rfl
      rfl
    | false => exact foldl_push_replicate k
  rw [FilePath.resolve, foldl_append, hdots, foldl_push_plain names _ hnames]

theorem Normal.forall_mem {P : GoString → Prop} (h : Normal rooted es) (hdots : P dotdot)
    (hplain : ∀ e, Plain e → P e) : ∀ e ∈ es, P e := by
  obtain ⟨k, names, rfl, -, hnames⟩ := h
  intro e he
  rcases mem_append.mp he with he | he
  · rw [eq_of_mem_replicate he]
    exact hdots
  · exact hplain e (hnames e he)

theorem Normal.sep_notMem (h : Normal rooted es) : ∀ e ∈ es, sep ∉ e :=
  h.forall_mem (by decide) fun _ he => he.sep_notMem

theorem Normal.ne_nil (h : Normal rooted es) : ∀ e ∈ es, e ≠ [] :=
  h.forall_mem (by decide) fun _ he => he.ne_nil

theorem Normal.ne_dot (h : Normal rooted es) : ∀ e ∈ es, e ≠ dot :=
  h.forall_mem (by decide) fun _ he => he.ne_dot

theorem Normal.plain (h : Normal true es) : ∀ e ∈ es, Plain e := by
  obtain ⟨k, names, rfl, hk, hnames⟩ := h
  obtain rfl := hk rfl
  exact hnames

theorem elements_render (h : Normal rooted es) (hes : es ≠ []) :
    elements (render rooted es) = if rooted then [] :: es else es := by
  have hsplit := splitOn_intercalate sep h.sep_notMem hes
  cases rooted with
  | true => simp [render, elements, splitOn_cons_eq_if_modifyHead, hsplit]
  | false => simp [render, elements, hes, hsplit]

theorem isAbs_render (h : Normal rooted es) : isAbs (render rooted es) = rooted := by
  cases rooted with
  | true => simp [render, isAbs]
  | false =>
    cases es with
    | nil => decide
    | cons e es =>
      obtain ⟨b, e', rfl⟩ := exists_cons_of_ne_nil (h.ne_nil e (by simp))
      have hb : sep ≠ b := fun hb => h.sep_notMem (b :: e') (by simp) (by simp [hb])
      cases es with
      | nil => simpa [render, isAbs] using hb.symm
      | cons f es => simpa [render, isAbs, intercalate_cons_cons] using hb.symm

theorem parts_render (h : Normal rooted es) : parts (render rooted es) = es := by
  rw [parts, isAbs_render h]
  by_cases hes : es = []
  · subst hes
    cases rooted <;> decide
  · rw [elements_render h hes]
    cases rooted with
    | true => simpa [FilePath.resolve, FilePath.push] using h.resolve
    | false => simpa using h.resolve

theorem isAbs_clean (p : GoString) : isAbs (clean p) = isAbs p := isAbs_render (parts_normal p)

theorem parts_clean (p : GoString) : parts (clean p) = parts p := parts_render (parts_normal p)

theorem clean_clean (p : GoString) : clean (clean p) = clean p := by
  rw [clean, isAbs_clean, parts_clean, ← clean]

theorem isAbs_append (hp : p ≠ []) (q : GoString) : isAbs (p ++ q) = isAbs p := by
  obtain ⟨b, p', rfl⟩ := exists_cons_of_ne_nil hp
  simp [isAbs]

theorem parts_append_sep (hp : p ≠ []) (q : GoString) :
    parts (p ++ sep :: q) = (elements q).foldl (push (isAbs p)) (parts p) := by
  rw [parts, isAbs_append hp, elements, splitOn_append_cons_self, resolve,
    foldl_append]
  rfl

theorem join_cons (hp : p ≠ []) (es : List GoString) :
    join (p :: es) = clean ([sep].intercalate (p :: es)) := by
  simp [join, hp]

theorem join_pair (hp : p ≠ []) (q : GoString) : join [p, q] = clean (p ++ sep :: q) := by
  rw [join_cons hp]
  simp

theorem isAbs_join_pair (hp : p ≠ []) (q : GoString) : isAbs (join [p, q]) = isAbs p := by
  rw [join_pair hp, isAbs_clean, isAbs_append hp]

theorem clean_join_pair (hp : p ≠ []) (q : GoString) : clean (join [p, q]) = join [p, q] := by
  rw [join_pair hp, clean_clean]

theorem parts_join_plain (hp : p ≠ []) (he : Plain e) :
    parts (join [p, e]) = parts p ++ [e] := by
  rw [join_pair hp, parts_clean, parts_append_sep hp, elements,
    splitOn_eq_singleton he.sep_notMem, foldl_cons, foldl_nil, push_plain he]

theorem parts_join_dot (hp : p ≠ []) : parts (join [p, dot]) = parts p := by
  rw [join_pair hp, parts_clean, parts_append_sep hp]
  rfl

theorem parts_join_dotdot (hp : isAbs p = true) :
    parts (join [p, dotdot]) = (parts p).dropLast := by
  have hne : p ≠ [] := by
    rintro rfl
    simp [isAbs] at hp
  have hnorm := parts_normal p
  rw [hp] at hnorm
  rw [join_pair hne, parts_clean, parts_append_sep hne, hp]
  exact push_dotdot_rooted hnorm

theorem join_ne_nil (hp : p ≠ []) (q : GoString) : join [p, q] ≠ [] := by
  rw [join_pair hp, clean, render]
  split
  · simp
  split
  · decide
  · rename_i hes
    intro h
    rcases h1 : parts (p ++ sep :: q) with _ | ⟨x, xs⟩
    · exact hes h1
    · have hx : x ≠ [] := (parts_normal (p ++ sep :: q)).ne_nil x (by simp [h1])
      rw [h1] at h
      cases xs with
      | nil => exact hx (by simpa using h)
      | cons y ys => simp [intercalate_cons_cons] at h

theorem join_triple (hp : p ≠ []) (q e : GoString) :
    join [p, q, e] = join [join [p, q], e] := by
  have h1 : join [p, q, e] = clean ((p ++ sep :: q) ++ sep :: e) := by
    rw [join_cons hp]
    simp [intercalate_cons_cons]
  have hpq : p ++ sep :: q ≠ [] := by simp
  have hj : join [p, q] ≠ [] := join_ne_nil hp q
  rw [h1, join_pair hj, clean, clean, isAbs_append hpq, isAbs_append hj, parts_append_sep hpq,
    parts_append_sep hj, join_pair hp, isAbs_clean, parts_clean]

/-- Below a rooted directory, a name gives a path strictly inside. -/
theorem strictlyInside_join (hp : isAbs p = true) (he : Plain e) :
    StrictlyInside p (join [p, e]) := by
  have hne : p ≠ [] := by
    rintro rfl
    simp [isAbs] at hp
  have hparts := parts_join_plain hne he
  refine ⟨hp, by rw [isAbs_join_pair hne, hp], ⟨[e], hparts.symm⟩, ?_⟩
  rw [hparts]
  simp

theorem join_plain_inj (hp : p ≠ []) {f : GoString} (he : Plain e) (hf : Plain f)
    (h : join [p, e] = join [p, f]) : e = f := by
  have hparts := congrArg parts h
  rw [parts_join_plain hp he, parts_join_plain hp hf] at hparts
  simpa using hparts

theorem eq_of_parts (hp : clean p = p) (hq : clean q = q) (ha : isAbs p = isAbs q)
    (h : parts p = parts q) : p = q := by
  rw [← hp, ← hq, clean, clean, ha, h]

theorem base_eq (hp : p ≠ []) (hlast : p.getLast? ≠ some sep) :
    base p = lastPart (· = sep) p ∧ base p ≠ [] := by
  obtain ⟨b, t, ht⟩ := exists_cons_of_ne_nil (reverse_ne_nil_iff.mpr hp)
  have hb : b ≠ sep := by
    rintro rfl
    rw [← head?_reverse, ht] at hlast
    exact hlast rfl
  simp only [base, if_neg hp, lastPart, rtakeWhile, ht]
  simp [hb]

theorem base_append (hsep : sep ∈ p) (hlast : p.getLast? ≠ some sep) (q : GoString) :
    base (q ++ p) = base p := by
  have hp : p ≠ [] := ne_nil_of_mem hsep
  have hlast' : (q ++ p).getLast? ≠ some sep := by rwa [getLast?_append_of_ne_nil _ hp]
  rw [(base_eq (by simp [hp]) hlast').1, (base_eq hp hlast).1]
  obtain ⟨s, t, rfl⟩ := append_of_mem hsep
  rw [← append_assoc, lastPart_append_cons (by simp), lastPart_append_cons (by simp)]

theorem base_of_sep_notMem (hp : p ≠ []) (hsep : sep ∉ p) : base p = p := by
  have hlast : p.getLast? ≠ some sep := fun h => hsep (mem_of_getLast? h)
  rw [(base_eq hp hlast).1]
  exact lastPart_eq_self fun b hb => decide_eq_false fun h => hsep (h ▸ hb)

theorem base_spec (p : GoString) :
    base p = dot ∨ base p = [sep] ∨
      ∃ before after, p = before ++ (base p ++ after) ∧
        (before = [] ∨ ∃ before', before = before' ++ [sep]) ∧
        (after = [] ∨ ∃ after', after = sep :: after') := by
  simp only [base]
  split_ifs with hp hlast
  · exact .inl rfl
  · exact .inr (.inl rfl)
  · right
    right
    have h1 := takeWhile_append_dropWhile (p := (· = sep)) (l := p.reverse)
    have h2 := takeWhile_append_dropWhile (p := (· ≠ sep))
      (l := p.reverse.dropWhile (· = sep))
    refine ⟨((p.reverse.dropWhile (· = sep)).dropWhile (· ≠ sep)).reverse,
      (p.reverse.takeWhile (· = sep)).reverse, ?_, ?_, ?_⟩
    · rw [← reverse_append, ← reverse_append, append_assoc, h2, h1,
        reverse_reverse]
    · rcases hd : (p.reverse.dropWhile (· = sep)).dropWhile (· ≠ sep) with _ | ⟨c, d⟩
      · exact .inl rfl
      · have hc := head?_dropWhile_not (· ≠ sep) (p.reverse.dropWhile (· = sep))
        rw [hd] at hc
        exact .inr ⟨d.reverse, by simp at hc; simp [hc]⟩
    · rcases ht : (p.reverse.takeWhile (· = sep)).reverse with _ | ⟨c, d⟩
      · exact .inl rfl
      · have hc : c ∈ p.reverse.takeWhile (· = sep) := by
          rw [← mem_reverse, ht]
          simp
        have := all_eq_true.mp (all_takeWhile (p := (· = sep)) (l := p.reverse)) c hc
        exact .inr ⟨d, by simp at this; simp [this]⟩

theorem dropCommon_spec (bs ts : List GoString) :
    ∃ common, bs = common ++ (dropCommon bs ts).1 ∧ ts = common ++ (dropCommon bs ts).2 := by
  fun_induction dropCommon bs ts with
  | case1 bs b ts ih =>
    obtain ⟨common, h1, h2⟩ := ih
    exact ⟨b :: common, congrArg (b :: ·) h1, congrArg (b :: ·) h2⟩
  | case2 b bs t ts | case3 bs ts => exact ⟨[], rfl, rfl⟩

theorem dropCommon_append (bs ts : List GoString) : dropCommon bs (bs ++ ts) = ([], ts) := by
  induction bs with
  | nil => cases ts <;> rfl
  | cons b bs ih => simp [dropCommon, ih]

/-- The elements of a path below a directory: what is left when both are resolved. -/
def below (dir p : GoString) : Option (List GoString) :=
  if (parts dir).isPrefixOf (parts p) then some ((parts p).drop (parts dir).length) else none

variable {ts : List GoString}

theorem below_eq_some {dir : GoString} : below dir p = some ts ↔ parts p = parts dir ++ ts := by
  rw [below]
  split_ifs with h
  · obtain ⟨rest, hrest⟩ := isPrefixOf_iff_prefix.mp h
    rw [← hrest, drop_left, Option.some_inj, append_cancel_left_eq]
  · refine iff_of_false (by simp) fun hp => h ?_
    rw [hp, isPrefixOf_iff_prefix]
    exact prefix_append _ _

/-- A relative path that does not go up leads to a target below the base. -/
theorem rel_below {r : GoString} (h : rel p q = some r) (hup : dotdot.isPrefixOf r = false) :
    isAbs q = isAbs p ∧ ∃ ts, parts q = parts p ++ ts ∧
      r = if ts = [] then dot else [sep].intercalate ts := by
  simp only [rel] at h
  split_ifs at h with hclean habs hhead
  · obtain rfl := Option.some.inj h
    refine ⟨by rw [← isAbs_clean, hclean, isAbs_clean], [], ?_, rfl⟩
    rw [← parts_clean, hclean, parts_clean, append_nil]
  · obtain ⟨common, hb, ht⟩ := dropCommon_spec (parts p) (parts q)
    generalize dropCommon (parts p) (parts q) = left at h hb ht
    obtain ⟨bs, ts⟩ := left
    obtain rfl := Option.some.inj h
    simp only at hb ht hup
    obtain rfl : bs = [] := by
      cases bs with
      | nil => rfl
      | cons b bs =>
        rw [length_cons, replicate_succ, cons_append] at hup
        cases hl : replicate bs.length dotdot ++ ts with
        | nil => exact absurd hup (by rw [hl]; decide)
        | cons x xs => simp [dotdot, isPrefixOf] at hup
    have habs' : isAbs q = isAbs p := by simpa using (not_not.mp habs).symm
    rw [append_nil] at hb
    have hne : ts ≠ [] := by
      rintro rfl
      rw [append_nil] at ht
      exact hclean (by rw [clean, clean, habs', ht, hb])
    exact ⟨habs', ts, by rw [ht, hb], by rw [if_neg hne]; rfl⟩

theorem rel_of_append (ha : isAbs q = isAbs p) (hts : ts ≠ []) (h : parts q = parts p ++ ts) :
    rel p q = some ([sep].intercalate ts) := by
  have hclean : clean q ≠ clean p := by
    intro hc
    have := congrArg parts hc
    rw [parts_clean, parts_clean, h] at this
    simp [hts] at this
  rw [rel, if_neg hclean, if_neg (by simp [ha]), h, dropCommon_append]
  simp

theorem intercalate_concat (hts : ts ≠ []) (e : GoString) :
    [sep].intercalate (ts ++ [e]) = [sep].intercalate ts ++ sep :: e := by
  induction ts with
  | nil => exact absurd rfl hts
  | cons t ts ih =>
    cases ts with
    | nil => simp [intercalate_cons_cons]
    | cons u us =>
      have := ih (by simp)
      simp only [cons_append] at this
      simp [intercalate_cons_cons, this]

theorem intercalate_ne_dot (hts : ts ≠ []) (h : ∀ e ∈ ts, e ≠ dot) :
    [sep].intercalate ts ≠ dot := by
  intro hd
  match ts with
  | [t] => exact h t (by simp) (by simpa using hd)
  | t :: u :: us =>
    have hsep : sep ∈ [sep].intercalate (t :: u :: us) := by simp [intercalate_cons_cons]
    rw [hd] at hsep
    exact absurd hsep (by decide)

theorem join_intercalate (hp : p ≠ []) (hts : ts ≠ []) (e : GoString) :
    join [p, [sep].intercalate (ts ++ [e])] = join [join [p, [sep].intercalate ts], e] := by
  rw [← join_triple hp, intercalate_concat hts, join_pair hp, join_cons hp]
  simp [intercalate_cons_cons]

theorem join_names (hp : p ≠ []) (hts : ts ≠ []) (hplain : ∀ e ∈ ts, Plain e) :
    join [p, [sep].intercalate ts] = render (isAbs p) (parts p ++ ts) := by
  have helements : elements ([sep].intercalate ts) = ts :=
    splitOn_intercalate sep (fun e he => (hplain e he).sep_notMem) hts
  rw [join_pair hp, clean, isAbs_append hp, parts_append_sep hp, helements,
    foldl_push_plain ts _ hplain]

theorem join_plain (hp : p ≠ []) (he : Plain e) :
    join [p, e] = render (isAbs p) (parts p ++ [e]) := by
  rw [← clean_join_pair hp, clean, isAbs_join_pair hp, parts_join_plain hp he]

theorem head?_intercalate {t : GoString} (ht : t ≠ []) (ts : List GoString) :
    ([sep].intercalate (t :: ts)).head? = t.head? := by
  obtain ⟨b, t', rfl⟩ := exists_cons_of_ne_nil ht
  cases ts <;> simp [intercalate_cons_cons]

theorem head?_join_plain (hp : p ≠ []) (he : Plain e) :
    (join [p, e]).head? = (if clean p = dot then e else clean p).head? := by
  rw [join_plain hp he, clean]
  have hnorm := parts_normal p
  cases habs : isAbs p with
  | true =>
    have : render true (parts p) ≠ dot := by simp [render, dot, sep]
    rw [if_neg this]
    simp [render]
  | false =>
    rw [habs] at hnorm
    cases hparts : parts p with
    | nil => simp [render]
    | cons t ts =>
      rw [hparts] at hnorm
      have ht : t ≠ [] := hnorm.ne_nil t (by simp)
      have hdot : render false (t :: ts) ≠ dot := by
        intro h
        have := congrArg parts h
        rw [parts_render hnorm] at this
        exact absurd this (by rw [show parts dot = [] by decide]; simp)
      rw [if_neg hdot]
      simp [render, head?_intercalate ht]

theorem mem_push {x : GoString} {out : List GoString} (h : x ∈ push rooted out e) :
    x ∈ out ∨ x = e := by
  rw [push] at h
  split at h
  · exact .inl h
  split at h
  · rename_i hdd
    subst hdd
    split at h
    · split at h
      · simp at h
      · exact .inr (mem_singleton.mp h)
    · split at h
      · exact (mem_append.mp h).imp_right mem_singleton.mp
      · exact .inl (dropLast_subset _ h)
  · exact (mem_append.mp h).imp_right mem_singleton.mp

theorem mem_parts {x : GoString} (h : x ∈ parts p) : x ∈ elements p := by
  have hfold : ∀ es out : List GoString,
      x ∈ es.foldl (push (isAbs p)) out → x ∈ out ∨ x ∈ es := by
    intro es
    induction es with
    | nil => exact fun out h => .inl h
    | cons e es ih =>
      intro out h
      rcases ih _ h with h | h
      · exact (mem_push h).imp_right fun h => by simp [h]
      · exact .inr (by simp [h])
  exact (hfold _ _ h).resolve_left (by simp)

end Centaurx.FilePath
