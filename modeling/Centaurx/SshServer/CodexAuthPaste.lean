import Centaurx.SshServer.Keys
import Centaurx.SshServer.LineEditing
import Centaurx.SshServer.Session

namespace Centaurx.SshServer
open Go Runs List
open LineEditor (isNewline)

/-- The text with every line break as a newline. -/
def unixBreaks : List ℕ → List ℕ
  | [] => []
  | [r] => [if r = 0x0D then 0x0A else r]
  | r :: r' :: rest =>
    if r = 0x0D ∧ r' = 0x0A then 0x0A :: unixBreaks rest
    else (if r = 0x0D then 0x0A else r) :: unixBreaks (r' :: rest)

/-- A rune that can be pasted: a line break or a character. -/
def Pastable (r : ℕ) : Prop := r = 0x0A ∨ r = 0x0D ∨ (0x20 ≤ r ∧ r ≠ 0x7F)

instance : DecidablePred Pastable := fun _ => inferInstanceAs (Decidable (_ ∨ _))

/-- What was saved. -/
def saves (trace : List Act) : List GoString :=
  trace.filterMap fun
    | .saveCodexAuth payload => some payload
    | _ => none

def textItem (r : ℕ) : Item := if r = 0x0A ∨ r = 0x0D then .control (UInt8.ofNat r) else .char r

theorem textItem_bytes (r : ℕ) : (textItem r).bytes = encodeRune r := by
  rw [textItem]
  split_ifs with h
  · rcases h with rfl | rfl <;> rfl
  · rfl

theorem textItem_ok {r : ℕ} (hscalar : Scalar r) (h : Pastable r) : (textItem r).Ok := by
  rw [textItem]
  split_ifs with hbreak
  · rcases hbreak with rfl | rfl <;> decide
  · rcases h with h | h | h
    · exact absurd (.inl h) hbreak
    · exact absurd (.inr h) hbreak
    · exact ⟨hscalar, h⟩

theorem textItem_found (r : ℕ) : (textItem r).Found := by
  rw [textItem]
  split_ifs <;> exact trivial

theorem textItem_lf {r : ℕ} : textItem r = .control 0x0A ↔ r = 0x0A := by
  rw [textItem]
  split_ifs with h
  · rcases h with rfl | rfl <;> decide
  · simp
    omega

theorem textItem_cr {r : ℕ} : textItem r = .control 0x0D ↔ r = 0x0D := by
  rw [textItem]
  split_ifs with h
  · rcases h with rfl | rfl <;> decide
  · simp
    omega

/-- The key puts this rune into the dialog. -/
inductive Types : Key → ℕ → Prop
  | rune {r : ℕ} (h : r ≠ 0x0A) : Types (.keyRune r) r
  | enter : Types .keyEnter 0x0A
  | ctrlJ : Types .keyCtrlJ 0x0A

theorem textItem_types (r : ℕ) :
    ∃ k, (textItem r).keys = [k] ∧ Types k (if r = 0x0D then 0x0A else r) := by
  rw [textItem]
  split_ifs with h hcr hcr
  · exact ⟨.keyEnter, by rw [hcr]; rfl, .enter⟩
  · rw [h.resolve_right hcr]
    exact ⟨.keyCtrlJ, rfl, .ctrlJ⟩
  · exact absurd (.inr hcr) h
  · exact ⟨.keyRune r, rfl, .rune fun hlf => h (.inl hlf)⟩

theorem keysOf_cr_cons {i : Item} (h : i ≠ .control 0x0A) (cr : Bool) (items : List Item) :
    keysOf cr (i :: items) = keysOf false (i :: items) := by
  rw [keysOf, keysOf, if_neg (fun hlf => h hlf.2), if_neg (fun hlf => h hlf.2)]

theorem keysOf_text (rs : List ℕ) :
    List.Forall₂ Types (keysOf false (rs.map textItem)) (unixBreaks rs) := by
  fun_induction unixBreaks rs with
  | case1 => exact .nil
  | case2 r =>
    obtain ⟨k, hk, htypes⟩ := textItem_types r
    rw [map_singleton, keysOf, if_neg (by simp), hk]
    exact .cons htypes .nil
  | case3 r r' rest h ih =>
    obtain ⟨rfl, rfl⟩ := h
    exact .cons .enter ih
  | case4 r r' rest h ih =>
    obtain ⟨k, hk, htypes⟩ := textItem_types r
    rw [map_cons, keysOf, if_neg (by simp), hk, singleton_append]
    refine .cons htypes ?_
    by_cases hlf : r' = 0x0A
    · have hcr : ¬textItem r = .control 0x0D := fun hcr => h ⟨textItem_cr.mp hcr, hlf⟩
      rw [decide_eq_false hcr]
      exact ih
    · rw [map_cons, keysOf_cr_cons (fun h => hlf (textItem_lf.mp h))]
      exact ih

theorem keysOf_concat (items : List Item) (cr : Bool) {i : Item} (h : i ≠ .control 0x0A) :
    keysOf cr (items ++ [i]) = keysOf cr items ++ i.keys := by
  induction items generalizing cr with
  | nil =>
    have hkeys : keysOf cr [i] = (if cr ∧ i = .control 0x0A then [] else i.keys) ++ [] := rfl
    rw [nil_append, hkeys, if_neg (fun hlf => h hlf.2), append_nil]
    rfl
  | cons j items ih => rw [cons_append, keysOf, ih, keysOf, append_assoc]

theorem flatMap_textItem (rs : List ℕ) : (rs.map textItem).flatMap Item.bytes = ofRunes rs := by
  rw [flatMap_map, ofRunes]
  exact congrArg (rs.flatMap ·) (funext textItem_bytes)

theorem readKeys_text {s : GoString} (hvalid : ofRunes (toRunes s) = s)
    (h : ∀ r ∈ toRunes s, Pastable r) :
    readKeys (s ++ [0x04]) = keysOf false ((toRunes s).map textItem) ++ [.keyCtrlD] := by
  have hbytes : ((toRunes s).map textItem ++ [Item.control 0x04]).flatMap Item.bytes =
      s ++ [0x04] := by
    rw [flatMap_append, flatMap_textItem, hvalid]
    rfl
  have hok : ∀ i ∈ (toRunes s).map textItem ++ [Item.control 0x04], i.Ok := by
    intro i hi
    rcases mem_append.mp hi with hi | hi
    · obtain ⟨r, hr, rfl⟩ := mem_map.mp hi
      exact textItem_ok (toRunes_scalar s r hr) (h r hr)
    · rw [mem_singleton.mp hi]
      decide
  have hfound : ∀ i ∈ (toRunes s).map textItem ++ [Item.control 0x04], i.Found := by
    intro i hi
    rcases mem_append.mp hi with hi | hi
    · obtain ⟨r, -, rfl⟩ := mem_map.mp hi
      exact textItem_found r
    · rw [mem_singleton.mp hi]
      trivial
  rw [← hbytes, readKeys, readKeysFrom_items hok hfound, keysOf_concat _ _ (by decide)]
  rfl

/-- A key that is pressed, and the answers to its calls. -/
def pressed (i : Key × Answers) : Input × Answers := (.key i.1, i.2)

namespace Session

variable {ans : Answers} {t : Session}

/-- The session is at the end of what was pasted into the dialog. -/
structure Pasted (t : Session) (rs : List ℕ) : Prop where
  codexauth : t.codexauth = true
  exited : t.exited = false
  editor : t.editor = .setString (rs.map (⟨·, true⟩))

theorem Pasted.text {rs : List ℕ} (h : t.Pasted rs) : (editorText t.editor).s = ofRunes rs := by
  rw [h.editor, editorText, LineEditor.setString_text, map_map]
  exact congrArg ofRunes (map_id rs)

theorem Pasted.insert {rs : List ℕ} (h : t.Pasted rs) (r : ℕ) :
    Pasted { t with editor := t.editor.insert (t.typed r) } (rs ++ [r]) := by
  refine ⟨h.codexauth, h.exited, ?_⟩
  have htyped : t.typed r = ⟨r, true⟩ := by rw [typed, h.codexauth, Bool.true_or]
  dsimp only
  rw [h.editor, htyped, map_append]
  rfl

theorem last_line {front line : List ℕ} (hfront : Zipper.Begins isNewline front)
    (hline : Zipper.Unbroken isNewline line) :
    ((ofRunes (front ++ line)).reverse.takeWhile (· ≠ 0x0A)).reverse = ofRunes line := by
  have hplain : ∀ b ∈ (ofRunes line).reverse, decide (b ≠ 0x0A) = true := by
    intro b hb
    obtain ⟨r, hr, hb⟩ := mem_flatMap.mp (mem_reverse.mp hb)
    have hr := hline r hr
    refine decide_eq_true fun heq => ?_
    rw [heq] at hb
    rw [mem_encodeRune_ascii hb (by decide)] at hr
    cases hr
  have hnone : (ofRunes front).reverse.takeWhile (· ≠ 0x0A) = [] := by
    rcases eq_nil_or_concat' front with rfl | ⟨pre, r, rfl⟩
    · rfl
    · rw [of_decide_eq_true (hfront r getLast?_concat), ofRunes_append, reverse_append]
      exact takeWhile_cons_of_neg (by decide)
  rw [ofRunes_append, reverse_append, takeWhile_append_of_pos hplain, hnone,
    append_nil, reverse_reverse]

/-- A rune goes into the dialog. A newline must not be behind a blank line. -/
theorem Pasted.key {front line : List ℕ} (h : t.Pasted (front ++ line))
    (hfront : Zipper.Begins isNewline front) (hline : Zipper.Unbroken isNewline line)
    (ans : Answers) {k : Key} {r : ℕ} (hk : Types k r)
    (hblank : r = 0x0A → blank (ofRunes line) = false) :
    (t.step (.key k, ans)).Pasted (front ++ line ++ [r]) ∧
      (t.step (.key k, ans)).trace = t.trace := by
  have hstep : t.step (.key k, ans) = t.handleCodexAuthKey ans k := by
    simp only [step, h.exited, handleKey, h.codexauth, Bool.false_eq_true, if_false, if_true]
  rw [hstep]
  cases hk with
  | rune hr => exact ⟨h.insert r, rfl⟩
  | enter | ctrlJ =>
    have hempty : t.codexAuthLineEmpty = false := by
      rw [codexAuthLineEmpty, h.text, last_line hfront hline, hblank rfl]
    rw [handleCodexAuthKey, hempty]
    exact ⟨h.insert 0x0A, rfl⟩

theorem Pasted.keys {inputs : List (Key × Answers)} {done todo : List ℕ} (h : t.Pasted done)
    (htypes : List.Forall₂ Types (inputs.map Prod.fst) todo)
    (hlines : ∀ front line rest, done ++ todo = front ++ line ++ 0x0A :: rest →
      Zipper.Begins isNewline front → Zipper.Unbroken isNewline line →
      blank (ofRunes line) = false) :
    (exec step t (inputs.map pressed)).Pasted (done ++ todo) ∧
      (exec step t (inputs.map pressed)).trace = t.trace := by
  induction inputs generalizing t done todo with
  | nil =>
    cases htypes
    rw [append_nil]
    exact ⟨h, rfl⟩
  | cons i inputs ih =>
    obtain ⟨k, ans⟩ := i
    cases htypes with
    | @cons _ r _ todo hk htypes =>
      have hfront := Zipper.begins_rdropWhile isNewline done
      have hline := Zipper.unbroken_rtakeWhile isNewline done
      have hsplit : done.rdropWhile (Zipper.plain isNewline) ++
          done.rtakeWhile (Zipper.plain isNewline) = done := rdropWhile_append_rtakeWhile
      have hkey := Pasted.key (hsplit.symm ▸ h) hfront hline ans hk fun hr =>
        hlines _ _ todo (by rw [hr, hsplit]) hfront hline
      rw [hsplit] at hkey
      rw [append_cons done r todo] at hlines ⊢
      obtain ⟨hpasted, htrace⟩ := ih hkey.1 htypes hlines
      exact ⟨hpasted, htrace.trans hkey.2⟩

theorem saves_call (a : Act) : saves (t.call a).trace = saves t.trace ++ saves [a] :=
  filterMap_append

theorem Pasted.finish {rs : List ℕ} (h : t.Pasted rs) (hne : trimSpace (ofRunes rs) ≠ []) :
    saves (t.step (.key .keyCtrlD, ans)).trace = saves t.trace ++ [trimSpace (ofRunes rs)] := by
  have hstep : t.step (.key .keyCtrlD, ans) = t.finishCodexAuth ans := by
    simp only [step, h.exited, handleKey, h.codexauth, Bool.false_eq_true, if_false, if_true]
    rfl
  have herror : ∀ (t : Session) tabID err, saves (t.appendError tabID err).trace =
      saves t.trace := by
    intro t tabID err
    rw [appendError]
    split_ifs
    · rfl
    · exact (saves_call _).trans (append_nil _)
  have hmessage : ∀ (t : Session) tabID message, saves (t.appendMessage tabID message).trace =
      saves t.trace := by
    intro t tabID message
    rw [appendMessage]
    split_ifs
    · rfl
    · exact (saves_call _).trans (append_nil _)
    · exact (saves_call _).trans (append_nil _)
  rw [hstep, finishCodexAuth, h.text]
  simp only [if_neg hne]
  split
  · rw [herror, saves_call]
    rfl
  · rw [hmessage, saves_call]
    rfl

end Session

theorem mem_dropLast_lines {front line rest : List ℕ} (hfront : Zipper.Begins isNewline front)
    (hline : Zipper.Unbroken isNewline line) :
    line ∈ ((front ++ line ++ 0x0A :: rest).splitOnP isNewline).dropLast := by
  have hsingle : line.splitOnP isNewline = [line] :=
    splitOnP_eq_singleton fun r hr => by simpa [Zipper.plain] using hline r hr
  have hlast : line ∈ (front ++ line).splitOnP isNewline := by
    rcases eq_nil_or_concat' front with rfl | ⟨pre, b, rfl⟩
    · rw [nil_append, hsingle]
      exact mem_singleton_self line
    · rw [append_assoc, singleton_append,
        splitOnP_append_cons _ _ (hfront b getLast?_concat), hsingle]
      exact mem_append_right _ (mem_singleton_self line)
  rw [splitOnP_append_cons _ _ rfl, dropLast_append_of_ne_nil (splitOnP_ne_nil _ _)]
  exact mem_append_left _ hlast

theorem mem_unixBreaks {r : ℕ} (hcr : r ≠ 0x0D) (hlf : r ≠ 0x0A) (rs : List ℕ) :
    r ∈ rs → r ∈ unixBreaks rs := by
  fun_induction unixBreaks rs with
  | case1 => exact id
  | case2 r' =>
    intro h
    obtain rfl := mem_singleton.mp h
    rw [if_neg hcr]
    exact h
  | case3 r' r'' rest h ih =>
    intro hr
    obtain ⟨rfl, rfl⟩ := h
    simp only [mem_cons, hcr, hlf, false_or] at hr ⊢
    exact ih hr
  | case4 r' r'' rest h ih =>
    intro hr
    rcases mem_cons.mp hr with rfl | hr
    · rw [if_neg hcr]
      exact mem_cons_self
    · exact mem_cons_of_mem _ (ih hr)

theorem scalar_unixBreaks {rs : List ℕ} (h : ∀ r ∈ rs, Scalar r) :
    ∀ r ∈ unixBreaks rs, Scalar r := by
  have hbreak : ∀ {r : ℕ}, Scalar r → Scalar (if r = 0x0D then 0x0A else r) := by
    intro r hr
    split_ifs
    · decide
    · exact hr
  fun_induction unixBreaks rs with
  | case1 => exact h
  | case2 r => simpa using hbreak (h r mem_cons_self)
  | case3 r r' rest _ ih =>
    refine forall_mem_cons.mpr ⟨by decide, ih fun r hr => h r ?_⟩
    exact mem_cons_of_mem _ (mem_cons_of_mem _ hr)
  | case4 r r' rest _ ih =>
    exact forall_mem_cons.mpr ⟨hbreak (h r mem_cons_self),
      ih fun r hr => h r (mem_cons_of_mem _ hr)⟩

theorem not_blank_unixBreaks {s : GoString} (h : blank s = false) :
    trimSpace (ofRunes (unixBreaks (toRunes s))) ≠ [] := by
  intro htrim
  have hspaces := blank_iff.mp (decide_eq_true htrim : blank _ = true)
  have hscalar := scalar_unixBreaks (toRunes_scalar s)
  rw [toRunes_ofRunes hscalar] at hspaces
  have hall : blank s = true := blank_iff.mpr fun r hr => by
    by_cases hcr : r = 0x0D
    · rw [hcr]
      rfl
    · by_cases hlf : r = 0x0A
      · rw [hlf]
        rfl
      · exact hspaces r (mem_unixBreaks hcr hlf _ hr)
  rw [hall] at h
  cases h

/-- A text is pasted into the open dialog, with Ctrl-D behind it. Its bytes come as keys, and the
text is saved once, with newlines for its line breaks and without white space around it. -/
theorem codexAuth_paste (t : Session) (hdialog : t.codexauth = true) (hempty : t.editor = .clear)
    (hopen : t.exited = false) (s : GoString) (hvalid : ofRunes (toRunes s) = s)
    (hpastable : ∀ r ∈ toRunes s, Pastable r) (hblank : blank s = false)
    (hlines : ∀ line ∈ ((unixBreaks (toRunes s)).splitOnP isNewline).dropLast,
      blank (ofRunes line) = false)
    (inputs : List (Key × Answers)) (hkeys : inputs.map Prod.fst = readKeys (s ++ [0x04])) :
    saves (exec Session.step t (inputs.map pressed)).trace =
      saves t.trace ++ [trimSpace (ofRunes (unixBreaks (toRunes s)))] := by
  rw [readKeys_text hvalid hpastable] at hkeys
  obtain ⟨text, last, rfl, htext, hlast⟩ := map_eq_append_iff.mp hkeys
  obtain ⟨⟨k, ans⟩, rfl, hk⟩ := map_eq_singleton_iff.mp hlast
  obtain rfl : k = .keyCtrlD := hk
  have hstart : t.Pasted [] := ⟨hdialog, hopen, hempty⟩
  obtain ⟨hpasted, htrace⟩ := hstart.keys (htext ▸ keysOf_text (toRunes s))
    fun front line rest hsplit hfront hline => hlines line <| by
      rw [nil_append] at hsplit
      rw [hsplit]
      exact mem_dropLast_lines hfront hline
  rw [map_append, exec_append, ← htrace]
  exact hpasted.finish (not_blank_unixBreaks hblank)

/-- A file from another system. -/
theorem codexAuth_paste_crlf :
    saves (exec Session.step { newTerminalSession true true with codexauth := true }
      (((readKeys (lit "\x7b\r\n\x7d\x04")).map (·, noAnswers)).map pressed)).trace =
      [lit "\x7b\n\x7d"] := by
  have hpaste := codexAuth_paste { newTerminalSession true true with codexauth := true } rfl rfl rfl
    (lit "\x7b\r\n\x7d") (by decide) (by decide) (by decide) (by decide)
    ((readKeys (lit "\x7b\r\n\x7d\x04")).map (·, noAnswers)) (by decide)
  exact hpaste.trans (by decide)

end Centaurx.SshServer
