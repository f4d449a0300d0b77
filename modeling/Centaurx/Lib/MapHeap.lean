import Mathlib.Data.List.Infix
import Mathlib.Logic.Function.Basic
import Mathlib.Tactic.TypeStar

namespace Centaurx.MapHeap
open List Function

inductive Value (α : Type*)
  | null
  | leaf (a : α)
  | map (addr : ℕ)
  deriving DecidableEq

inductive Shape (α : Type*)
  | null
  | leaf (a : α)
  | map
  deriving DecidableEq

def Value.shape {α : Type*} : Value α → Shape α
  | .null => .null
  | .leaf a => .leaf a
  | .map _ => .map

structure Cell (κ τ α : Type*) where
  tag : τ
  entries : κ → Option (Value α)

structure Heap (κ τ α : Type*) where
  cells : ℕ → Cell κ τ α
  next : ℕ

/-- Maps without references: what stands at each path. -/
abbrev Document (κ α : Type*) := List κ → Option (Shape α)

def put {κ α : Type*} [DecidableEq κ] (d : Document κ α) (p : List κ) (e : Document κ α) :
    Document κ α := fun s =>
  if p <+: s then e (s.drop p.length) else if s <+: p then some .map else d s

theorem put_append {κ α : Type*} [DecidableEq κ] (d e : Document κ α) (p s : List κ) :
    put d p e (p ++ s) = e s := by
  rw [put, if_pos (prefix_append p s), drop_left]

/-- A path that is neither before nor behind one of those written keeps what stands there. -/
theorem foldl_put {κ α β : Type*} [DecidableEq κ] {path : β → List κ} {doc : β → Document κ α}
    {s : List κ} {xs : List β} (hxs : ∀ x ∈ xs, ¬ path x <+: s ∧ ¬ s <+: path x)
    (d : Document κ α) : xs.foldl (fun d x => put d (path x) (doc x)) d s = d s := by
  induction xs generalizing d with
  | nil => rfl
  | cons x xs ih =>
    obtain ⟨hx, hxs⟩ := forall_mem_cons.mp hxs
    rw [foldl_cons, ih hxs, put, if_neg hx.1, if_neg hx.2]

variable {κ τ α : Type*} {h h₁ h' : Heap κ τ α} {v w : Value α} {n c : ℕ} {k : κ} {p q s t : List κ}

namespace Heap

def get (h : Heap κ τ α) : Value α → List κ → Option (Value α)
  | v, [] => some v
  | .map n, k :: p => ((h.cells n).entries k).bind fun w => h.get w p
  | .null, _ :: _ => none
  | .leaf _, _ :: _ => none

abbrev Reaches (h : Heap κ τ α) (v : Value α) (p : List κ) (n : ℕ) : Prop :=
  h.get v p = some (.map n)

def alloc (h : Heap κ τ α) (cell : Cell κ τ α) : Heap κ τ α :=
  ⟨update h.cells h.next cell, h.next + 1⟩

def set [DecidableEq κ] (h : Heap κ τ α) (n : ℕ) (k : κ) (w : Value α) : Heap κ τ α :=
  ⟨update h.cells n ⟨(h.cells n).tag, update (h.cells n).entries k (some w)⟩, h.next⟩

theorem cells_alloc_next (h : Heap κ τ α) (cell : Cell κ τ α) :
    (h.alloc cell).cells h.next = cell := update_self ..

theorem cells_alloc (cell : Cell κ τ α) (hn : n < h.next) : (h.alloc cell).cells n = h.cells n :=
  update_of_ne hn.ne ..

theorem cells_set [DecidableEq κ] {m : ℕ} (hm : m ≠ n) : (h.set n k w).cells m = h.cells m :=
  update_of_ne hm ..

theorem entries_set_self [DecidableEq κ] :
    ((h.set n k w).cells n).entries = update (h.cells n).entries k (some w) := by
  simp [set]

theorem get_append (h : Heap κ τ α) (v : Value α) (p q : List κ) :
    h.get v (p ++ q) = (h.get v p).bind (h.get · q) := by
  induction p generalizing v with
  | nil => rfl
  | cons k p ih =>
    cases v with
    | null | leaf a => rfl
    | map n =>
      rw [cons_append, get, get, Option.bind_assoc]
      exact congrArg _ (funext ih)

theorem Reaches.get_append (hn : h.Reaches v q n) (s : List κ) :
    h.get v (q ++ s) = h.get (.map n) s := by
  rw [Heap.get_append, hn]
  rfl

theorem Reaches.unique {m : ℕ} (hn : h.Reaches v p n) (hm : h.Reaches v p m) : n = m :=
  Value.map.inj (Option.some.inj (hn.symm.trans hm))

theorem Reaches.isMap (hn : h.Reaches v p n) : ∃ m, v = .map m := by
  cases v with
  | map m => exact ⟨m, rfl⟩
  | null | leaf a => cases p <;> cases hn

theorem get_congr (hc : ∀ q n, h.Reaches v q n → h'.cells n = h.cells n) (p : List κ) :
    h'.get v p = h.get v p := by
  induction p generalizing v with
  | nil => rfl
  | cons k p ih =>
    cases v with
    | null | leaf a => rfl
    | map n =>
      rw [get, get, hc [] n rfl]
      cases hk : (h.cells n).entries k with
      | none => rfl
      | some w => exact ih fun q m hq => hc (k :: q) m (by rw [Reaches, get, hk]; exact hq)

theorem get_set [DecidableEq κ] (havoid : ∀ t u, s = t ++ k :: u → ¬ h.Reaches v t n) :
    (h.set n k w).get v s = h.get v s := by
  induction s generalizing v with
  | nil => rfl
  | cons j s ih =>
    cases v with
    | null | leaf a => rfl
    | map m =>
      have hcell : ((h.set n k w).cells m).entries j = (h.cells m).entries j := by
        rcases eq_or_ne m n with rfl | hm
        · have hj : j ≠ k := by
            rintro rfl
            exact havoid [] s rfl rfl
          rw [entries_set_self, update_of_ne hj]
        · rw [cells_set hm]
      rw [get, get, hcell]
      cases hj : (h.cells m).entries j with
      | none => rfl
      | some r =>
        refine ih fun t u hs hreach => havoid (j :: t) u (by rw [hs, cons_append]) ?_
        rw [Reaches, get, hj]
        exact hreach

/-- No map is reached on two paths. -/
structure IsTree (h : Heap κ τ α) (v : Value α) : Prop where
  below : ∀ p n, h.Reaches v p n → n < h.next
  once : ∀ p q n, h.Reaches v p n → h.Reaches v q n → p = q

def Apart (h : Heap κ τ α) (v w : Value α) : Prop := ∀ p q n, h.Reaches v p n → ¬ h.Reaches w q n

section Writing
variable [DecidableEq κ] (hv : h.IsTree v) (hn : h.Reaches v q n)
include hv hn

theorem IsTree.get_set (hs : ¬ q ++ [k] <+: s) : (h.set n k w).get v s = h.get v s := by
  refine Heap.get_set fun t u hsu hreach => hs ?_
  rw [hsu, hv.once _ _ _ hn hreach]
  exact ⟨u, by simp⟩

theorem IsTree.get_set_append (s : List κ) :
    (h.set n k w).get v (q ++ [k] ++ s) = (h.set n k w).get w s := by
  have hq : (h.set n k w).Reaches v q n :=
    (hv.get_set hn fun hle => by simpa using hle.length_le.not_gt).trans hn
  rw [append_assoc, hq.get_append, singleton_append, get, entries_set_self, update_self]
  rfl

end Writing

/-- At one path another map stands now, with the same entries. -/
structure Relinked (h h' : Heap κ τ α) (v : Value α) (q : List κ) (n c : ℕ) : Prop where
  tree : h'.IsTree v
  here : h'.Reaches v q c
  elsewhere : ∀ s, s ≠ q → h'.get v s = h.get v s
  source : h.Reaches v q c ∨ h.next ≤ c
  frame : ∀ m < h.next, m ≠ n → h'.cells m = h.cells m
  next : h.next ≤ h'.next

section Writing
variable [DecidableEq κ] (hv : h.IsTree v) (hn : h.Reaches v q n)
include hv hn

theorem relinked_self (hk : (h.cells n).entries k = some (.map c)) :
    Relinked h (h.set n k (.map c)) v (q ++ [k]) n c := by
  have hset : h.set n k (.map c) = h := by
    rw [set, ← hk, update_eq_self, update_eq_self]
  have hc : h.Reaches v (q ++ [k]) c := by
    rw [Reaches, hn.get_append, get, hk]
    rfl
  rw [hset]
  exact ⟨hv, hc, fun _ _ => rfl, Or.inl hc, fun _ _ _ => rfl, le_rfl⟩

theorem relinked_alloc {cell : Cell κ τ α}
    (hcell : ∀ j s, (cell.entries j).bind (h.get · s) =
      ((h.cells n).entries k).bind (h.get · (j :: s))) :
    Relinked h ((h.alloc cell).set n k (.map h.next)) v (q ++ [k]) n h.next := by
  have hlt : n < h.next := hv.below _ _ hn
  have hget : ∀ s, (h.alloc cell).get v s = h.get v s :=
    get_congr fun p m hm => cells_alloc cell (hv.below p m hm)
  have hv₁ : (h.alloc cell).IsTree v :=
    ⟨fun p m hm => (hv.below p m ((hget p).symm.trans hm)).trans (Nat.lt_succ_self _),
      fun p s m hp hs => hv.once p s m ((hget p).symm.trans hp) ((hget s).symm.trans hs)⟩
  have hn₁ : (h.alloc cell).Reaches v q n := (hget q).trans hn
  -- below the new map stands what stood below the old one
  have hold : ∀ j s, (cell.entries j).bind (h.get · s) = h.get v (q ++ [k] ++ j :: s) := by
    intro j s
    rw [hcell, append_assoc, hn.get_append]
    rfl
  have hnew : ∀ j s, (h.alloc cell).get (.map h.next) (j :: s) =
      h.get v (q ++ [k] ++ j :: s) := by
    intro j s
    rw [← hold, get, cells_alloc_next]
    cases hj : cell.entries j with
    | none => rfl
    | some w =>
      refine get_congr (fun t m hm => cells_alloc cell (hv.below _ m ((hold j t).symm.trans ?_))) s
      rw [hj]
      exact hm
  have helse : ∀ s, s ≠ q ++ [k] →
      ((h.alloc cell).set n k (.map h.next)).get v s = h.get v s := fun s hs => by
    by_cases hle : q ++ [k] <+: s
    · obtain ⟨r, rfl⟩ := hle
      cases r with
      | nil => simp at hs
      | cons j r =>
        rw [hv₁.get_set_append hn₁, ← hnew]
        refine get_set fun t u htu hreach => ?_
        cases t with
        | nil => exact hlt.ne' (Value.map.inj (Option.some.inj hreach))
        | cons i t =>
          rw [Reaches, hnew] at hreach
          simpa using hv.once _ _ _ hn hreach
    · rw [hv₁.get_set hn₁ hle, hget]
  have hhere : ((h.alloc cell).set n k (.map h.next)).Reaches v (q ++ [k]) h.next := by
    have := hv₁.get_set_append hn₁ (k := k) (w := .map h.next) []
    rwa [append_nil] at this
  have hsource : ∀ s m, ((h.alloc cell).set n k (.map h.next)).Reaches v s m →
      s = q ++ [k] ∧ m = h.next ∨ h.Reaches v s m ∧ m < h.next := fun s m hs => by
    by_cases hsk : s = q ++ [k]
    · exact Or.inl ⟨hsk, (hsk ▸ hs).unique hhere⟩
    · rw [Reaches, helse s hsk] at hs
      exact Or.inr ⟨hs, hv.below s m hs⟩
  refine ⟨⟨fun s m hs => ?_, fun s t m hs ht => ?_⟩, hhere, helse, Or.inr le_rfl,
    fun m hm hmn => ?_, Nat.le_succ _⟩
  · obtain ⟨-, rfl⟩ | ⟨-, hm⟩ := hsource s m hs
    · exact Nat.lt_succ_self _
    · exact hm.trans (Nat.lt_succ_self _)
  · obtain ⟨rfl, rfl⟩ | ⟨hs, hm⟩ := hsource s m hs
    · obtain ⟨rfl, -⟩ | ⟨-, hm⟩ := hsource t _ ht
      · rfl
      · exact absurd hm (lt_irrefl _)
    · obtain ⟨-, rfl⟩ | ⟨ht, -⟩ := hsource t m ht
      · exact absurd hm (lt_irrefl _)
      · exact hv.once s t m hs ht
  · rw [cells_set hmn, cells_alloc cell hm]

end Writing

/-- The value is written at the path, and the maps before it may be other ones. -/
structure Written (h h' : Heap κ τ α) (v : Value α) (p : List κ) (w : Value α) : Prop where
  hit : h'.get v p = some w
  miss : ∀ s, ¬ p <+: s → ¬ s <+: p → h'.get v s = h.get v s
  once : ∀ s t n, ¬ p <+: s → ¬ p <+: t → h'.Reaches v s n → h'.Reaches v t n → s = t
  source : ∀ s n, ¬ p <+: s → h'.Reaches v s n → n < h'.next ∧ (h.Reaches v s n ∨ h.next ≤ n)
  frame : ∀ n < h.next, (∀ s, s <+: p → s ≠ p → ¬ h.Reaches v s n) → h'.cells n = h.cells n
  next : h.next ≤ h'.next

theorem IsTree.written [DecidableEq κ] (hv : h.IsTree v) (hn : h.Reaches v q n) :
    Written h (h.set n k w) v (q ++ [k]) w where
  hit := by
    have := hv.get_set_append hn (k := k) (w := w) []
    rwa [append_nil] at this
  miss s hs _ := hv.get_set hn hs
  once s t m hs ht hsm htm :=
    hv.once s t m ((hv.get_set hn hs).symm.trans hsm) ((hv.get_set hn ht).symm.trans htm)
  source s m hs hsm := by
    rw [Reaches, hv.get_set hn hs] at hsm
    exact ⟨hv.below s m hsm, Or.inl hsm⟩
  frame m _ hm := cells_set fun heq => hm q (prefix_append q [k]) (by simp) (heq ▸ hn)
  next := le_rfl

theorem Relinked.written (hl : Relinked h h₁ v (q ++ [k]) n c) (hn : h.Reaches v q n)
    (hw : Written h₁ h' v p w) (hqp : q ++ [k] <+: p) (hne : q ++ [k] ≠ p) :
    Written h h' v p w where
  hit := hw.hit
  miss s hs hsp := (hw.miss s hs hsp).trans (hl.elsewhere s fun heq => hsp (heq ▸ hqp))
  once := hw.once
  source s m hs hsm := by
    obtain ⟨hlt, hsm | hle⟩ := hw.source s m hs hsm
    · refine ⟨hlt, ?_⟩
      by_cases hsq : s = q ++ [k]
      · subst hsq
        rw [hsm.unique hl.here]
        exact hl.source
      · exact Or.inl ((hl.elsewhere s hsq).symm.trans hsm)
    · exact ⟨hlt, Or.inr (hl.next.trans hle)⟩
  frame m hm hfree := by
    have hq : q <+: p := (prefix_append q [k]).trans hqp
    have hqne : q ≠ p := by
      rintro rfl
      simpa using hqp.length_le.not_gt
    rw [hw.frame m (hm.trans_le hl.next) fun s hsp hsne hsm => ?_,
      hl.frame m hm fun heq => hfree q hq hqne (heq ▸ hn)]
    by_cases hsq : s = q ++ [k]
    · subst hsq
      rw [hsm.unique hl.here] at hm hfree
      exact hl.source.elim (hfree _ hqp hne) hm.not_ge
    · exact hfree s hsp hsne ((hl.elsewhere s hsq).symm.trans hsm)
  next := hl.next.trans hw.next

theorem Written.get_of_apart (hw : Written h h' v p w) {u : Value α} (hu : h.IsTree u)
    (hvu : h.Apart v u) (s : List κ) : h'.get u s = h.get u s :=
  get_congr (fun t n hn => hw.frame n (hu.below t n hn) fun s _ _ hs => hvu s t n hs hn) s

section Fresh
variable (hw : Written h h' v p w) (hwt : h.IsTree w) (hvw : h.Apart v w)
include hw hwt hvw

theorem Written.get_append (s : List κ) : h'.get v (p ++ s) = h.get w s := by
  rw [Heap.get_append, hw.hit]
  exact hw.get_of_apart hwt hvw s

theorem Written.reaches (hs : h'.Reaches v s n) :
    (∃ t, s = p ++ t ∧ h.Reaches w t n) ∨
      ¬ p <+: s ∧ n < h'.next ∧ (h.Reaches v s n ∨ h.next ≤ n) := by
  by_cases hps : p <+: s
  · obtain ⟨t, rfl⟩ := hps
    exact Or.inl ⟨t, rfl, (hw.get_append hwt hvw t).symm.trans hs⟩
  · exact Or.inr ⟨hps, hw.source s n hps hs⟩

theorem Written.isTree : h'.IsTree v where
  below s n hs := by
    obtain ⟨t, -, ht⟩ | ⟨-, hn, -⟩ := hw.reaches hwt hvw hs
    · exact (hwt.below t n ht).trans_le hw.next
    · exact hn
  once s s' n hs hs' := by
    -- a map of the value written stands nowhere else
    have hmixed : ∀ t s, h.Reaches w t n → ¬ (h.Reaches v s n ∨ h.next ≤ n) := fun t s ht hor =>
      hor.elim (fun hs => hvw s t n hs ht) (hwt.below t n ht).not_ge
    obtain ⟨t, rfl, ht⟩ | ⟨hps, -, hor⟩ := hw.reaches hwt hvw hs
    · obtain ⟨t', rfl, ht'⟩ | ⟨-, -, hor⟩ := hw.reaches hwt hvw hs'
      · rw [hwt.once t t' n ht ht']
      · exact absurd hor (hmixed t _ ht)
    · obtain ⟨t', rfl, ht'⟩ | ⟨hps', -, -⟩ := hw.reaches hwt hvw hs'
      · exact absurd hor (hmixed t' _ ht')
      · exact hw.once s s' n hps hps' hs hs'

theorem Written.apart {u : Value α} (hu : h.IsTree u) (hvu : h.Apart v u) (hwu : h.Apart w u) :
    h'.Apart v u := fun s t n hs ht => by
  rw [Reaches, hw.get_of_apart hu hvu] at ht
  obtain ⟨r, -, hr⟩ | ⟨-, -, hs | hle⟩ := hw.reaches hwt hvw hs
  · exact hwu r t n hr ht
  · exact hvu s t n hs ht
  · exact (hu.below t n ht).not_ge hle

end Fresh

/-- What stands at a path, without the references. -/
def look (h : Heap κ τ α) (v : Value α) : Document κ α := fun s => (h.get v s).map Value.shape

theorem look_congr (hget : ∀ s, h'.get v s = h.get v s) : h'.look v = h.look v :=
  funext fun s => congrArg (Option.map Value.shape) (hget s)

theorem Written.look_eq [DecidableEq κ] (hw : Written h h' v p w) (hwt : h.IsTree w)
    (hvw : h.Apart v w) : h'.look v = put (h.look v) p (h.look w) := by
  funext s
  rw [look, put]
  split_ifs with hps hsp
  · obtain ⟨t, rfl⟩ := hps
    rw [hw.get_append hwt hvw, drop_left]
    rfl
  · obtain ⟨t, rfl⟩ := hsp
    cases t with
    | nil => simp at hps
    | cons j t =>
      -- only a map has something below it
      have hbelow := hw.hit
      rw [Heap.get_append] at hbelow
      obtain ⟨r, hr, hrt⟩ := Option.bind_eq_some_iff.mp hbelow
      rw [hr]
      cases r with
      | null | leaf a => cases hrt
      | map n => rfl
  · rw [hw.miss s hps hsp]
    rfl

/-- Trees no two of which share a map. -/
structure Fresh (h : Heap κ τ α) (vs : List (Value α)) : Prop where
  trees : ∀ v ∈ vs, h.IsTree v
  apart : vs.Pairwise h.Apart

theorem Fresh.congr {vs : List (Value α)} (hf : h.Fresh vs)
    (hget : ∀ v ∈ vs, ∀ s, h'.get v s = h.get v s) (hnext : h.next ≤ h'.next) : h'.Fresh vs where
  trees v hv := by
    refine ⟨fun s n hs => ?_, fun s t n hs ht => ?_⟩
    · exact ((hf.trees v hv).below s n ((hget v hv s).symm.trans hs)).trans_le hnext
    · exact (hf.trees v hv).once s t n ((hget v hv s).symm.trans hs) ((hget v hv t).symm.trans ht)
  apart := hf.apart.imp_of_mem fun {v w} hv hw hvw s t n hs ht =>
    hvw s t n ((hget v hv s).symm.trans hs) ((hget w hw t).symm.trans ht)

theorem Fresh.sublist {us vs : List (Value α)} (hf : h.Fresh vs) (hs : us <+ vs) : h.Fresh us :=
  ⟨fun v hv => hf.trees v (hs.subset hv), hf.apart.sublist hs⟩

theorem Fresh.written {vs : List (Value α)} (hf : h.Fresh (v :: w :: vs))
    (hw : Written h h' v p w) :
    h'.Fresh (v :: vs) ∧ ∀ u ∈ w :: vs, ∀ s, h'.get u s = h.get u s := by
  obtain ⟨hvu, hapart⟩ := pairwise_cons.mp hf.apart
  obtain ⟨hwu, -⟩ := pairwise_cons.mp hapart
  have htree := (forall_mem_cons.mp hf.trees).2
  have hget : ∀ u ∈ w :: vs, ∀ s, h'.get u s = h.get u s := fun u hu =>
    hw.get_of_apart (htree u hu) (hvu u hu)
  have hwt := htree w mem_cons_self
  have hvw := hvu w mem_cons_self
  have hrest : h'.Fresh vs :=
    (hf.sublist (drop_sublist 2 (v :: w :: vs))).congr (fun u hu => hget u (mem_cons_of_mem w hu))
      hw.next
  refine ⟨⟨forall_mem_cons.mpr ⟨hw.isTree hwt hvw, hrest.trees⟩, pairwise_cons.mpr
    ⟨fun u hu => ?_, hrest.apart⟩⟩, hget⟩
  have hu' := mem_cons_of_mem w hu
  exact hw.apart hwt hvw (htree u hu') (hvu u hu') (hwu u hu)

/-- Values are written one after the other. -/
inductive Writes (v : Value α) : Heap κ τ α → List (List κ × Value α) → Heap κ τ α → Prop
  | nil (h : Heap κ τ α) : Writes v h [] h
  | cons {h h₁ h' : Heap κ τ α} {p : List κ} {w : Value α} {ws : List (List κ × Value α)} :
      Written h h₁ v p w → Writes v h₁ ws h' → Writes v h ((p, w) :: ws) h'

variable {ws : List (List κ × Value α)}

theorem Writes.next (hws : Writes v h ws h') : h.next ≤ h'.next := by
  induction hws with
  | nil => exact le_rfl
  | cons hw _ ih => exact hw.next.trans ih

/-- Writing fresh values is writing documents. -/
theorem Writes.look_eq [DecidableEq κ] (hws : Writes v h ws h')
    (hf : h.Fresh (v :: ws.map Prod.snd)) :
    h'.look v = ws.foldl (fun d x => put d x.1 (h.look x.2)) (h.look v) := by
  induction hws with
  | nil => rfl
  | cons hw hws ih =>
    obtain ⟨hf', hget⟩ := hf.written hw
    rw [ih hf', foldl_cons, hw.look_eq (hf.trees _ (mem_cons_of_mem _ mem_cons_self))
      ((pairwise_cons.mp hf.apart).1 _ mem_cons_self)]
    refine foldl_ext _ _ _ fun d x hx => congrArg (put d x.1) (look_congr ?_)
    exact hget x.2 (mem_cons_of_mem _ (mem_map_of_mem hx))

section Clear
variable {β : Type*} {path : β → List κ} {value : β → Value α} {shared : β → Prop} {xs : List β}
  {live : Set (List κ)}

/-- No write goes into a map at one of the `live` paths. What is written replaces what stands at its
path and behind it, and is live itself if it is `shared`. -/
def Clear (path : β → List κ) (shared : β → Prop) : Set (List κ) → List β → Prop
  | _, [] => True
  | live, x :: xs => (∀ q ∈ live, q <+: path x → q = path x) ∧
    Clear path shared {q | q ∈ live ∧ ¬ path x <+: q ∨ q = path x ∧ shared x} xs

/-- The maps with `keep` stay as they are, if they are in shared values and the writes are clear of
these. -/
theorem Writes.frame (hws : Writes v h (xs.map fun x => (path x, value x)) h') (keep : ℕ → Prop)
    (hclear : Clear path shared live xs) (hf : h.Fresh (v :: xs.map value))
    (hlt : ∀ n, keep n → n < h.next)
    (hv : ∀ s n, keep n → h.Reaches v s n → ∃ q ∈ live, q <+: s)
    (hshared : ∀ x ∈ xs, ∀ s n, keep n → h.Reaches (value x) s n → shared x) :
    ∀ n, keep n → h'.cells n = h.cells n := by
  induction xs generalizing h live with
  | nil =>
    cases hws
    exact fun _ _ => rfl
  | cons x xs ih =>
    obtain - | ⟨hw, hws⟩ := hws
    obtain ⟨hf', hget⟩ := hf.written hw
    obtain ⟨hp, hclear⟩ := hclear
    refine fun n hn =>
      (ih hws hclear hf' (fun n hn => (hlt n hn).trans_le hw.next) ?_ ?_ n hn).trans
      (hw.frame n (hlt n hn) fun s hsp hne hs => ?_)
    · intro s n hn hs
      have hwt := hf.trees _ (mem_cons_of_mem _ mem_cons_self)
      have hvw := (pairwise_cons.mp hf.apart).1 _ mem_cons_self
      obtain ⟨t, rfl, ht⟩ | ⟨hps, -, hs | hle⟩ := hw.reaches hwt hvw hs
      · exact ⟨path x, .inr ⟨rfl, hshared x mem_cons_self t n hn ht⟩, prefix_append _ t⟩
      · obtain ⟨q, hq, hqs⟩ := hv s n hn hs
        exact ⟨q, .inl ⟨hq, fun hpq => hps (hpq.trans hqs)⟩, hqs⟩
      · exact absurd (hlt n hn) hle.not_gt
    · refine fun y hy s n hn hs => hshared y (mem_cons_of_mem _ hy) s n hn ?_
      exact (hget _ (mem_cons_of_mem _ (mem_map_of_mem hy)) s).symm.trans hs
    · obtain ⟨q, hq, hqs⟩ := hv s n hn hs
      exact hne (hsp.eq_of_length_le (hp q hq (hqs.trans hsp) ▸ hqs.length_le))

end Clear
end Heap
end Centaurx.MapHeap
