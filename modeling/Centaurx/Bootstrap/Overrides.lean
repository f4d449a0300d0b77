import Centaurx.Lib.GoString
import Centaurx.Lib.MapHeap
import Mathlib.Data.List.Pairwise

namespace Centaurx.Bootstrap
open Go List MapHeap

/-- `map[string]any`, and `map[any]any` without or with a key that is no string. -/
inductive MapKind
  | stringKeys
  | anyKeys
  | otherKeys

variable {α : Type*}

abbrev ConfigHeap (α : Type*) := Heap GoString MapKind α

inductive OverrideError
  | pathRequired
  | invalidPath (path : GoString)
  | notAMap (path part : GoString)
  deriving DecidableEq

/-- A map with string keys for the value, which may be a new one. -/
def toStringMap (h : ConfigHeap α) : Value α → Option (ConfigHeap α × ℕ)
  | .map n =>
    match (h.cells n).tag with
    | .stringKeys => some (h, n)
    | .anyKeys => some (h.alloc ⟨.stringKeys, (h.cells n).entries⟩, h.next)
    | .otherKeys => none
  | .null => none
  | .leaf _ => none

/-- The map the loop of `setOverrideValue` goes on with. -/
def child (h : ConfigHeap α) : Option (Value α) → Option (ConfigHeap α × ℕ)
  | none => some (h.alloc ⟨.stringKeys, fun _ => none⟩, h.next)
  | some .null => some (h.alloc ⟨.stringKeys, fun _ => none⟩, h.next)
  | some next => toStringMap h next

def setParts (path : GoString) (value : Value α) :
    List GoString → ℕ → ConfigHeap α → Except OverrideError (ConfigHeap α)
  | [], _, h => .ok h
  | part :: parts, node, h =>
    if trimSpace part = [] then .error (.invalidPath path)
    else if parts = [] then .ok (h.set node (trimSpace part) value)
    else
      match child h ((h.cells node).entries (trimSpace part)) with
      | none => .error (.notAMap path (trimSpace part))
      | some (h', next) => setParts path value parts next (h'.set node (trimSpace part) (.map next))

/-- The parts of a dotted path. -/
def pathParts (path : GoString) : List GoString := (trimSpace path).splitOn 0x2E

def setOverrideValue (h : ConfigHeap α) (root : ℕ) (path : GoString) (value : Value α) :
    Except OverrideError (ConfigHeap α) :=
  if trimSpace path = [] then .error .pathRequired
  else setParts (trimSpace path) value (pathParts path) root h

inductive OverrideTarget
  | both
  | host
  | container
  deriving DecidableEq

structure ConfigOverride (α : Type*) where
  target : OverrideTarget
  path : GoString
  value : Value α
  deriving DecidableEq

def applyOverridesToYAML (data : ℕ) :
    List (ConfigOverride α) → ConfigHeap α → Except OverrideError (ConfigHeap α)
  | [], h => .ok h
  | o :: overrides, h => do
    let h' ← setOverrideValue h data o.path o.value
    applyOverridesToYAML data overrides h'

def filterOverrides (overrides : List (ConfigOverride α)) (target : OverrideTarget) :
    List (ConfigOverride α) := overrides.filter fun o => o.target = .both ∨ o.target = target

/-- The configurations for the host and for the container, as `WriteBootstrapWithOptions` marshals
them: the host's before the container's overrides are applied. -/
def writeBootstrap (h : ConfigHeap α) (host container : ℕ) (overrides : List (ConfigOverride α)) :
    Except OverrideError (Document GoString α × Document GoString α) := do
  let h₁ ← applyOverridesToYAML host (filterOverrides overrides .host) h
  let h₂ ← applyOverridesToYAML container (filterOverrides overrides .container) h₁
  return (h₁.look (.map host), h₂.look (.map container))

variable {h h' : ConfigHeap α} {v value : Value α} {path : GoString} {parts q : List GoString}
  {root node : ℕ}

/-- The keys of a dotted path. -/
def keys (path : GoString) : List GoString := (pathParts path).map trimSpace

theorem child_relinked (hv : h.IsTree v) (hn : h.Reaches v q node) {k : GoString} {next : ℕ}
    (hchild : child h ((h.cells node).entries k) = some (h', next)) :
    Heap.Relinked h (h'.set node k (.map next)) v (q ++ [k]) node next := by
  cases hk : (h.cells node).entries k with
  | none =>
    rw [hk] at hchild
    cases hchild
    exact Heap.relinked_alloc hv hn fun j s => by rw [hk]; rfl
  | some w =>
    rw [hk] at hchild
    cases w with
    | null =>
      cases hchild
      exact Heap.relinked_alloc hv hn fun j s => by rw [hk]; rfl
    | leaf a => cases hchild
    | map n =>
      change toStringMap h (.map n) = _ at hchild
      rw [toStringMap] at hchild
      split at hchild
      · cases hchild
        exact Heap.relinked_self hv hn hk
      · cases hchild
        exact Heap.relinked_alloc hv hn fun j s => by rw [hk]; rfl
      · cases hchild

/-- The loop writes at the path of the keys that are left, behind those of the way so far. -/
theorem setParts_written (hv : h.IsTree v) (hn : h.Reaches v q node) (hparts : parts ≠ [])
    (hset : setParts path value parts node h = .ok h') :
    Heap.Written h h' v (q ++ parts.map trimSpace) value := by
  induction parts generalizing h node q with
  | nil => exact absurd rfl hparts
  | cons part parts ih =>
    rw [setParts] at hset
    split_ifs at hset with hpart hlast
    · cases hset
      subst hlast
      exact hv.written hn
    · split at hset
      · cases hset
      · next h₁ next hchild =>
        have hl := child_relinked hv hn hchild
        rw [map_cons, ← singleton_append, ← append_assoc]
        refine hl.written hn (ih hl.tree hl.here hlast hset) (prefix_append _ _) ?_
        simpa using hlast

theorem setOverrideValue_written (hv : h.IsTree (.map root))
    (hset : setOverrideValue h root path value = .ok h') :
    Heap.Written h h' (.map root) (keys path) value := by
  rw [setOverrideValue] at hset
  split_ifs at hset
  exact setParts_written hv (q := []) rfl (splitOn_ne_nil _ _) hset

variable {overrides : List (ConfigOverride α)} {data : ℕ}

theorem ok_of_bind.{u} {ε : Type*} {β γ : Type u} {x : Except ε β} {f : β → Except ε γ} {c : γ}
    (hbind : x >>= f = .ok c) : ∃ b, x = .ok b ∧ f b = .ok c := by
  cases x with
  | error e => cases hbind
  | ok b => exact ⟨b, rfl, hbind⟩

/-- The paths and values of the overrides. -/
def writes (overrides : List (ConfigOverride α)) : List (List GoString × Value α) :=
  overrides.map fun o => (keys o.path, o.value)

theorem map_snd_writes (overrides : List (ConfigOverride α)) :
    (writes overrides).map Prod.snd = overrides.map (·.value) := by
  rw [writes, map_map]
  rfl

theorem applyOverridesToYAML_writes (hf : h.Fresh (.map data :: overrides.map (·.value)))
    (happly : applyOverridesToYAML data overrides h = .ok h') :
    Heap.Writes (.map data) h (writes overrides) h' := by
  induction overrides generalizing h with
  | nil =>
    cases happly
    exact .nil _
  | cons o overrides ih =>
    obtain ⟨h₁, hset, happly⟩ := ok_of_bind happly
    have hw := setOverrideValue_written (hf.trees _ mem_cons_self) hset
    exact .cons hw (ih (hf.written hw).1 happly)

theorem applyOverridesToYAML_look (hf : h.Fresh (.map data :: overrides.map (·.value)))
    (happly : applyOverridesToYAML data overrides h = .ok h') :
    h'.look (.map data) =
      overrides.foldl (fun d o => put d (keys o.path) (h.look o.value)) (h.look (.map data)) := by
  have hws := applyOverridesToYAML_writes hf happly
  rw [hws.look_eq (by rwa [map_snd_writes]), writes, foldl_map]

/-- Overrides are a lens: what was set is found again, and at any path that is neither before nor
behind the one set there is what was there. -/
theorem overrides_lens (h : ConfigHeap α) (root : ℕ) (hroot : h.IsTree (.map root)) :
    (∀ path value h', setOverrideValue h root path value = .ok h' →
      h'.get (.map root) (keys path) = some value ∧
        ∀ s, ¬ keys path <+: s → ¬ s <+: keys path →
          h'.get (.map root) s = h.get (.map root) s) ∧
      ∀ before o after h', h.Fresh (.map root :: (before ++ o :: after).map (·.value)) →
        applyOverridesToYAML root (before ++ o :: after) h = .ok h' →
        (∀ o' ∈ after, ¬ keys o'.path <+: keys o.path ∧ ¬ keys o.path <+: keys o'.path) →
        ∀ s, h'.look (.map root) (keys o.path ++ s) = h.look o.value s := by
  refine ⟨fun path value h' hset => ?_, fun before o after h' hf happly hafter s => ?_⟩
  · have hw := setOverrideValue_written hroot hset
    exact ⟨hw.hit, hw.miss⟩
  · rw [applyOverridesToYAML_look hf happly, foldl_append, foldl_cons, foldl_put, put_append]
    intro o' ho'
    obtain ⟨hbefore, hbehind⟩ := hafter o' ho'
    refine ⟨fun hle => ?_, fun hle => hbehind ((prefix_append _ s).trans hle)⟩
    exact ( prefix_or_prefix_of_prefix hle (prefix_append _ s)).elim hbefore hbehind

/-- Four maps with nothing in them. -/
def emptyMaps : ConfigHeap ℕ := ⟨fun _ => ⟨.stringKeys, fun _ => none⟩, 4⟩

theorem emptyMaps_reaches {v : Value ℕ} {s : List GoString} {m : ℕ}
    (hs : emptyMaps.Reaches v s m) : s = [] ∧ v = .map m := by
  cases s with
  | nil => exact ⟨rfl, Option.some.inj hs⟩
  | cons k s => cases v <;> cases hs

theorem emptyMaps_fresh {vs : List (Value ℕ)} (hlt : ∀ n, .map n ∈ vs → n < 4)
    (hne : vs.Pairwise fun v w => ∀ n, v = .map n → w ≠ .map n) : emptyMaps.Fresh vs where
  trees _ hv := ⟨fun _ n hs => hlt n ((emptyMaps_reaches hs).2 ▸ hv), fun _ _ _ hs ht =>
    (emptyMaps_reaches hs).1.trans (emptyMaps_reaches ht).1.symm⟩
  apart := hne.imp fun hvw _ _ n hs ht =>
    hvw n (emptyMaps_reaches hs).2 (emptyMaps_reaches ht).2

/-- A map at `a`, a value below it, with spaces in the path, and a value elsewhere. -/
def nested : List (ConfigOverride ℕ) :=
  [⟨.both, lit "a", .map 1⟩, ⟨.both, lit " a . b", .leaf 7⟩, ⟨.host, lit "c", .leaf 8⟩]

theorem overrides_lens_nested :
    (∃ h', setOverrideValue emptyMaps 0 (lit " a . b") (.leaf 7) = .ok h' ∧
      keys (lit " a . b") = [lit "a", lit "b"] ∧
      h'.get (.map 0) (keys (lit " a . b")) = some (.leaf 7)) ∧
      ∃ h', applyOverridesToYAML 0 nested emptyMaps = .ok h' ∧
        h'.look (.map 0) [lit "a", lit "b"] = some (.leaf 7) := by
  have hf : emptyMaps.Fresh (.map 0 :: nested.map (·.value)) :=
    emptyMaps_fresh (by simp [nested]) (by simp [nested])
  have hlens := overrides_lens emptyMaps 0 (hf.trees _ mem_cons_self)
  refine ⟨⟨_, rfl, by decide, (hlens.1 _ _ _ rfl).1⟩, _, rfl, ?_⟩
  exact hlens.2 [_] _ [_] _ hf rfl (by decide) []

/-- No override of the host's configuration goes into a map that is set in both and still stands
there. -/
def KeepsShared (overrides : List (ConfigOverride α)) : Prop :=
  Heap.Clear (fun o => keys o.path) (fun o => o.target = .both ∧ ∃ n, o.value = .map n) ∅
    (filterOverrides overrides .host)

section
variable {host container : ℕ}
  (hf : h.Fresh (.map host :: .map container :: overrides.map (·.value)))
include hf

theorem host_keeps_shared (hkeeps : KeepsShared overrides)
    (happly : applyOverridesToYAML host (filterOverrides overrides .host) h = .ok h') :
    h.next ≤ h'.next ∧
      ∀ u ∈ .map container :: (filterOverrides overrides .container).map (·.value),
        ∀ s, h'.get u s = h.get u s := by
  obtain ⟨hhost, hrest⟩ := pairwise_cons.mp hf.apart
  obtain ⟨hcontainer, hvalues⟩ := pairwise_cons.mp hrest
  have hsub : .map container :: (filterOverrides overrides .container).map (·.value) ⊆
      .map container :: overrides.map (·.value) :=
    cons_subset_cons _ (filter_sublist.map _).subset
  have hfhost : h.Fresh (.map host :: (filterOverrides overrides .host).map (·.value)) :=
    hf.sublist (((filter_sublist.map _).cons _).cons_cons _)
  have hws := applyOverridesToYAML_writes hfhost happly
  refine ⟨hws.next, fun u hu => Heap.get_congr fun t n hn => ?_⟩
  refine hws.frame (fun n =>
      ∃ u ∈ .map container :: (filterOverrides overrides .container).map (·.value),
        ∃ t, h.Reaches u t n) hkeeps hfhost ?_ ?_ ?_ n ⟨u, hu, t, hn⟩
  · rintro n ⟨u, hu, t, hn⟩
    exact (hf.trees u (mem_cons_of_mem _ (hsub hu))).below t n hn
  · rintro s n ⟨u, hu, t, hn⟩ hs
    exact absurd hn (hhost u (hsub hu) s t n hs)
  · rintro o ho s n ⟨u, hu, t, hn⟩ hs
    obtain ⟨homem, ho⟩ := mem_filter.mp ho
    have htarget : o.target = .both ∨ o.target = .host := of_decide_eq_true ho
    refine ⟨htarget.resolve_right fun heq => ?_, hs.isMap⟩
    -- a value for the host alone has no map in common with the others
    obtain rfl | hu := mem_cons.mp hu
    · exact hcontainer _ (mem_map_of_mem homem) t s n hn hs
    · obtain ⟨o₂, ho₂, rfl⟩ := mem_map.mp hu
      obtain ⟨ho₂mem, ho₂⟩ := mem_filter.mp ho₂
      have hne : o ≠ o₂ := by
        rintro rfl
        simp [heq] at ho₂
      have hsymm : Std.Symm fun o o' : ConfigOverride α => h.Apart o.value o'.value :=
        ⟨fun _ _ hapart s t n hs ht => hapart t s n ht hs⟩
      exact (pairwise_map.mp hvalues).forall homem ho₂mem hne s t n hs hn

/-- The container's configuration is what its own overrides make of it. -/
theorem container_look (hkeeps : KeepsShared overrides)
    {d : Document GoString α × Document GoString α}
    (hwrite : writeBootstrap h host container overrides = .ok d) :
    d.2 = (filterOverrides overrides .container).foldl
      (fun d o => put d (keys o.path) (h.look o.value)) (h.look (.map container)) := by
  obtain ⟨h₁, hhost, hwrite⟩ := ok_of_bind hwrite
  obtain ⟨h₂, hcontainer, hwrite⟩ := ok_of_bind hwrite
  cases hwrite
  obtain ⟨hnext, hget⟩ := host_keeps_shared hf hkeeps hhost
  have hsub : .map container :: (filterOverrides overrides .container).map (·.value) <+
      .map host :: .map container :: overrides.map (·.value) :=
    ((filter_sublist.map _).cons_cons _).cons _
  have hf₁ := (hf.sublist hsub).congr hget hnext
  obtain ⟨hcontainerGet, hvalueGet⟩ := forall_mem_cons.mp hget
  rw [applyOverridesToYAML_look hf₁ hcontainer, Heap.look_congr hcontainerGet]
  exact foldl_ext _ _ _ fun d o ho =>
    congrArg (put d (keys o.path)) (Heap.look_congr (hvalueGet _ (mem_map_of_mem ho)))

end

theorem filterOverrides_filter {target other : OverrideTarget} (hb : other ≠ .both)
    (hne : target ≠ other) :
    filterOverrides (overrides.filter fun o => o.target ≠ other) target =
      filterOverrides overrides target := by
  rw [filterOverrides, filter_filter]
  refine filter_congr fun o _ => ?_
  grind

/-- A map for both, a map for the host in its place, and a value for the host in that one. -/
def replacedShared : List (ConfigOverride ℕ) :=
  [⟨.both, lit "http", .map 2⟩, ⟨.host, lit "http", .map 3⟩, ⟨.host, lit "http.port", .leaf 7⟩]

end Centaurx.Bootstrap
