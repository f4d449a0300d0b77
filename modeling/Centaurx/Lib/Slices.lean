import Mathlib.Algebra.Order.Ring.Int
import Mathlib.Data.List.GetD

namespace Centaurx.Go
open List

/-- The arrays of a memory, by number. -/
abbrev Arrays (α : Type*) := List (List α)

structure Slice where
  array : ℕ
  len : ℕ
  deriving DecidableEq

namespace Arrays

variable {α : Type*}

def cells (m : Arrays α) (a : ℕ) : List α := m.getD a []

/-- The items that a slice shows. -/
def items (m : Arrays α) (s : Slice) : List α := (m.cells s.array).take s.len

/-- The slice is in the memory. -/
def Has (m : Arrays α) (s : Slice) : Prop :=
  s.array < m.length ∧ s.len ≤ (m.cells s.array).length

/-- `s[:n]`, where this is within the array. -/
def upTo (m : Arrays α) (s : Slice) (n : ℤ) : Option Slice :=
  if 0 ≤ n ∧ n ≤ (m.cells s.array).length then some { s with len := n.toNat } else none

/-- The items of `s[n:]`, where this is within the slice. -/
def itemsFrom (m : Arrays α) (s : Slice) (n : ℤ) : Option (List α) :=
  if 0 ≤ n ∧ n ≤ s.len then some ((m.items s).drop n.toNat) else none

/-- `s[i]`, where this is within the slice. -/
def at? (m : Arrays α) (s : Slice) (i : ℤ) : Option α :=
  if 0 ≤ i then (m.items s)[i.toNat]? else none

/-- A new array, with cells behind the slice. -/
def alloc (m : Arrays α) (xs room : List α) : Arrays α × Slice :=
  (m ++ [xs ++ room], ⟨m.length, xs.length⟩)

def write (m : Arrays α) (a i : ℕ) (xs : List α) : Arrays α :=
  m.modify a fun cs => cs.take i ++ xs ++ cs.drop (i + xs.length)

def append (m : Arrays α) (room : List α) (s : Slice) (xs : List α) : Arrays α × Slice :=
  if s.len + xs.length ≤ (m.cells s.array).length then
    (m.write s.array s.len xs, { s with len := s.len + xs.length })
  else m.alloc (m.items s ++ xs) room

variable {m : Arrays α} {s : Slice}

theorem length_items (h : m.Has s) : (m.items s).length = s.len := by
  rw [items, length_take, Nat.min_eq_left h.2]

theorem cells_append_left {a : ℕ} (h : a < m.length) (cs : List α) :
    cells (m ++ [cs]) a = m.cells a :=
  getD_append _ _ _ _ h

theorem cells_concat (cs : List α) : cells (m ++ [cs]) m.length = cs := by
  rw [cells, getD_append_right _ _ _ _ le_rfl, Nat.sub_self, getD_cons_zero]

theorem cells_write {a i : ℕ} (ha : a < m.length) (xs : List α) :
    (m.write a i xs).cells a =
      (m.cells a).take i ++ xs ++ (m.cells a).drop (i + xs.length) := by
  simp [cells, write, getD_eq_getElem?_getD, getElem?_eq_getElem ha]

theorem cells_write_ne {a b i : ℕ} (h : b ≠ a) (xs : List α) :
    (m.write a i xs).cells b = m.cells b := by
  simp [cells, write, getD_eq_getElem?_getD, getElem?_modify_ne _ _ h.symm]

@[simp]
theorem length_write {a i : ℕ} (xs : List α) : (m.write a i xs).length = m.length :=
  length_modify _ _ _

theorem items_upTo {n : ℕ} (h : m.Has s) (hn : n ≤ s.len) :
    m.upTo s n = some { s with len := n } ∧ m.items { s with len := n } = (m.items s).take n := by
  constructor
  · have hcap := h.2
    rw [upTo, if_pos (by omega), Int.toNat_natCast]
  · rw [items, items, take_take, Nat.min_eq_left hn]

theorem itemsFrom_eq {n : ℕ} (hn : n ≤ s.len) : m.itemsFrom s n = some ((m.items s).drop n) := by
  rw [itemsFrom, if_pos (by omega), Int.toNat_natCast]

theorem at?_eq (i : ℕ) : m.at? s i = (m.items s)[i]? := by
  rw [at?, if_pos (by omega), Int.toNat_natCast]

theorem items_alloc (xs room : List α) :
    (m.alloc xs room).1.Has (m.alloc xs room).2 ∧
      (m.alloc xs room).1.items (m.alloc xs room).2 = xs := by
  refine ⟨⟨?_, ?_⟩, ?_⟩
  · simp [alloc]
  · simp [alloc, cells_concat]
  · simp [alloc, items, cells_concat]

/-- Appending shows the old items and the new ones, wherever they are. -/
theorem items_append (h : m.Has s) (room xs : List α) :
    (m.append room s xs).1.Has (m.append room s xs).2 ∧
      (m.append room s xs).1.items (m.append room s xs).2 = m.items s ++ xs := by
  rw [append]
  split_ifs with hfit
  · have hcells := cells_write (i := s.len) h.1 xs
    refine ⟨⟨?_, ?_⟩, ?_⟩
    · simpa using h.1
    · simp only [hcells, length_append, length_take, length_drop]
      omega
    · have hlen : ((m.cells s.array).take s.len ++ xs).length = s.len + xs.length := by
        rw [length_append, length_take, Nat.min_eq_left h.2]
      simp only [items, hcells]
      rw [← hlen, take_left]
  · exact items_alloc _ _

theorem cells_append_ne {a : ℕ} (ha : a < m.length) (hne : a ≠ s.array) (room xs : List α) :
    (m.append room s xs).1.cells a = m.cells a := by
  rw [append]
  split_ifs
  · exact cells_write_ne hne xs
  · exact cells_append_left ha _

theorem length_append_le (room xs : List α) : m.length ≤ (m.append room s xs).1.length := by
  rw [append]
  split_ifs
  · rw [length_write]
  · simp [alloc]

theorem keeps_of_cells {m' : Arrays α} (h : m.Has s) (hlen : m.length ≤ m'.length)
    (hcells : m'.cells s.array = m.cells s.array) : m'.Has s ∧ m'.items s = m.items s := by
  refine ⟨⟨h.1.trans_le hlen, ?_⟩, ?_⟩
  · rw [hcells]
    exact h.2
  · rw [items, hcells, items]

theorem keeps_alloc (h : m.Has s) (xs room : List α) :
    (m.alloc xs room).1.Has s ∧ (m.alloc xs room).1.items s = m.items s :=
  keeps_of_cells h (by simp [alloc]) (cells_append_left h.1 _)

variable {t : Slice}

theorem keeps_append (h : m.Has s) (hne : s.array ≠ t.array) (room xs : List α) :
    (m.append room t xs).1.Has s ∧ (m.append room t xs).1.items s = m.items s :=
  keeps_of_cells h (length_append_le room xs) (cells_append_ne h.1 hne room xs)

end Arrays

end Centaurx.Go
