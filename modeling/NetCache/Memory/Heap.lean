import Mathlib.Data.List.Nodup
import Mathlib.Data.List.Range
import Mathlib.Data.Finset.Card

/-!
# Heaps of cells

A typed heap: finitely many live cells, each at an address the allocator handed out. `NULL` is the
`none` of `Option Addr`, so a pointer field has type `Option Addr` and reading through it is
partial. Every operation that dereferences an address answers `none` when no live cell is there; a
model built on this heap therefore shows a dangling or null dereference as a failure of the whole
run, and a theorem that a run succeeds says that none happens.

## Fresh addresses

Addresses are never handed out twice. A stale pointer then reads as dangling instead of aliasing a
later object, which makes use after free visible; a program that never reads a stale pointer cannot
tell the difference. The counter `next` is also what bounds a walk: distinct live addresses number
at most `next`, so a loop over an acyclic chain may take `next` as its fuel, and running out of it
means that a cell was met twice.

## Why the heap is a structure

The field that says that all live cells lie below `next` is part of the heap, so it need not be an
invariant of any program that uses one. It makes the live cells a finite set, and counting them is
how a program's allocations are compared with what its data needs: a program that has as many live
cells as entries, each entry with a cell of its own, has leaked nothing.
-/

namespace NetCache

/-- The address of a cell. -/
abbrev Addr := ℕ

/-- The live cells of one type. -/
structure Heap (α : Type*) where
  /-- The cell at an address, if it is live. -/
  cell : Addr → Option α
  /-- No address from here on was ever handed out. -/
  next : ℕ
  /-- Live addresses were handed out. -/
  cell_eq_none : ∀ a : ℕ, next ≤ a → cell a = none

namespace Heap

variable {α : Type*}

/-- The heap before any allocation. -/
def empty : Heap α where
  cell := fun _ ↦ none
  next := 0
  cell_eq_none := fun _ _ ↦ rfl

/-- `*a` -/
def read (h : Heap α) (a : Addr) : Option α := h.cell a

/-- Rewrite the cell at `a` if it is live. The total function behind `modify`. -/
def update (h : Heap α) (a : Addr) (f : α → α) : Heap α where
  cell := fun b ↦ if b = a then (h.cell b).map f else h.cell b
  next := h.next
  cell_eq_none := fun b hb ↦ by simp [h.cell_eq_none b hb]

/-- `*a = f(*a)`, undefined unless `a` is live. -/
def modify (h : Heap α) (a : Addr) (f : α → α) : Option (Heap α) :=
  (h.cell a).map fun _ ↦ h.update a f

/-- Drop the cell at `a`. The total function behind `free`. -/
def erase (h : Heap α) (a : Addr) : Heap α where
  cell := fun b ↦ if b = a then none else h.cell b
  next := h.next
  cell_eq_none := fun b hb ↦ by simp [h.cell_eq_none b hb]

/-- `free(a)`, undefined unless `a` is live. -/
def free (h : Heap α) (a : Addr) : Option (Heap α) :=
  (h.cell a).map fun _ ↦ h.erase a

/-- The heap after `malloc` returned `h.next` and `x` was stored there. -/
def push (h : Heap α) (x : α) : Heap α where
  cell := fun b ↦ if b = h.next then some x else h.cell b
  next := h.next + 1
  cell_eq_none := fun b hb ↦ by
    rw [if_neg (Nat.lt_of_succ_le hb).ne']
    exact h.cell_eq_none b (Nat.le_of_succ_le hb)

/-- `malloc` followed by the initialisation of the new cell. -/
def alloc (h : Heap α) (x : α) : Addr × Heap α := (h.next, h.push x)

variable {h : Heap α} {a b : Addr} {x : α} {f : α → α}

@[simp] theorem empty_cell (a : Addr) : (empty : Heap α).cell a = none := rfl

@[simp] theorem update_next : (h.update a f).next = h.next := rfl

@[simp] theorem erase_next : (h.erase a).next = h.next := rfl

@[simp] theorem push_next : (h.push x).next = h.next + 1 := rfl

theorem lt_next {a : ℕ} (hx : h.cell a = some x) : a < h.next := by
  by_contra hn
  rw [h.cell_eq_none a (not_lt.mp hn)] at hx
  exact absurd hx (by simp)

theorem read_eq (hx : h.cell a = some x) : h.read a = some x := hx

theorem modify_eq (hx : h.cell a = some x) : h.modify a f = some (h.update a f) := by
  rw [modify, hx, Option.map_some]

theorem free_eq (hx : h.cell a = some x) : h.free a = some (h.erase a) := by
  rw [free, hx, Option.map_some]

theorem update_self (hx : h.cell a = some x) : (h.update a f).cell a = some (f x) := by
  simp [update, hx]

theorem update_ne (hb : b ≠ a) : (h.update a f).cell b = h.cell b := by
  simp [update, hb]

theorem erase_ne (hb : b ≠ a) : (h.erase a).cell b = h.cell b := by
  simp [erase, hb]

@[simp] theorem push_self : (h.push x).cell h.next = some x := by
  simp [push]

theorem push_of_cell {y : α} (hb : h.cell b = some y) : (h.push x).cell b = some y := by
  simp [push, (lt_next hb).ne, hb]

/-- Distinct live addresses number at most the allocations so far. This is what bounds every walk
along an acyclic chain. -/
theorem length_le_next {l : List Addr} (hnd : l.Nodup) (hl : ∀ a ∈ l, ∃ x, h.cell a = some x) :
    l.length ≤ h.next := by
  have hsub : l.toFinset ⊆ Finset.range h.next := by
    intro a ha
    obtain ⟨x, hx⟩ := hl a (List.mem_toFinset.mp ha)
    exact Finset.mem_range.mpr (lt_next hx)
  calc l.length = l.toFinset.card := (List.toFinset_card_of_nodup hnd).symm
    _ ≤ (Finset.range h.next).card := Finset.card_le_card hsub
    _ = h.next := Finset.card_range _

/-! ## Live cells

Counting the live cells accounts for every allocation: what is allocated and not yet freed is
counted, so a count that matches the objects a program still knows says that none was lost. -/

/-- The live addresses. -/
def live (h : Heap α) : Finset Addr := (Finset.range h.next).filter fun a ↦ (h.cell a).isSome

theorem mem_live : a ∈ h.live ↔ ∃ x, h.cell a = some x := by
  rw [live, Finset.mem_filter, Finset.mem_range, Option.isSome_iff_exists]
  refine ⟨And.right, ?_⟩
  rintro ⟨x, hx⟩
  exact ⟨lt_next hx, x, hx⟩

@[simp] theorem live_empty : (empty : Heap α).live = ∅ := rfl

@[simp] theorem live_update : (h.update a f).live = h.live := by
  ext b
  rw [mem_live, mem_live]
  by_cases hb : b = a
  · subst hb
    simp [update]
  · rw [update_ne hb]

theorem live_erase : (h.erase a).live = h.live.erase a := by
  ext b
  rw [Finset.mem_erase, mem_live, mem_live]
  by_cases hb : b = a
  · simp [erase, hb]
  · simp [erase_ne hb, hb]

theorem card_live_free {h' : Heap α} (hfree : h.free a = some h') :
    h'.live.card + 1 = h.live.card := by
  obtain ⟨x, hx, rfl⟩ := Option.map_eq_some_iff.mp hfree
  rw [live_erase, Finset.card_erase_add_one (mem_live.mpr ⟨x, hx⟩)]

theorem live_push : (h.push x).live = insert h.next h.live := by
  ext b
  rw [Finset.mem_insert, mem_live, mem_live]
  by_cases hb : b = h.next
  · subst hb
    simp
  · simp [push, hb]

@[simp] theorem card_live_push : (h.push x).live.card = h.live.card + 1 := by
  rw [live_push, Finset.card_insert_of_notMem]
  intro hmem
  obtain ⟨y, hy⟩ := mem_live.mp hmem
  exact (lt_next hy).false

/-- Distinct live addresses, as many as there are live cells, are all of them. -/
theorem mem_of_card_live {l : List Addr} (hnd : l.Nodup) (hl : ∀ a ∈ l, ∃ x, h.cell a = some x)
    (hcard : h.live.card = l.length) (ha : h.cell a = some x) : a ∈ l := by
  have hsub : l.toFinset ⊆ h.live := fun b hb ↦ mem_live.mpr (hl b (List.mem_toFinset.mp hb))
  have heq : l.toFinset = h.live :=
    Finset.eq_of_subset_of_card_le hsub (by rw [hcard, List.toFinset_card_of_nodup hnd])
  rw [← List.mem_toFinset, heq]
  exact mem_live.mpr ⟨x, ha⟩

end Heap

end NetCache
