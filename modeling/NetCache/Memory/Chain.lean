import NetCache.Memory.Heap

/-!
# Singly linked chains in a heap

A chain is a run of cells, each pointing at the next. `Layout` says where a cell type keeps its link
and what else of the cell matters; `Seg` relates a pointer, the nodes met from it on, and the
pointer the walk ends at. A node is recorded as its address together with its data, so that one
predicate carries both the shape and the contents.

## Why segments have two ends

A loop over a chain is at some node with part of the chain behind it and part in front. Both parts
are segments, the first ending where the second begins, and `seg_append` cuts and joins them. A
predicate for whole chains only would have to be unfolded at every step of such a loop.

## The rules

* Segments do not notice writes, frees and allocations at other cells (`Seg.update`, `Seg.erase`,
  `Seg.push`).
* The last link of a segment can be redirected (`Seg.set_last`), which is what inserting behind a
  node and unlinking the node after it both come to.
* A segment that ends at `NULL` is determined by its first pointer (`Seg.unique`). Two positions
  with one address would start equal segments of different lengths, so such a segment is acyclic
  (`Seg.nodup`), and no longer than the number of allocations (`Seg.length_le`).
-/

namespace NetCache

theorem nodup_map_middle {α β : Type*} {f : α → β} {a : α} {l₁ l₂ : List α}
    (h : ((l₁ ++ a :: l₂).map f).Nodup) :
    f a ∉ (l₁ ++ l₂).map f ∧ ((l₁ ++ l₂).map f).Nodup := by
  rw [List.map_append, List.map_cons] at h
  rw [List.map_append]
  exact List.nodup_cons.mp (List.nodup_middle.mp h)

/-- A field of a cell type. -/
structure Lens (α β : Type*) where
  /-- The value of the field. -/
  get : α → β
  /-- The cell with the field replaced. -/
  set : β → α → α
  /-- A field reads back what was written. -/
  get_set : ∀ b x, get (set b x) = b

/-- Where a cell type keeps its link, and the data that writing the link leaves alone. -/
structure Layout (α δ : Type*) where
  /-- The link field. -/
  next : Lens α (Option Addr)
  /-- The rest of the cell. -/
  data : α → δ
  /-- Relinking keeps the data. -/
  data_set : ∀ p x, data (next.set p x) = data x

namespace Layout

variable {α δ : Type*} (L : Layout α δ)

/-- Following `next` from `p` visits the nodes of the list in order and then arrives at `q`. -/
def Seg (h : Heap α) : Option Addr → List (Addr × δ) → Option Addr → Prop
  | p, [], q => p = q
  | p, n :: l, q =>
    p = some n.1 ∧ ∃ x, h.cell n.1 = some x ∧ L.data x = n.2 ∧ Seg h (L.next.get x) l q

variable {L} {h h' : Heap α} {p q r : Option Addr} {l l₁ l₂ : List (Addr × δ)} {n : Addr × δ}

@[simp] theorem seg_nil : L.Seg h p [] q ↔ p = q := Iff.rfl

theorem seg_cons : L.Seg h p (n :: l) q ↔
    p = some n.1 ∧ ∃ x, h.cell n.1 = some x ∧ L.data x = n.2 ∧ L.Seg h (L.next.get x) l q := Iff.rfl

theorem seg_append : L.Seg h p (l₁ ++ l₂) q ↔ ∃ r, L.Seg h p l₁ r ∧ L.Seg h r l₂ q := by
  induction l₁ generalizing p with
  | nil => simp
  | cons n l ih =>
    simp only [List.cons_append, seg_cons, ih]
    constructor
    · rintro ⟨hp, x, hx, hd, r, h₁, h₂⟩
      exact ⟨r, ⟨hp, x, hx, hd, h₁⟩, h₂⟩
    · rintro ⟨r, ⟨hp, x, hx, hd, h₁⟩, h₂⟩
      exact ⟨hp, x, hx, hd, r, h₁, h₂⟩

/-- **Frame.** A segment depends on its own cells only. -/
theorem Seg.congr (hs : L.Seg h p l q) (hcell : ∀ n ∈ l, h'.cell n.1 = h.cell n.1) :
    L.Seg h' p l q := by
  induction l generalizing p with
  | nil => exact hs
  | cons n l ih =>
    obtain ⟨hp, x, hx, hd, htail⟩ := hs
    refine ⟨hp, x, ?_, hd, ih htail fun m hm ↦ hcell m (List.mem_cons_of_mem _ hm)⟩
    rw [hcell n List.mem_cons_self, hx]

theorem Seg.cell (hs : L.Seg h p l q) (hn : n ∈ l) :
    ∃ x, h.cell n.1 = some x ∧ L.data x = n.2 := by
  induction l generalizing p with
  | nil => exact absurd hn List.not_mem_nil
  | cons m l ih =>
    obtain ⟨-, x, hx, hd, htail⟩ := hs
    rcases List.mem_cons.mp hn with rfl | hn
    · exact ⟨x, hx, hd⟩
    · exact ih htail hn

theorem Seg.update {a : Addr} {f : α → α} (hs : L.Seg h p l q) (ha : a ∉ l.map Prod.fst) :
    L.Seg (h.update a f) p l q :=
  hs.congr fun _ hn ↦ Heap.update_ne fun hna ↦ ha (hna ▸ List.mem_map_of_mem hn)

theorem Seg.erase {a : Addr} (hs : L.Seg h p l q) (ha : a ∉ l.map Prod.fst) :
    L.Seg (h.erase a) p l q :=
  hs.congr fun _ hn ↦ Heap.erase_ne fun hna ↦ ha (hna ▸ List.mem_map_of_mem hn)

theorem Seg.push {y : α} (hs : L.Seg h p l q) : L.Seg (h.push y) p l q := by
  refine hs.congr ?_
  intro n hn
  obtain ⟨x, hx, -⟩ := hs.cell hn
  rw [Heap.push_of_cell hx, hx]

theorem Seg.set_last (hs : L.Seg h p (l ++ [n]) q) (hn : n.1 ∉ l.map Prod.fst) (r : Option Addr) :
    L.Seg (h.update n.1 (L.next.set r)) p (l ++ [n]) r := by
  obtain ⟨m, hl, hp, x, hx, hd, -⟩ := seg_append.mp hs
  refine seg_append.mpr ⟨m, hl.update hn, hp, L.next.set r x, Heap.update_self hx, ?_, ?_⟩
  · rw [L.data_set, hd]
  · rw [L.next.get_set]
    rfl

/-- The pointer after a segment is determined by its last node. -/
theorem Seg.next_last (hs : L.Seg h p (l ++ [n]) q) :
    ∃ x, h.cell n.1 = some x ∧ L.data x = n.2 ∧ L.next.get x = q := by
  obtain ⟨-, -, -, x, hx, hd, hq⟩ := seg_append.mp hs
  exact ⟨x, hx, hd, hq⟩

/-- A segment that ends at `NULL` is determined by where it starts. -/
theorem Seg.unique (h₁ : L.Seg h p l₁ none) (h₂ : L.Seg h p l₂ none) : l₁ = l₂ := by
  induction l₁ generalizing p l₂ with
  | nil =>
    cases l₂ with
    | nil => rfl
    | cons m l₂ =>
      obtain rfl : p = none := h₁
      exact absurd h₂.1 (by simp)
  | cons n l ih =>
    obtain ⟨rfl, x, hx, hd, htail⟩ := h₁
    cases l₂ with
    | nil => exact absurd (seg_nil.mp h₂) (by simp)
    | cons m l₂ =>
      obtain ⟨hnm, y, hy, hdy, htail₂⟩ := h₂
      have hfst : n.1 = m.1 := Option.some.inj hnm
      rw [← hfst, hx, Option.some.injEq] at hy
      subst hy
      rw [ih htail htail₂, Prod.ext hfst (hd.symm.trans hdy)]

theorem Seg.nodup (hs : L.Seg h p l none) : (l.map Prod.fst).Nodup := by
  induction l generalizing p with
  | nil => exact List.nodup_nil
  | cons n l ih =>
    obtain ⟨-, x, hx, hd, htail⟩ := hs
    refine List.nodup_cons.mpr ⟨fun hmem ↦ ?_, ih htail⟩
    -- a second visit would give two different walks from the same cell
    obtain ⟨m, hm, hmn⟩ := List.mem_map.mp hmem
    obtain ⟨s, t, rfl⟩ := List.append_of_mem hm
    obtain ⟨r, -, rfl, y, hy, hdy, hrest⟩ := seg_append.mp htail
    rw [hmn, hx, Option.some.injEq] at hy
    subst hy
    have hlen := congrArg List.length (htail.unique hrest)
    simp only [List.length_append, List.length_cons] at hlen
    omega

/-- A walk to `NULL` is no longer than the number of allocations. -/
theorem Seg.length_le (hs : L.Seg h p l none) : l.length ≤ h.next := by
  have hlen := Heap.length_le_next hs.nodup fun a ha ↦ by
    obtain ⟨n, hn, rfl⟩ := List.mem_map.mp ha
    obtain ⟨x, hx, -⟩ := hs.cell hn
    exact ⟨x, hx⟩
  rwa [List.length_map] at hlen

end Layout

end NetCache
