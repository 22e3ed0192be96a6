import NetCache.Memory.Chain

/-!
# Doubly linked lists in a heap

`BiLayout` says where a cell type keeps its two links; `Dll h prev first l last after` says that the
nodes `l` hang together in both directions, that the walk along `low` enters at `first` and leaves
to `after`, and that the walk along `high` enters at `last` and leaves to `prev`. A whole list is
the case `prev = after = none`.

## The outer pointers

Keeping the two outer pointers as parameters is what makes insertion and removal local. A list is
cut into two pieces around a node (`dll_append`), each piece has one outer link redirected
(`Dll.redirect_low`, `Dll.redirect_high`), and the pieces are joined again. The nodes in between are
framed away by their addresses, which are distinct (`Dll.nodup`).

## Writes through a pointer that may be `NULL`

Code for such lists is full of `if (p) p->low = q`. That is `modifyIf`, one operation with one rule
for each case, so the four combinations of a node with and without neighbours on either side are one
proof: an end of the list is a piece without nodes, and its outer pointer is `NULL`.

## The two walks

Each direction alone is a segment in the sense of the chains (`Dll.seg_down`, `Dll.seg_up`), and a
loop that only follows one kind of link needs no more than that.
-/

namespace NetCache

namespace Heap

variable {α : Type*}

/-- `if (p != NULL) *p = f(*p)` -/
def modifyIf (h : Heap α) (p : Option Addr) (f : α → α) : Option (Heap α) :=
  match p with
  | none => some h
  | some a => h.modify a f

@[simp] theorem modifyIf_none (h : Heap α) (f : α → α) : h.modifyIf none f = some h := rfl

@[simp] theorem modifyIf_some (h : Heap α) (a : Addr) (f : α → α) :
    h.modifyIf (some a) f = h.modify a f := rfl

end Heap

/-- Where a cell type keeps its two links, and the data that writing them leaves alone. -/
structure BiLayout (α δ : Type*) where
  /-- The link towards the end of the list. -/
  low : Lens α (Option Addr)
  /-- The link towards the front of the list. -/
  high : Lens α (Option Addr)
  /-- The rest of the cell. -/
  data : α → δ
  /-- The links are separate fields. -/
  low_set_high : ∀ p x, low.get (high.set p x) = low.get x
  /-- The links are separate fields. -/
  high_set_low : ∀ p x, high.get (low.set p x) = high.get x
  /-- Relinking keeps the data. -/
  data_set_low : ∀ p x, data (low.set p x) = data x
  /-- Relinking keeps the data. -/
  data_set_high : ∀ p x, data (high.set p x) = data x

namespace BiLayout

variable {α δ : Type*} (B : BiLayout α δ)

/-- The chain along `low`. -/
def down : Layout α δ := ⟨B.low, B.data, B.data_set_low⟩

/-- The chain along `high`. -/
def up : Layout α δ := ⟨B.high, B.data, B.data_set_high⟩

/-- The nodes `l` are doubly linked between `prev` and `after`. -/
def Dll (h : Heap α) :
    Option Addr → Option Addr → List (Addr × δ) → Option Addr → Option Addr → Prop
  | prev, first, [], last, after => first = after ∧ last = prev
  | prev, first, n :: l, last, after =>
    first = some n.1 ∧ ∃ x, h.cell n.1 = some x ∧ B.data x = n.2 ∧ B.high.get x = prev ∧
      Dll h (some n.1) (B.low.get x) l last after

variable {B} {h h' : Heap α} {prev first last after : Option Addr} {l l₁ l₂ : List (Addr × δ)}
  {n : Addr × δ}

@[simp] theorem dll_nil : B.Dll h prev first [] last after ↔ first = after ∧ last = prev := Iff.rfl

theorem dll_cons : B.Dll h prev first (n :: l) last after ↔
    first = some n.1 ∧ ∃ x, h.cell n.1 = some x ∧ B.data x = n.2 ∧ B.high.get x = prev ∧
      B.Dll h (some n.1) (B.low.get x) l last after := Iff.rfl

theorem dll_append : B.Dll h prev first (l₁ ++ l₂) last after ↔
    ∃ u v, B.Dll h prev first l₁ u v ∧ B.Dll h u v l₂ last after := by
  induction l₁ generalizing prev first with
  | nil =>
    constructor
    · exact fun hd ↦ ⟨prev, first, ⟨rfl, rfl⟩, hd⟩
    · rintro ⟨u, v, ⟨rfl, rfl⟩, hd⟩
      exact hd
  | cons n l ih =>
    simp only [List.cons_append, dll_cons, ih]
    constructor
    · rintro ⟨hf, x, hx, hd, hh, u, v, h₁, h₂⟩
      exact ⟨u, v, ⟨hf, x, hx, hd, hh, h₁⟩, h₂⟩
    · rintro ⟨u, v, ⟨hf, x, hx, hd, hh, h₁⟩, h₂⟩
      exact ⟨hf, x, hx, hd, hh, u, v, h₁, h₂⟩

theorem dll_singleton : B.Dll h prev first [n] last after ↔
    first = some n.1 ∧ last = some n.1 ∧
      ∃ x, h.cell n.1 = some x ∧ B.data x = n.2 ∧ B.high.get x = prev ∧ B.low.get x = after := by
  rw [dll_cons]
  constructor
  · rintro ⟨hf, x, hx, hd, hh, hlow, hlast⟩
    exact ⟨hf, hlast, x, hx, hd, hh, hlow⟩
  · rintro ⟨hf, hlast, x, hx, hd, hh, hlow⟩
    exact ⟨hf, x, hx, hd, hh, hlow, hlast⟩

/-! ## The two walks -/

theorem Dll.seg_down (hd : B.Dll h prev first l last after) : B.down.Seg h first l after := by
  induction l generalizing prev first with
  | nil => exact hd.1
  | cons n l ih =>
    obtain ⟨hf, x, hx, hdata, -, htail⟩ := hd
    exact ⟨hf, x, hx, hdata, ih htail⟩

theorem Dll.seg_up (hd : B.Dll h prev first l last after) : B.up.Seg h last l.reverse prev := by
  induction l using List.reverseRecOn generalizing last after with
  | nil => exact hd.2
  | append_singleton l n ih =>
    obtain ⟨u, v, hinit, hlast⟩ := dll_append.mp hd
    obtain ⟨-, rfl, x, hx, hdata, hh, -⟩ := dll_singleton.mp hlast
    rw [List.reverse_append, List.reverse_singleton, List.singleton_append]
    exact ⟨rfl, x, hx, hdata, hh ▸ ih hinit⟩

theorem Dll.nodup (hd : B.Dll h prev first l last none) : (l.map Prod.fst).Nodup :=
  hd.seg_down.nodup

theorem Dll.first_eq_some_iff (hd : B.Dll h prev first (l₁ ++ n :: l₂) last none) :
    first = some n.1 ↔ l₁ = [] := by
  cases l₁ with
  | nil => exact iff_of_true hd.1 rfl
  | cons m l =>
    have hnd := hd.nodup
    simp only [List.cons_append, List.map_cons, List.map_append, List.nodup_cons, List.mem_append,
      List.mem_cons, not_or] at hnd
    refine iff_of_false ?_ (List.cons_ne_nil _ _)
    rw [hd.1, Option.some.injEq]
    exact hnd.1.2.1

theorem Dll.last_eq_some_iff (hd : B.Dll h prev first (l₁ ++ n :: l₂) last none) :
    last = some n.1 ↔ l₂ = [] := by
  induction l₂ using List.reverseRecOn with
  | nil =>
    obtain ⟨_, _, -, hlast⟩ := dll_append.mp hd
    exact iff_of_true (dll_singleton.mp hlast).2.1 rfl
  | append_singleton l m _ =>
    have hnd := hd.nodup
    simp only [List.map_append, List.map_cons, List.nodup_append', List.nodup_cons] at hnd
    rw [← List.cons_append, ← List.append_assoc] at hd
    obtain ⟨_, _, -, hlast⟩ := dll_append.mp hd
    refine iff_of_false ?_ (by simp)
    rw [(dll_singleton.mp hlast).2.1, Option.some.injEq]
    intro heq
    exact hnd.2.1.1 (by simp [heq])

theorem Dll.last_eq_none_iff (hd : B.Dll h none first l last after) : last = none ↔ l = [] := by
  induction l using List.reverseRecOn with
  | nil => exact ⟨fun _ ↦ rfl, fun _ ↦ hd.2⟩
  | append_singleton l n _ =>
    obtain ⟨u, v, -, hlast⟩ := dll_append.mp hd
    simp [(dll_singleton.mp hlast).2.1]

/-! ## Frame rules

What happens at other addresses does not matter to a list. The list is not changed by a write to
one of its own cells either, when the write keeps both links and the data. -/

theorem Dll.congr (hd : B.Dll h prev first l last after)
    (hcell : ∀ n ∈ l, h'.cell n.1 = h.cell n.1) : B.Dll h' prev first l last after := by
  induction l generalizing prev first with
  | nil => exact hd
  | cons n l ih =>
    obtain ⟨hf, x, hx, hdata, hh, htail⟩ := hd
    refine ⟨hf, x, ?_, hdata, hh, ih htail fun m hm ↦ hcell m (List.mem_cons_of_mem _ hm)⟩
    rw [hcell n List.mem_cons_self, hx]

/-- Changing cells outside a set of addresses leaves the lists inside it alone. -/
theorem Dll.frame {s : List Addr} (hd : B.Dll h prev first l last after)
    (hs : ∀ a, a ∉ s → h'.cell a = h.cell a) (hdisj : List.Disjoint (l.map Prod.fst) s) :
    B.Dll h' prev first l last after :=
  hd.congr fun _ hn ↦ hs _ fun hmem ↦ hdisj (List.mem_map_of_mem hn) hmem

theorem Dll.erase {a : Addr} (hd : B.Dll h prev first l last after) (ha : a ∉ l.map Prod.fst) :
    B.Dll (h.erase a) prev first l last after :=
  hd.congr fun _ hn ↦ Heap.erase_ne fun hna ↦ ha (hna ▸ List.mem_map_of_mem hn)

theorem Dll.push {y : α} (hd : B.Dll h prev first l last after) :
    B.Dll (h.push y) prev first l last after := by
  refine hd.congr ?_
  intro n hn
  obtain ⟨x, hx, -⟩ := hd.seg_down.cell hn
  rw [Heap.push_of_cell hx, hx]

/-! ## Redirecting an outer link

Both rules cover the empty list, where there is no node to write to and it is the caller's own
pointer that has to change. -/

/-- The link that leaves the end of a list can be redirected through the last pointer. -/
theorem Dll.redirect_low (hd : B.Dll h none first l last after) (hnd : (l.map Prod.fst).Nodup)
    (v : Option Addr) :
    ∃ h', h.modifyIf last (B.low.set v) = some h' ∧ h'.next = h.next ∧
      B.Dll h' none (if l = [] then v else first) l last v ∧
      ∀ a, a ∉ l.map Prod.fst → h'.cell a = h.cell a := by
  induction l using List.reverseRecOn with
  | nil =>
    obtain ⟨-, rfl⟩ := hd
    exact ⟨h, rfl, rfl, ⟨rfl, rfl⟩, fun _ _ ↦ rfl⟩
  | append_singleton l n _ =>
    obtain ⟨u, w, hinit, hlast⟩ := dll_append.mp hd
    obtain ⟨rfl, rfl, x, hx, hdata, hh, -⟩ := dll_singleton.mp hlast
    have hn : n.1 ∉ l.map Prod.fst := by
      rw [List.map_append, List.nodup_append'] at hnd
      intro hmem
      exact hnd.2.2 hmem (by simp)
    refine ⟨h.update n.1 (B.low.set v), Heap.modify_eq hx, rfl, ?_, ?_⟩
    · rw [if_neg (by simp)]
      refine dll_append.mpr ⟨u, some n.1, ?_, dll_singleton.mpr
        ⟨rfl, rfl, B.low.set v x, Heap.update_self hx, ?_, ?_, B.low.get_set v x⟩⟩
      · exact hinit.congr fun m hm ↦ Heap.update_ne fun hmn ↦ hn (hmn ▸ List.mem_map_of_mem hm)
      · rw [B.data_set_low, hdata]
      · rw [B.high_set_low, hh]
    · intro a ha
      exact Heap.update_ne fun han ↦ ha (by simp [han])

theorem Dll.redirect_high (hd : B.Dll h prev first l last none) (v : Option Addr) :
    ∃ h', h.modifyIf first (B.high.set v) = some h' ∧ h'.next = h.next ∧
      B.Dll h' v first l (if l = [] then v else last) none ∧
      ∀ a, a ∉ l.map Prod.fst → h'.cell a = h.cell a := by
  have hnd := hd.nodup
  cases l with
  | nil =>
    obtain ⟨rfl, -⟩ := hd
    exact ⟨h, rfl, rfl, ⟨rfl, rfl⟩, fun _ _ ↦ rfl⟩
  | cons n l =>
    obtain ⟨rfl, x, hx, hdata, -, htail⟩ := hd
    have hn : n.1 ∉ l.map Prod.fst := (List.nodup_cons.mp hnd).1
    refine ⟨h.update n.1 (B.high.set v), Heap.modify_eq hx, rfl, ?_, ?_⟩
    · rw [if_neg (by simp)]
      refine ⟨rfl, B.high.set v x, Heap.update_self hx, ?_, B.high.get_set v x, ?_⟩
      · rw [B.data_set_high, hdata]
      · rw [B.low_set_high]
        exact htail.congr fun m hm ↦ Heap.update_ne fun hmn ↦ hn (hmn ▸ List.mem_map_of_mem hm)
    · intro a ha
      exact Heap.update_ne fun han ↦ ha (by simp [han])

end BiLayout

end NetCache
