import Mathlib.Data.List.Nodup
import Mathlib.Data.List.Infix
import Mathlib.Algebra.BigOperators.Group.List.Basic
import Mathlib.Order.Bounds.Defs

/-!
# Least recently used stores

The abstract object behind an LRU cache: a list of key-value entries, most recently used first, over
arbitrary types of keys and values.

## Representation

A list holds both what is stored and the order of use, so the two cannot disagree. That a key has at
most one entry is a property of the list, `(keys l).Nodup`, kept by every call (`nodup_keys_step`),
and a hypothesis where it matters. Looking a key up (`find`) and dropping it (`remove`) make sense
without it, and many of their laws hold without it.

## Capacities

What an implementation may hold is abstracted as a `Capacity`: which values it takes at all, and
when a value fits beside the entries that are left. Two capacities matter in practice, exact byte
counting and counting with a machine word, and the calls are defined once for both. A capacity that
takes a value must say so of the value alone: implementations refuse a value before they look at
what could go.

## Eviction

`evict` drops entries from the least recent end, one at a time, until the rest fits. Nothing is
assumed about what fits: with counters that wrap, a list may fit of which a part does not. What
eviction keeps is the longest prefix that fits (`prefix_evict`), and so the number of entries that
go is the least that makes room (`isLeast_evicted`).
-/

namespace NetCache

namespace Lru

variable {κ ν : Type*} {k k' : κ} {v : ν} {e : κ × ν} {l l' : List (κ × ν)}

/-! ## Entries -/

/-- The keys of a list of entries. -/
def keys (l : List (κ × ν)) : List κ := l.map Prod.fst

@[simp] theorem keys_nil : keys ([] : List (κ × ν)) = [] := rfl

theorem nodup_keys_nil : (keys ([] : List (κ × ν))).Nodup := List.nodup_nil

@[simp] theorem keys_cons : keys (e :: l) = e.1 :: keys l := rfl

@[simp] theorem keys_append : keys (l ++ l') = keys l ++ keys l' := List.map_append

theorem mem_keys : k ∈ keys l ↔ ∃ v, (k, v) ∈ l := by
  simp [keys]

theorem mem_keys_of_mem (he : e ∈ l) : e.1 ∈ keys l := List.mem_map_of_mem he

theorem keys_sublist (h : l.Sublist l') : (keys l).Sublist (keys l') := h.map _

variable [DecidableEq κ]

/-- The value stored for `k`. -/
def find (k : κ) (l : List (κ × ν)) : Option ν := (l.find? fun e ↦ e.1 = k).map Prod.snd

/-- The entries without those of `k`. -/
def remove (k : κ) (l : List (κ × ν)) : List (κ × ν) := l.filter fun e ↦ e.1 ≠ k

@[simp] theorem find_nil : find k ([] : List (κ × ν)) = none := rfl

theorem find_cons : find k (e :: l) = if e.1 = k then some e.2 else find k l := by
  by_cases h : e.1 = k <;> simp [find, h]

@[simp] theorem find_cons_self : find k ((k, v) :: l) = some v := by
  rw [find_cons, if_pos rfl]

theorem find_cons_ne (h : e.1 ≠ k) : find k (e :: l) = find k l := by
  rw [find_cons, if_neg h]

theorem find_eq_none_iff : find k l = none ↔ k ∉ keys l := by
  induction l with
  | nil => simp
  | cons e l ih =>
    rw [find_cons, keys_cons, List.mem_cons]
    by_cases h : e.1 = k
    · simp [h]
    · simp [h, Ne.symm h, ih]

theorem mem_of_find (h : find k l = some v) : (k, v) ∈ l := by
  induction l with
  | nil => simp at h
  | cons e l ih =>
    by_cases hk : e.1 = k
    · rw [find_cons, if_pos hk, Option.some.injEq] at h
      obtain rfl : e = (k, v) := Prod.ext hk h
      exact List.mem_cons_self
    · rw [find_cons_ne hk] at h
      exact List.mem_cons_of_mem _ (ih h)

theorem find_eq_some_iff (hnd : (keys l).Nodup) : find k l = some v ↔ (k, v) ∈ l := by
  refine ⟨mem_of_find, ?_⟩
  intro hmem
  induction l with
  | nil => simp at hmem
  | cons e l ih =>
    rw [keys_cons, List.nodup_cons] at hnd
    rcases List.mem_cons.mp hmem with rfl | hmem
    · exact find_cons_self
    · have hne : e.1 ≠ k := fun h ↦ hnd.1 (h ▸ mem_keys_of_mem hmem)
      rw [find_cons_ne hne, ih hnd.2 hmem]

theorem find_perm (hnd : (keys l).Nodup) (hp : l.Perm l') : find k l = find k l' := by
  have hnd' : (keys l').Nodup := (hp.map Prod.fst).nodup_iff.mp hnd
  cases h : find k l' with
  | none =>
    rw [find_eq_none_iff] at h ⊢
    intro hmem
    exact h ((hp.map Prod.fst).mem_iff.mp hmem)
  | some v =>
    rw [find_eq_some_iff hnd'] at h
    rw [find_eq_some_iff hnd]
    exact hp.mem_iff.mpr h

theorem mem_remove : e ∈ remove k l ↔ e ∈ l ∧ e.1 ≠ k := by
  simp [remove]

theorem mem_keys_remove : k' ∈ keys (remove k l) ↔ k' ∈ keys l ∧ k' ≠ k := by
  simp only [mem_keys, mem_remove]
  exact ⟨fun ⟨v, hv, hne⟩ ↦ ⟨⟨v, hv⟩, hne⟩, fun ⟨⟨v, hv⟩, hne⟩ ↦ ⟨v, hv, hne⟩⟩

@[simp] theorem remove_nil : remove k ([] : List (κ × ν)) = [] := rfl

@[simp] theorem remove_cons_self : remove k ((k, v) :: l) = remove k l := by
  simp [remove]

theorem remove_cons_ne (h : e.1 ≠ k) : remove k (e :: l) = e :: remove k l := by
  simp [remove, h]

theorem remove_append : remove k (l ++ l') = remove k l ++ remove k l' := List.filter_append ..

theorem remove_of_notMem (h : k ∉ keys l) : remove k l = l :=
  List.filter_eq_self.mpr fun e he ↦ by
    simpa using fun hk : e.1 = k ↦ h (hk ▸ mem_keys_of_mem he)

theorem remove_eq_self_iff : remove k l = l ↔ k ∉ keys l := by
  refine ⟨?_, remove_of_notMem⟩
  intro h hmem
  rw [← h] at hmem
  exact (mem_keys_remove.mp hmem).2 rfl

theorem remove_sublist : (remove k l).Sublist l := List.filter_sublist

theorem nodup_keys_remove (hnd : (keys l).Nodup) : (keys (remove k l)).Nodup :=
  hnd.sublist (keys_sublist remove_sublist)

theorem remove_comm : remove k (remove k' l) = remove k' (remove k l) := by
  rw [remove, remove, remove, remove, List.filter_filter, List.filter_filter]
  exact List.filter_congr fun e _ ↦ Bool.and_comm ..

@[simp] theorem find_remove_self : find k (remove k l) = none := by
  rw [find_eq_none_iff, mem_keys_remove]
  intro h
  exact h.2 rfl

theorem find_remove_ne (h : k' ≠ k) : find k' (remove k l) = find k' l := by
  induction l with
  | nil => rfl
  | cons e l ih =>
    obtain ⟨a, v⟩ := e
    by_cases ha : a = k
    · rw [ha, remove_cons_self, ih, find_cons_ne h.symm]
    · rw [remove_cons_ne ha, find_cons, find_cons, ih]

theorem remove_of_append (hnd : (keys (l ++ (k, v) :: l')).Nodup) :
    remove k (l ++ (k, v) :: l') = l ++ l' := by
  rw [keys_append, keys_cons] at hnd
  have hl : k ∉ keys l := fun h ↦ (List.nodup_append'.mp hnd).2.2 h List.mem_cons_self
  have hl' : k ∉ keys l' := (List.nodup_cons.mp (List.nodup_append'.mp hnd).2.1).1
  rw [remove_append, remove_cons_self, remove_of_notMem hl, remove_of_notMem hl']

/-- Using an entry makes it the most recent one. -/
def touch (k : κ) (l : List (κ × ν)) : List (κ × ν) :=
  match find k l with
  | none => l
  | some v => (k, v) :: remove k l

theorem touch_of_none (h : find k l = none) : touch k l = l := by
  rw [touch, h]

theorem touch_of_some (h : find k l = some v) : touch k l = (k, v) :: remove k l := by
  rw [touch, h]

theorem perm_cons_remove (hnd : (keys l).Nodup) (h : (k, v) ∈ l) :
    ((k, v) :: remove k l).Perm l := by
  obtain ⟨s, t, rfl⟩ := List.append_of_mem h
  rw [remove_of_append hnd]
  exact List.perm_middle.symm

theorem touch_perm (hnd : (keys l).Nodup) : (touch k l).Perm l := by
  cases h : find k l with
  | none => rw [touch_of_none h]
  | some v =>
    rw [touch_of_some h]
    exact perm_cons_remove hnd (mem_of_find h)

theorem mem_of_mem_touch (he : e ∈ touch k l) : e ∈ l := by
  cases h : find k l with
  | none => rwa [touch_of_none h] at he
  | some v =>
    rw [touch_of_some h] at he
    rcases List.mem_cons.mp he with rfl | he
    · exact mem_of_find h
    · exact (mem_remove.mp he).1

/-- Using an entry changes nothing only when it is the most recent one already. -/
theorem touch_eq_self_iff (hnd : (keys l).Nodup) :
    touch k l = l ↔ k ∉ keys l ∨ ∃ v t, l = (k, v) :: t := by
  constructor
  · intro h
    cases hfind : find k l with
    | none => exact Or.inl (find_eq_none_iff.mp hfind)
    | some v => exact Or.inr ⟨v, remove k l, by rw [← touch_of_some hfind, h]⟩
  · rintro (hk | ⟨v, t, rfl⟩)
    · exact touch_of_none (find_eq_none_iff.mpr hk)
    · rw [touch_of_some find_cons_self, remove_cons_self, remove_of_notMem]
      exact (List.nodup_cons.mp hnd).1

theorem ext_of_find (hnd : (keys l).Nodup) (hkeys : keys l = keys l')
    (hfind : ∀ k, find k l = find k l') : l = l' := by
  induction l generalizing l' with
  | nil => exact (List.map_eq_nil_iff.mp hkeys.symm).symm
  | cons e l ih =>
    obtain ⟨k, v⟩ := e
    cases l' with
    | nil => simp at hkeys
    | cons e' l' =>
      obtain ⟨k', v'⟩ := e'
      rw [keys_cons, List.nodup_cons] at hnd
      rw [keys_cons, keys_cons] at hkeys
      obtain ⟨hk, htail⟩ := List.cons.inj hkeys
      obtain rfl : k = k' := hk
      have hv := hfind k
      rw [find_cons_self, find_cons_self, Option.some.injEq] at hv
      rw [hv, ih hnd.2 htail]
      intro a
      by_cases ha : k = a
      · subst ha
        rw [find_eq_none_iff.mpr hnd.1, find_eq_none_iff.mpr (htail ▸ hnd.1)]
      · simpa [find_cons, ha] using hfind a

theorem nodup_keys_touch (hnd : (keys l).Nodup) : (keys (touch k l)).Nodup :=
  ((touch_perm hnd).map Prod.fst).nodup_iff.mpr hnd

/-! ## Eviction

The laws are proved from the least recent end of the list, where eviction works: a list that does
not fit loses its last entry (`evict_concat`), and a list that fits is left alone. -/

section Evict

variable {α : Type*} (fits : List α → Bool)

/-- Drop the last entry, at most `n` times, while the list does not fit. -/
def evictLoop : ℕ → List α → List α
  | 0, l => l
  | n + 1, l => if fits l then l else evictLoop n l.dropLast

/-- Drop entries from the least recent end, one at a time, just until the list fits. -/
def evict (l : List α) : List α := evictLoop fits l.length l

variable {fits}

@[simp] theorem evict_nil : evict fits [] = [] := rfl

theorem evict_of_fits {l : List α} (h : fits l = true) : evict fits l = l := by
  cases l with
  | nil => rfl
  | cons a l => rw [evict, List.length_cons, evictLoop, if_pos h]

theorem evict_concat {l : List α} {a : α} (h : fits (l ++ [a]) = false) :
    evict fits (l ++ [a]) = evict fits l := by
  rw [evict, List.length_append, List.length_singleton, evictLoop, if_neg (by simp [h]),
    List.dropLast_concat, evict]

theorem evict_isPrefix (fits : List α → Bool) (l : List α) : evict fits l <+: l := by
  induction l using List.reverseRecOn with
  | nil => exact List.prefix_refl _
  | append_singleton l a ih =>
    cases h : fits (l ++ [a]) with
    | true => rw [evict_of_fits h]
    | false =>
      rw [evict_concat h]
      exact ih.trans (List.prefix_append _ _)

theorem fits_evict (h : fits [] = true) (l : List α) : fits (evict fits l) = true := by
  induction l using List.reverseRecOn with
  | nil => exact h
  | append_singleton l a ih =>
    cases hl : fits (l ++ [a]) with
    | true => rw [evict_of_fits hl, hl]
    | false => rw [evict_concat hl, ih]

/-- Evicting under a stricter bound subsumes evicting under a weaker one first. -/
theorem evict_evict {fits' : List α → Bool} (h : ∀ p, fits' p = true → fits p = true)
    (l : List α) : evict fits' (evict fits l) = evict fits' l := by
  induction l using List.reverseRecOn with
  | nil => rfl
  | append_singleton l a ih =>
    cases hl : fits (l ++ [a]) with
    | true => rw [evict_of_fits hl]
    | false =>
      have hl' : fits' (l ++ [a]) = false := by
        by_contra hc
        rw [h _ (by simpa using hc)] at hl
        exact absurd hl (by simp)
      rw [evict_concat hl, evict_concat hl', ih]

theorem evict_cons {a : α} (h : fits [a] = true) (l : List α) :
    evict fits (a :: l) = a :: evict (fun p ↦ fits (a :: p)) l := by
  induction l using List.reverseRecOn with
  | nil => exact evict_of_fits h
  | append_singleton l b ih =>
    cases hl : fits (a :: (l ++ [b])) with
    | true =>
      have hkeep : evict (fun p ↦ fits (a :: p)) (l ++ [b]) = l ++ [b] := evict_of_fits hl
      rw [evict_of_fits hl, hkeep]
    | false =>
      have hdrop : evict (fun p ↦ fits (a :: p)) (l ++ [b]) = evict (fun p ↦ fits (a :: p)) l :=
        evict_concat hl
      rw [← List.cons_append, evict_concat hl, ih, hdrop]

/-- **Eviction is minimal**: it keeps every prefix that fits. -/
theorem prefix_evict {l p : List α} (hp : p <+: l) (h : fits p = true) : p <+: evict fits l := by
  induction l using List.reverseRecOn with
  | nil => exact hp
  | append_singleton l a ih =>
    cases hl : fits (l ++ [a]) with
    | true => rwa [evict_of_fits hl]
    | false =>
      rw [evict_concat hl]
      refine ih ?_
      rcases List.prefix_concat_iff.mp hp with rfl | hp
      · rw [h] at hl
        exact absurd hl (by simp)
      · exact hp

/-- The number of entries that go is the least that makes room. -/
theorem isLeast_evicted (h : fits [] = true) (l : List α) :
    IsLeast {k | fits (l.take (l.length - k)) = true} (l.length - (evict fits l).length) := by
  have hp := evict_isPrefix fits l
  have hle := hp.length_le
  constructor
  · show fits (l.take (l.length - (l.length - (evict fits l).length))) = true
    rw [Nat.sub_sub_self hle, ← List.prefix_iff_eq_take.mp hp]
    exact fits_evict h l
  · intro k hk
    have hkept := (prefix_evict (List.take_prefix (l.length - k) l) hk).length_le
    rw [List.length_take_of_le (Nat.sub_le _ _)] at hkept
    omega

theorem evict_congr {fits' : List α → Bool} {l : List α} (h : ∀ p, p <+: l → fits p = fits' p) :
    evict fits l = evict fits' l := by
  induction l using List.reverseRecOn with
  | nil => rfl
  | append_singleton l a ih =>
    have ha := h _ (List.prefix_refl _)
    cases hl : fits' (l ++ [a]) with
    | true => rw [evict_of_fits (ha.trans hl), evict_of_fits hl]
    | false =>
      rw [evict_concat (ha.trans hl), evict_concat hl]
      exact ih fun p hp ↦ h p (hp.trans (List.prefix_append _ _))

/-- An end that does not fit, nor any part of it, goes first. -/
theorem evict_append {l t : List α} (h : ∀ p, p <+: t → p ≠ [] → fits (l ++ p) = false) :
    evict fits (l ++ t) = evict fits l := by
  induction t using List.reverseRecOn with
  | nil => rw [List.append_nil]
  | append_singleton t a ih =>
    have hlast : fits ((l ++ t) ++ [a]) = false := by
      rw [List.append_assoc]
      exact h _ (List.prefix_refl _) (by simp)
    rw [← List.append_assoc, evict_concat hlast]
    exact ih fun p hp hne ↦ h p (hp.trans (List.prefix_append _ _)) hne

/-- What is kept does not fit together with the first entry that goes. -/
theorem not_fits_evict_concat {l t : List α} {a : α} (hl : l = evict fits l ++ a :: t) :
    fits (evict fits l ++ [a]) = false := by
  by_contra hfits
  have hpre : evict fits l ++ [a] <+: l :=
    ⟨t, by rw [List.append_assoc, List.singleton_append, ← hl]⟩
  have hlen := (prefix_evict hpre (by simpa using hfits)).length_le
  rw [List.length_append, List.length_singleton] at hlen
  omega

theorem evict_eq_self_iff {l : List α} : evict fits l = l ↔ fits l = true ∨ l = [] := by
  induction l using List.reverseRecOn with
  | nil => simp
  | append_singleton l a _ =>
    cases h : fits (l ++ [a]) with
    | true => simp [evict_of_fits h]
    | false =>
      have hlen := (evict_isPrefix fits l).length_le
      rw [evict_concat h]
      refine iff_of_false ?_ (by simp)
      intro heq
      rw [heq, List.length_append, List.length_singleton] at hlen
      omega

theorem evict_map {β : Type*} (f : β → α) (l : List β) :
    evict fits (l.map f) = (evict (fun p ↦ fits (p.map f)) l).map f := by
  induction l using List.reverseRecOn with
  | nil => rfl
  | append_singleton l b ih =>
    rw [List.map_append, List.map_singleton]
    cases h : fits (l.map f ++ [f b]) with
    | true =>
      have hkeep : evict (fun p ↦ fits (p.map f)) (l ++ [b]) = l ++ [b] :=
        evict_of_fits (by simpa using h)
      rw [evict_of_fits h, hkeep, List.map_append, List.map_singleton]
    | false =>
      have hdrop : evict (fun p ↦ fits (p.map f)) (l ++ [b]) = evict (fun p ↦ fits (p.map f)) l :=
        evict_concat (by simpa using h)
      rw [evict_concat h, hdrop, ih]

end Evict

omit [DecidableEq κ] in
theorem nodup_keys_evict {fits : List (κ × ν) → Bool} (hnd : (keys l).Nodup) :
    (keys (evict fits l)).Nodup :=
  hnd.sublist (keys_sublist (evict_isPrefix fits l).sublist)

/-! ## Calls -/

/-- What a store may hold. -/
structure Capacity (κ ν : Type*) where
  /-- The values it takes at all. -/
  admits : ν → Bool
  /-- Whether a value fits beside the entries. -/
  fits : ν → List (κ × ν) → Bool

/-- A call to the store. -/
inductive Call (κ ν : Type*)
  /-- Store a value. -/
  | set (k : κ) (v : ν)
  /-- Look a key up, and use its entry. -/
  | get (k : κ)
  /-- Drop a key. -/
  | delete (k : κ)

/-- The key of a call. -/
def Call.key {κ ν : Type*} : Call κ ν → κ
  | set k _ => k
  | get k => k
  | delete k => k

/-- The call drops what was stored for the key; a `set` does so before it stores the value. -/
def Call.Drops {κ ν : Type*} (k : κ) : Call κ ν → Prop
  | set k' _ => k' = k
  | get _ => False
  | delete k' => k' = k

/-- One for a `set`. -/
def Call.sets {κ ν : Type*} : Call κ ν → ℕ
  | set _ _ => 1
  | get _ => 0
  | delete _ => 0

/-- What a call answers. -/
inductive Reply (ν : Type*)
  /-- The call returns nothing. -/
  | done
  /-- No entry for the key. -/
  | miss
  /-- The value stored for the key. -/
  | hit (v : ν)
  deriving DecidableEq

/-- The same answer about another representation of the value. -/
def Reply.map {ν ν' : Type*} (f : ν → ν') : Reply ν → Reply ν'
  | done => done
  | miss => miss
  | hit v => hit (f v)

variable (C : Capacity κ ν)

/-- Storing a value: the old entry goes first, and the least recent entries go until the value
fits; a value the store does not take is not stored. -/
def put (k : κ) (v : ν) (l : List (κ × ν)) : List (κ × ν) :=
  if C.admits v then (k, v) :: evict (C.fits v) (remove k l) else remove k l

/-- One call. -/
def step (l : List (κ × ν)) : Call κ ν → List (κ × ν) × Reply ν
  | .set k v => (put C k v l, .done)
  | .get k =>
    match find k l with
    | none => (l, .miss)
    | some v => (touch k l, .hit v)
  | .delete k => (remove k l, .done)

/-- A sequence of calls, with the answers in order. -/
def run (l : List (κ × ν)) : List (Call κ ν) → List (κ × ν) × List (Reply ν)
  | [] => (l, [])
  | c :: cs =>
    let r := run (step C l c).1 cs
    (r.1, (step C l c).2 :: r.2)

/-- The largest number of entries at any point of a sequence of calls. -/
def peak (l : List (κ × ν)) : List (Call κ ν) → ℕ
  | [] => l.length
  | c :: cs => max l.length (peak (step C l c).1 cs)

variable {C}

@[simp] theorem run_nil : run C l [] = (l, []) := rfl

theorem run_cons (c : Call κ ν) (cs : List (Call κ ν)) :
    run C l (c :: cs) =
      ((run C (step C l c).1 cs).1, (step C l c).2 :: (run C (step C l c).1 cs).2) := rfl

theorem run_append (cs cs' : List (Call κ ν)) :
    run C l (cs ++ cs') =
      ((run C (run C l cs).1 cs').1, (run C l cs).2 ++ (run C (run C l cs).1 cs').2) := by
  induction cs generalizing l with
  | nil => rfl
  | cons c cs ih => simp only [List.cons_append, run_cons, ih]

theorem run_concat (cs : List (Call κ ν)) (c : Call κ ν) :
    run C l (cs ++ [c]) =
      ((step C (run C l cs).1 c).1, (run C l cs).2 ++ [(step C (run C l cs).1 c).2]) := by
  rw [run_append, run_cons, run_nil]

theorem nodup_keys_put (hnd : (keys l).Nodup) : (keys (put C k v l)).Nodup := by
  rw [put]
  split
  · rw [keys_cons, List.nodup_cons]
    refine ⟨?_, nodup_keys_evict (nodup_keys_remove hnd)⟩
    intro h
    exact (mem_keys_remove.mp ((keys_sublist (evict_isPrefix _ _).sublist).subset h)).2 rfl
  · exact nodup_keys_remove hnd

theorem nodup_keys_step (hnd : (keys l).Nodup) (c : Call κ ν) : (keys (step C l c).1).Nodup := by
  cases c with
  | set k v => exact nodup_keys_put hnd
  | get k =>
    cases h : find k l with
    | none => simpa [step, h] using hnd
    | some v => simpa [step, h] using nodup_keys_touch hnd
  | delete k => exact nodup_keys_remove hnd

theorem nodup_keys_run (hnd : (keys l).Nodup) (cs : List (Call κ ν)) :
    (keys (run C l cs).1).Nodup := by
  induction cs generalizing l with
  | nil => exact hnd
  | cons c cs ih => exact ih (nodup_keys_step hnd c)

theorem step_get : step C l (.get k) = (touch k l, (find k l).elim .miss .hit) := by
  cases h : find k l with
  | none => simp [step, h, touch_of_none h]
  | some v => simp [step, h]

theorem find_of_hit {c : Call κ ν} (h : (step C l c).2 = .hit v) : ∃ k, find k l = some v := by
  cases c with
  | set k v => simp [step] at h
  | get k =>
    rw [step_get] at h
    cases hfind : find k l with
    | none => simp [hfind] at h
    | some v' =>
      rw [hfind] at h
      exact ⟨k, hfind.trans (congrArg some (Reply.hit.inj h))⟩
  | delete k => simp [step] at h

theorem mem_put (he : e ∈ put C k v l) : e ∈ l ∧ e.1 ≠ k ∨ C.admits v = true ∧ e = (k, v) := by
  rw [put] at he
  split at he
  · rename_i hadmits
    rcases List.mem_cons.mp he with rfl | he
    · exact Or.inr ⟨hadmits, rfl⟩
    · exact Or.inl (mem_remove.mp ((evict_isPrefix _ _).subset he))
  · exact Or.inl (mem_remove.mp he)

theorem find_put_of_mem (h : k ∈ keys (put C k v l)) : find k (put C k v l) = some v := by
  rw [put] at h ⊢
  split_ifs at h ⊢ with hadmits
  · exact find_cons_self
  · exact absurd rfl (mem_keys_remove.mp h).2

theorem length_step_le (l : List (κ × ν)) (c : Call κ ν) :
    (step C l c).1.length ≤ l.length + c.sets := by
  cases c with
  | set k v =>
    have hrem : (remove k l).length ≤ l.length := remove_sublist.length_le
    show (put C k v l).length ≤ l.length + 1
    rw [put]
    split
    · have hev := (evict_isPrefix (C.fits v) (remove k l)).length_le
      rw [List.length_cons]
      omega
    · omega
  | get k =>
    rw [step_get]
    cases h : find k l with
    | none => exact (congrArg _ (touch_of_none h)).le
    | some v =>
      have hmem : k ∈ keys l := mem_keys_of_mem (mem_of_find h)
      have hne : remove k l ≠ l := fun heq ↦ remove_eq_self_iff.mp heq hmem
      have hlt : (remove k l).length < l.length := by
        refine lt_of_le_of_ne remove_sublist.length_le fun heq ↦ hne ?_
        exact remove_sublist.eq_of_length heq
      rw [touch_of_some h, List.length_cons]
      exact hlt
  | delete k => exact remove_sublist.length_le

theorem length_le_peak (l : List (κ × ν)) (cs : List (Call κ ν)) : l.length ≤ peak C l cs := by
  cases cs with
  | nil => exact le_rfl
  | cons c cs => exact le_max_left _ _

theorem notMem_keys_step (hk : k ∉ keys l) {c : Call κ ν} (hc : ¬ c.Drops k) :
    k ∉ keys (step C l c).1 := by
  intro hmem
  obtain ⟨v, hv⟩ := mem_keys.mp hmem
  cases c with
  | set k' v' =>
    rcases mem_put hv with hold | ⟨-, heq⟩
    · exact hk (mem_keys_of_mem hold.1)
    · exact hc (Prod.mk.inj heq).1.symm
  | get k' =>
    rw [step_get] at hv
    exact hk (mem_keys_of_mem (mem_of_mem_touch hv))
  | delete k' => exact hk (mem_keys_of_mem (mem_remove.mp hv).1)

theorem notMem_keys_run (hk : k ∉ keys l) {cs : List (Call κ ν)} (hcs : ∀ c ∈ cs, ¬ c.Drops k) :
    k ∉ keys (run C l cs).1 := by
  induction cs generalizing l with
  | nil => exact hk
  | cons c cs ih =>
    exact ih (notMem_keys_step hk (hcs c List.mem_cons_self))
      fun c' hc' ↦ hcs c' (List.mem_cons_of_mem _ hc')

/-- An entry is an old one that was not dropped, or the one just stored. -/
theorem mem_step_cases {c : Call κ ν} (he : e ∈ (step C l c).1) :
    e ∈ l ∧ ¬ c.Drops e.1 ∨ c = .set e.1 e.2 := by
  cases c with
  | set k v =>
    rcases mem_put he with ⟨hmem, hne⟩ | ⟨-, rfl⟩
    · exact Or.inl ⟨hmem, fun h ↦ hne h.symm⟩
    · exact Or.inr rfl
  | get k =>
    rw [step_get] at he
    exact Or.inl ⟨mem_of_mem_touch he, id⟩
  | delete k =>
    obtain ⟨hmem, hne⟩ := mem_remove.mp he
    exact Or.inl ⟨hmem, fun h ↦ hne h.symm⟩

theorem mem_of_mem_step {c : Call κ ν} (he : e ∈ (step C l c).1) : e ∈ l ∨ c = .set e.1 e.2 :=
  (mem_step_cases he).imp_left And.left

end Lru

end NetCache
