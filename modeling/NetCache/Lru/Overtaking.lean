import NetCache.Lru.Entries

/-!
# Calls that overtake one another

Calls to an LRU store do not commute in general: a set evicts, a get reorders, and both look at what
is stored. This module says exactly when the order of two calls does not matter, for a call `r` and
an older call `e` that returns nothing, and concludes when a call may overtake a whole queue.

## What has to be the same

The caller of `r` sees its answer, and later calls see the entries with their order. Both must be
what they are when `e` comes first; the older call has no answer to compare. `Commutes` asks for
these two equations at one list of entries, and `Independent l e r` is the condition on the entries
that decides it (`commutes_iff_independent`).

## Sets that are refused

A set of a value that the store does not take drops its key. To the store it is a delete, so the
conditions are stated for the *effective* call (`step_effective`), and there is no extra case.

## Queues

`MayOvertake` asks for independence from one call of the queue after the other, each time at the
entries that the calls before it leave. `run_overtake` is the induction along the queue.
-/

namespace NetCache

namespace Lru

variable {κ ν : Type*} [DecidableEq κ] {C : Capacity κ ν} {k k' : κ} {v v' : ν}
  {l : List (κ × ν)} {e r : Call κ ν}

/-! ## Independent calls -/

/-- The call with the same effect: a set of a value that the store does not take drops its key. -/
def Call.effective (C : Capacity κ ν) : Call κ ν → Call κ ν
  | .set k v => if C.admits v then .set k v else .delete k
  | c => c

/-- The call drops its key, or stores a value the store takes. -/
def Call.Stores (C : Capacity κ ν) : Call κ ν → Prop
  | .set _ v => C.admits v = true
  | _ => True

/-- Storing `v` for `k` evicts the same entries whether or not `k'` has been dropped before. -/
def SameEvictions (C : Capacity κ ν) (l : List (κ × ν)) (k : κ) (v : ν) (k' : κ) : Prop :=
  remove k' (evict (C.fits v) (remove k l)) = evict (C.fits v) (remove k (remove k' l))

/-- When the second of two effective calls may come before the first. A get is never the first: its
caller waits for the answer. -/
def Independent (C : Capacity κ ν) (l : List (κ × ν)) : Call κ ν → Call κ ν → Prop
  | .delete _, .delete _ => True
  | .delete k, .get k' => k = k' → k ∉ keys l
  | .delete k, .set k' v => k ≠ k' ∧ SameEvictions C l k' v k
  | .set k v, .delete k' => k ≠ k' ∧ SameEvictions C l k v k'
  | .set k v, .get k' => if k = k' then find k l = some v else k' ∉ keys l
  | .set k v, .set k' v' => k = k' ∧ v = v'
  | .get _, _ => False

/-- It makes no difference to the entries, and to the answer of `r`, whether `e` or `r` is first. -/
def Commutes (C : Capacity κ ν) (l : List (κ × ν)) (e r : Call κ ν) : Prop :=
  (step C (step C l r).1 e).1 = (step C (step C l e).1 r).1 ∧
    (step C l r).2 = (step C (step C l e).1 r).2

theorem step_effective (c : Call κ ν) : step C l (c.effective C) = step C l c := by
  cases c with
  | set k v =>
    rw [Call.effective]
    split
    · rfl
    · rename_i h
      rw [step, step, put, if_neg h]
  | get k => rfl
  | delete k => rfl

omit [DecidableEq κ] in
theorem stores_effective (c : Call κ ν) : (c.effective C).Stores C := by
  cases c with
  | set k v =>
    rw [Call.effective]
    split
    · assumption
    · trivial
  | get k => trivial
  | delete k => trivial

theorem put_of_admits (h : C.admits v = true) :
    put C k v l = (k, v) :: evict (C.fits v) (remove k l) := if_pos h

theorem touch_cons_self : touch k ((k, v) :: l) = (k, v) :: remove k l := by
  rw [touch_of_some find_cons_self, remove_cons_self]

theorem remove_touch_self : remove k (touch k l) = remove k l := by
  cases h : find k l with
  | none => rw [touch_of_none h]
  | some v =>
    rw [touch_of_some h, remove_cons_self, remove_of_notMem]
    intro hmem
    exact (mem_keys_remove.mp hmem).2 rfl

theorem touch_remove_ne (h : k ≠ k') : touch k' (remove k l) = remove k (touch k' l) := by
  cases hfind : find k' l with
  | none => rw [touch_of_none hfind, touch_of_none (by rw [find_remove_ne h.symm, hfind])]
  | some v =>
    rw [touch_of_some hfind, touch_of_some (by rw [find_remove_ne h.symm, hfind]),
      remove_cons_ne h.symm, remove_comm]

theorem put_remove_self : put C k v (remove k l) = put C k v l := by
  have hremove : remove k (remove k l) = remove k l :=
    remove_of_notMem fun hmem ↦ (mem_keys_remove.mp hmem).2 rfl
  rw [put, put, hremove]

/-- A set and a delete of another key commute when they do not change what is evicted. -/
theorem remove_put_ne (hv : C.admits v = true) (h : k ≠ k') :
    remove k' (put C k v l) = put C k v (remove k' l) ↔ SameEvictions C l k v k' := by
  rw [put_of_admits hv, put_of_admits hv, remove_cons_ne h, List.cons_inj_right, SameEvictions]

theorem find_put_self (hv : C.admits v = true) : find k (put C k v l) = some v := by
  rw [put_of_admits hv, find_cons_self]

theorem notMem_keys_put (h : k ≠ k') (hk : k' ∉ keys l) : k' ∉ keys (put C k v l) := by
  have hremove : k' ∉ keys (remove k l) := fun hmem ↦ hk (mem_keys_remove.mp hmem).1
  rw [put]
  split
  · rw [keys_cons, List.mem_cons, not_or]
    exact ⟨h.symm, fun hmem ↦ hremove ((keys_sublist (evict_isPrefix _ _).sublist).subset hmem)⟩
  · exact hremove

omit [DecidableEq κ] in
theorem reply_inj {o o' : Option ν} :
    o.elim Reply.miss Reply.hit = o'.elim Reply.miss Reply.hit ↔ o = o' := by
  cases o <;> cases o' <;> simp

/-! ## Exactness, one pair of calls at a time

To see that a condition is necessary, the two orders are compared where they have to differ: in
the answer, in whether a key is there, or in what is at the front. -/

theorem commutes_delete_get :
    Commutes C l (.delete k) (.get k') ↔ Independent C l (.delete k) (.get k') := by
  rw [Commutes, step_get, step_get, step, step, reply_inj, Independent, ← find_eq_none_iff]
  by_cases h : k = k'
  · subst h
    rw [find_remove_self, touch_of_none find_remove_self, remove_touch_self]
    simp
  · rw [find_remove_ne (Ne.symm h), touch_remove_ne h]
    simp [h]

theorem put_ne_remove (hv : C.admits v = true) {l' : List (κ × ν)} :
    put C k v l ≠ remove k l' := by
  intro heq
  have hfind := congrArg (find k) heq
  rw [find_put_self hv, find_remove_self] at hfind
  exact absurd hfind (by simp)

theorem commutes_delete_set (hv : C.admits v = true) :
    Commutes C l (.delete k) (.set k' v) ↔ Independent C l (.delete k) (.set k' v) := by
  rw [Commutes, step, step, step, step, and_iff_left rfl, Independent]
  by_cases h : k = k'
  · subst h
    refine iff_of_false ?_ (fun hne ↦ hne.1 rfl)
    intro heq
    exact put_ne_remove hv heq.symm
  · rw [remove_put_ne hv (Ne.symm h), and_iff_right h]

theorem commutes_set_delete (hv : C.admits v = true) :
    Commutes C l (.set k v) (.delete k') ↔ Independent C l (.set k v) (.delete k') := by
  rw [Commutes, step, step, step, step, and_iff_left rfl, Independent]
  by_cases h : k = k'
  · subst h
    refine iff_of_false ?_ (fun hne ↦ hne.1 rfl)
    intro heq
    exact put_ne_remove hv heq
  · rw [eq_comm, remove_put_ne hv h, and_iff_right h]

theorem commutes_set_get (hv : C.admits v = true) :
    Commutes C l (.set k v) (.get k') ↔ Independent C l (.set k v) (.get k') := by
  rw [Commutes, step_get, step_get, step, step, reply_inj, Independent]
  by_cases h : k = k'
  · subst h
    have hput : put C k v (touch k l) = put C k v l := by
      rw [← put_remove_self, remove_touch_self, put_remove_self]
    have htouch : touch k (put C k v l) = put C k v l := by
      rw [put_of_admits hv, touch_cons_self, remove_of_notMem]
      intro hmem
      exact (mem_keys_remove.mp ((keys_sublist (evict_isPrefix _ _).sublist).subset hmem)).2 rfl
    rw [if_pos rfl, find_put_self hv, hput, htouch]
    exact and_iff_right rfl
  · rw [if_neg h]
    constructor
    · rintro ⟨hentries, hreply⟩ hmem
      -- the get finds its key, and the two calls put different entries first
      obtain ⟨w, hw⟩ := Option.ne_none_iff_exists'.mp fun hnone ↦ find_eq_none_iff.mp hnone hmem
      rw [touch_of_some (hreply.symm.trans hw), put_of_admits hv] at hentries
      exact h (congrArg Prod.fst (List.cons.inj hentries).1)
    · intro hmem
      have hnone := find_eq_none_iff.mpr hmem
      have hnone' := find_eq_none_iff.mpr (notMem_keys_put (C := C) (v := v) h hmem)
      rw [touch_of_none hnone, touch_of_none hnone', hnone, hnone']
      exact ⟨rfl, rfl⟩

theorem commutes_set_set (hv : C.admits v = true) (hv' : C.admits v' = true) :
    Commutes C l (.set k v) (.set k' v') ↔ Independent C l (.set k v) (.set k' v') := by
  rw [Commutes, step, step, step, step, and_iff_left rfl, Independent]
  constructor
  · intro heq
    have hcons := (put_of_admits hv).symm.trans (heq.trans (put_of_admits hv'))
    exact Prod.mk.inj (List.cons.inj hcons).1
  · rintro ⟨rfl, rfl⟩
    rfl

/-- **Independence is exact**, for calls that have the effect they name. -/
theorem commutes_iff_independent (he : e.Stores C) (hr : r.Stores C) (hget : ∀ k, e ≠ .get k) :
    Commutes C l e r ↔ Independent C l e r := by
  cases e with
  | get k => exact absurd rfl (hget k)
  | delete k =>
    cases r with
    | delete k' => exact iff_of_true ⟨remove_comm, rfl⟩ trivial
    | get k' => exact commutes_delete_get
    | set k' v => exact commutes_delete_set hr
  | set k v =>
    cases r with
    | delete k' => exact commutes_set_delete he
    | get k' => exact commutes_set_get he
    | set k' v' => exact commutes_set_set he hr

/-! ## Overtaking -/

/-- Whether a call may overtake older ones: it is independent of each of them, in the entries that
those before it leave. -/
def MayOvertake (C : Capacity κ ν) (l : List (κ × ν)) (r : Call κ ν) : List (Call κ ν) → Prop
  | [] => True
  | e :: es => Independent C l (e.effective C) (r.effective C) ∧ MayOvertake C (step C l e).1 r es

theorem commutes_of_independent (h : Independent C l (e.effective C) (r.effective C)) :
    Commutes C l e r := by
  have hget : ∀ k, e.effective C ≠ .get k := by
    rintro k hk
    rw [hk] at h
    exact h
  have hc := (commutes_iff_independent (stores_effective e) (stores_effective r) hget).mpr h
  simpa only [Commutes, step_effective] using hc

/-- **A call that may overtake older ones** leaves the same entries, and gets the same answer. -/
theorem run_overtake {es : List (Call κ ν)} (h : MayOvertake C l r es) :
    (run C (step C l r).1 es).1 = (step C (run C l es).1 r).1 ∧
      (step C l r).2 = (step C (run C l es).1 r).2 := by
  induction es generalizing l with
  | nil => exact ⟨rfl, rfl⟩
  | cons e es ih =>
    obtain ⟨hentries, hreply⟩ := commutes_of_independent h.1
    obtain ⟨ihentries, ihreply⟩ := ih h.2
    rw [run_cons, run_cons, hentries]
    exact ⟨ihentries, hreply.trans ihreply⟩

end Lru

end NetCache
