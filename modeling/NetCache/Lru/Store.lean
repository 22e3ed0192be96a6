import Mathlib.Algebra.BigOperators.Fin
import Mathlib.Algebra.Order.BigOperators.Group.List
import Mathlib.Algebra.Order.Ring.Nat
import NetCache.Lru.Entries

/-!
# The reference LRU store

The capacity that counts sizes exactly, and the store that carries its own invariant: keys are
distinct and the values fit the limit. A `Store` outside its limit, or with two entries for one key,
cannot be built, so the laws about runs need no hypothesis on the store they start from.

## Exact counting

Under `exact size maxmem` an entry is kept by an eviction if and only if it fits together with all
that is more recent (`mem_keys_evict_iff`). The condition is monotone along the list: what is in
front of a kept entry is kept. What a row of sets leaves is read off this equivalence, and so is
which keys of a store that is filled on demand are found.

## Two laws

Both are independent of how a cache is implemented.

* While the latest values fit together, the store is a plain dictionary (`run_eq_consultAll`). The
  dictionary is a list as well, without any order of use, and the two lists are permutations of each
  other along the run.
* After storing distinct keys in a row, what is left is the longest suffix of them that fits
  (`run_setCalls`).
-/

namespace NetCache

namespace Lru

variable {κ ν : Type*} (size : ν → ℕ)

/-- The total size of the values. -/
def total (l : List (κ × ν)) : ℕ := (l.map fun e ↦ size e.2).sum

/-- Counting sizes exactly, against a limit. -/
def exact (maxmem : ℕ) : Capacity κ ν where
  admits v := size v ≤ maxmem
  fits v l := total size l + size v ≤ maxmem

variable {size} {maxmem : ℕ} {k : κ} {v : ν} {e : κ × ν} {l l' : List (κ × ν)}

@[simp] theorem total_nil : total size ([] : List (κ × ν)) = 0 := rfl

@[simp] theorem total_cons : total size (e :: l) = size e.2 + total size l := by
  simp [total]

@[simp] theorem total_append : total size (l ++ l') = total size l + total size l' := by
  simp [total]

theorem total_perm (h : l.Perm l') : total size l = total size l' := (h.map _).sum_eq

theorem size_le_total (he : e ∈ l) : size e.2 ≤ total size l :=
  List.single_le_sum (fun _ _ ↦ Nat.zero_le _) _ (List.mem_map_of_mem he)

theorem total_sublist (h : l.Sublist l') : total size l ≤ total size l' :=
  List.Sublist.sum_le_sum (h.map _) fun _ _ ↦ Nat.zero_le _

@[simp] theorem total_reverse : total size l.reverse = total size l :=
  total_perm l.reverse_perm

/-- An entry is kept exactly when it fits together with all that is more recent. -/
theorem mem_keys_evict_iff {l₁ l₂ : List (κ × ν)} (hnd : (keys (l₁ ++ e :: l₂)).Nodup) :
    e.1 ∈ keys (evict (fun p ↦ decide (total size p ≤ maxmem)) (l₁ ++ e :: l₂)) ↔
      total size l₁ + size e.2 ≤ maxmem := by
  set F : List (κ × ν) → Bool := fun p ↦ decide (total size p ≤ maxmem) with hF
  have hcut : l₁ ++ [e] <+: l₁ ++ e :: l₂ :=
    ⟨l₂, by rw [List.append_assoc, List.singleton_append]⟩
  have htot : total size (l₁ ++ [e]) = total size l₁ + size e.2 := by
    rw [total_append, total_cons, total_nil, Nat.add_zero]
  rw [← htot]
  constructor
  · intro hmem
    have hnil : F [] = true := by simp [hF]
    have hfits : total size (evict F (l₁ ++ e :: l₂)) ≤ maxmem := by
      simpa [hF] using fits_evict hnil (l₁ ++ e :: l₂)
    rcases List.prefix_or_prefix_of_prefix (evict_isPrefix F (l₁ ++ e :: l₂)) hcut with h | h
    · rcases List.prefix_concat_iff.mp h with h | h
      · rwa [← h]
      · -- a cut before the entry does not contain its key
        rw [keys_append, keys_cons] at hnd
        have hkey := (keys_sublist h.sublist).subset hmem
        exact absurd List.mem_cons_self ((List.nodup_append'.mp hnd).2.2 hkey)
    · exact (total_sublist h.sublist).trans hfits
  · intro hle
    have hfits : F (l₁ ++ [e]) = true := decide_eq_true hle
    have hkeep := prefix_evict hcut hfits
    exact mem_keys_of_mem (hkeep.subset (by simp))

variable [DecidableEq κ]

theorem peak_le {C : Capacity κ ν} (l : List (κ × ν)) (cs : List (Call κ ν)) :
    peak C l cs ≤ l.length + (cs.map Call.sets).sum := by
  induction cs generalizing l with
  | nil => exact Nat.le_add_right _ _
  | cons c cs ih =>
    have hstep := length_step_le (C := C) l c
    have htail := ih (step C l c).1
    rw [peak, List.map_cons, List.sum_cons]
    omega

theorem total_touch_le : total size (touch k l) ≤ total size l := by
  cases hfind : find k l with
  | none => rw [touch_of_none hfind]
  | some v =>
    obtain ⟨l₁, l₂, rfl⟩ := List.append_of_mem (mem_of_find hfind)
    have h₁ : total size (remove k l₁) ≤ total size l₁ := total_sublist remove_sublist
    have h₂ : total size (remove k l₂) ≤ total size l₂ := total_sublist remove_sublist
    rw [touch_of_some hfind, remove_append, remove_cons_self, total_cons, total_append,
      total_append, total_cons]
    omega

theorem total_put_le (h : total size l ≤ maxmem) :
    total size (put (exact size maxmem) k v l) ≤ maxmem := by
  have hrem : total size (remove k l) ≤ maxmem := (total_sublist remove_sublist).trans h
  rw [put]
  split
  · rename_i hadm
    have hfits : (exact size maxmem).fits v ([] : List (κ × ν)) = true := by
      simpa [exact] using hadm
    have hev := fits_evict hfits (remove k l)
    simp only [exact, decide_eq_true_eq] at hev
    rw [total_cons]
    exact (Nat.add_comm _ _).trans_le hev
  · exact hrem

theorem total_step_le (h : total size l ≤ maxmem) (hnd : (keys l).Nodup) (c : Call κ ν) :
    total size (step (exact size maxmem) l c).1 ≤ maxmem := by
  cases c with
  | set k v => exact total_put_le h
  | get k => rw [step_get, total_perm (touch_perm hnd)]; exact h
  | delete k => exact (total_sublist remove_sublist).trans h

/-! ## The store -/

variable (κ ν) (size) in
/-- A store with a limit, most recently used entry first. -/
structure Store where
  /-- The limit on the total size of the values. -/
  maxmem : ℕ
  /-- The entries, most recently used first. -/
  entries : List (κ × ν)
  /-- A key has at most one entry. -/
  nodup_keys : (keys entries).Nodup
  /-- The values fit the limit. -/
  total_le : total size entries ≤ maxmem

namespace Store

/-- The store without entries. -/
def empty (maxmem : ℕ) : Store κ ν size := ⟨maxmem, [], List.nodup_nil, Nat.zero_le _⟩

/-- One call. -/
def step (s : Store κ ν size) (c : Call κ ν) : Store κ ν size × Reply ν :=
  (⟨s.maxmem, (Lru.step (exact size s.maxmem) s.entries c).1, nodup_keys_step s.nodup_keys c,
    total_step_le s.total_le s.nodup_keys c⟩, (Lru.step (exact size s.maxmem) s.entries c).2)

/-- A sequence of calls, with the answers in order. -/
def run (s : Store κ ν size) : List (Call κ ν) → Store κ ν size × List (Reply ν)
  | [] => (s, [])
  | c :: cs =>
    let r := run (s.step c).1 cs
    (r.1, (s.step c).2 :: r.2)

/-- The space taken by the values. -/
def spaceUsed (s : Store κ ν size) : ℕ := total size s.entries

variable {s : Store κ ν size}

theorem run_maxmem (cs : List (Call κ ν)) : (s.run cs).1.maxmem = s.maxmem := by
  induction cs generalizing s with
  | nil => rfl
  | cons c cs ih => exact ih (s := (s.step c).1)

theorem run_eq (cs : List (Call κ ν)) :
    (s.run cs).1.entries = (Lru.run (exact size s.maxmem) s.entries cs).1 ∧
      (s.run cs).2 = (Lru.run (exact size s.maxmem) s.entries cs).2 := by
  induction cs generalizing s with
  | nil => exact ⟨rfl, rfl⟩
  | cons c cs ih =>
    obtain ⟨h₁, h₂⟩ := ih (s := (s.step c).1)
    exact ⟨h₁, congrArg _ h₂⟩

end Store

/-! ## Dictionaries

The specification of a cache that never has to forget. `StaysWithin` asks that the latest values
fit together after every set; a delete makes room, so it is a condition on the whole run and not
on its end. -/

/-- The dictionary after a call: the latest value of each key. -/
def record (d : List (κ × ν)) : Call κ ν → List (κ × ν)
  | .set k v => (k, v) :: remove k d
  | .get _ => d
  | .delete k => remove k d

/-- What a dictionary answers. -/
def consult (d : List (κ × ν)) : Call κ ν → Reply ν
  | .set _ _ => .done
  | .get k => (find k d).elim .miss .hit
  | .delete _ => .done

/-- The answers of a dictionary to a sequence of calls. -/
def consultAll (d : List (κ × ν)) : List (Call κ ν) → List (Reply ν)
  | [] => []
  | c :: cs => consult d c :: consultAll (record d c) cs

/-- After each `set`, the latest values fit together. -/
def StaysWithin (size : ν → ℕ) (maxmem : ℕ) (d : List (κ × ν)) : List (Call κ ν) → Prop
  | [] => True
  | .set k v :: cs =>
    total size (record d (.set k v)) ≤ maxmem ∧ StaysWithin size maxmem (record d (.set k v)) cs
  | c :: cs => StaysWithin size maxmem (record d c) cs

theorem remove_perm (h : l.Perm l') : (remove k l).Perm (remove k l') := h.filter _

/-- While everything fits, one call changes the store as it changes the dictionary. -/
theorem step_eq_consult {d : List (κ × ν)} (hnd : (keys l).Nodup) (hp : l.Perm d) (c : Call κ ν)
    (hc : ∀ k v, c = .set k v → total size (record d c) ≤ maxmem) :
    (step (exact size maxmem) l c).1.Perm (record d c) ∧
      (step (exact size maxmem) l c).2 = consult d c := by
  cases c with
  | set k v =>
    have hle := hc k v rfl
    rw [record, total_cons, ← total_perm (remove_perm hp)] at hle
    replace hle : size v + total size (remove k l) ≤ maxmem := hle
    have hadm : (exact size maxmem).admits (κ := κ) v = true := by
      simp only [exact, decide_eq_true_eq]
      omega
    have hfits : (exact size maxmem).fits v (remove k l) = true := by
      simp only [exact, decide_eq_true_eq]
      omega
    refine ⟨?_, rfl⟩
    rw [step, put, if_pos hadm, evict_of_fits hfits]
    exact (remove_perm hp).cons _
  | get k =>
    rw [step_get, find_perm hnd hp]
    exact ⟨(touch_perm hnd).trans hp, rfl⟩
  | delete k => exact ⟨remove_perm hp, rfl⟩

/-- **No premature eviction.** While the latest values fit together, the store answers as a
dictionary does. -/
theorem run_eq_consultAll {d : List (κ × ν)} (hnd : (keys l).Nodup) (hp : l.Perm d)
    (cs : List (Call κ ν)) (hcs : StaysWithin size maxmem d cs) :
    (run (exact size maxmem) l cs).2 = consultAll d cs := by
  induction cs generalizing l d with
  | nil => rfl
  | cons c cs ih =>
    have hstep : (∀ k v, c = .set k v → total size (record d c) ≤ maxmem) ∧
        StaysWithin size maxmem (record d c) cs := by
      cases c with
      | set k v => exact ⟨fun _ _ _ ↦ hcs.1, hcs.2⟩
      | get k => exact ⟨fun _ _ h ↦ by simp at h, hcs⟩
      | delete k => exact ⟨fun _ _ h ↦ by simp at h, hcs⟩
    obtain ⟨hp', hr⟩ := step_eq_consult hnd hp c hstep.1
    rw [run_cons, consultAll, hr, ih (nodup_keys_step hnd c) hp' hstep.2]

/-! ## Storing distinct keys in a row -/

/-- The entries stored in a row by `set` calls. -/
def setCalls (kvs : List (κ × ν)) : List (Call κ ν) := kvs.map fun e ↦ .set e.1 e.2

/-- **The outcome of a row of sets**: what the greedy evictions leave is what one eviction of the
whole row would leave. -/
theorem run_setCalls {kvs : List (κ × ν)} (hnd : (keys kvs).Nodup)
    (hsize : ∀ e ∈ kvs, size e.2 ≤ maxmem) :
    (run (exact size maxmem) [] (setCalls kvs)).1
      = evict (fun p ↦ total size p ≤ maxmem) kvs.reverse := by
  induction kvs using List.reverseRecOn with
  | nil => rfl
  | append_singleton kvs e ih =>
    rw [keys_append, List.nodup_append'] at hnd
    have hrow := ih hnd.1 fun e' he' ↦ hsize e' (List.mem_append_left _ he')
    have hle : size e.2 ≤ maxmem := hsize e (by simp)
    have hnotin : e.1 ∉ keys (evict (fun p ↦ decide (total size p ≤ maxmem)) kvs.reverse) := by
      intro hmem
      have hmem' := (keys_sublist (evict_isPrefix _ _).sublist).subset hmem
      rw [keys, List.map_reverse, List.mem_reverse] at hmem'
      exact hnd.2.2 hmem' (by simp)
    have hadm : (exact size maxmem).admits (κ := κ) e.2 = true := by simpa [exact] using hle
    rw [setCalls, List.map_append, run_append, ← setCalls, hrow]
    show put (exact size maxmem) e.1 e.2 _ = _
    rw [put, if_pos hadm, remove_of_notMem hnotin, List.reverse_append, List.reverse_singleton,
      List.singleton_append, evict_cons (by simpa using hle), evict_evict]
    · refine congrArg _ (evict_congr fun p _ ↦ ?_)
      simp only [exact, total_cons, Nat.add_comm]
    · intro p hp
      simp only [exact, decide_eq_true_eq] at hp ⊢
      omega

/-- **Closed form.** A key stored in a row of distinct keys is still there exactly when its value
and all those stored after it fit together. -/
theorem find_run_setCalls {kvs pre post : List (κ × ν)} (hkvs : kvs = pre ++ e :: post)
    (hnd : (keys kvs).Nodup) (hsize : ∀ e ∈ kvs, size e.2 ≤ maxmem) :
    find e.1 (run (exact size maxmem) [] (setCalls kvs)).1
      = if total size (e :: post) ≤ maxmem then some e.2 else none := by
  rw [run_setCalls hnd hsize]
  set F : List (κ × ν) → Bool := fun p ↦ decide (total size p ≤ maxmem) with hF
  have hrev : kvs.reverse = post.reverse ++ e :: pre.reverse := by
    rw [hkvs, List.reverse_append, List.reverse_cons, List.append_assoc, List.singleton_append]
  have hndrev : (keys kvs.reverse).Nodup := by
    rwa [keys, List.map_reverse, List.nodup_reverse]
  have hiff : e.1 ∈ keys (evict F kvs.reverse) ↔ total size (e :: post) ≤ maxmem := by
    rw [hrev] at hndrev ⊢
    rw [mem_keys_evict_iff hndrev, total_reverse, total_cons, Nat.add_comm]
  split
  · rename_i hle
    obtain ⟨v, hv⟩ := mem_keys.mp (hiff.mpr hle)
    rw [find_eq_some_iff (nodup_keys_evict hndrev)]
    -- the keys are distinct, so what is kept under the key is its entry
    have hmem : e ∈ kvs.reverse := by simp [hkvs]
    have hval := (find_eq_some_iff hndrev).mpr ((evict_isPrefix F _).subset hv)
    rw [(find_eq_some_iff hndrev).mpr hmem, Option.some.injEq] at hval
    rwa [← hval] at hv
  · rename_i hgt
    rw [find_eq_none_iff, hiff]
    exact hgt

theorem total_run_setCalls {kvs : List (κ × ν)} (hnd : (keys kvs).Nodup)
    (hsize : ∀ e ∈ kvs, size e.2 ≤ maxmem) :
    total size (run (exact size maxmem) [] (setCalls kvs)).1
      = ∑ i : Fin kvs.length,
          if total size (kvs.drop i) ≤ maxmem then size (kvs.get i).2 else 0 := by
  rw [run_setCalls hnd hsize]
  clear hnd hsize
  induction kvs with
  | nil => rfl
  | cons e kvs ih =>
    rw [List.reverse_cons]
    refine Eq.trans ?_ (Fin.sum_univ_succ (n := kvs.length) _).symm
    simp only [Fin.val_zero, List.drop_zero, Fin.val_succ, List.drop_succ_cons, List.get_cons_zero,
      List.get_cons_succ', ← ih]
    by_cases hle : total size (e :: kvs) ≤ maxmem
    · -- everything fits, the shorter row included
      have hkvs : total size kvs ≤ maxmem := by
        rw [total_cons] at hle
        omega
      rw [if_pos hle, evict_of_fits, evict_of_fits]
      · simp [Nat.add_comm]
      · simpa using hkvs
      · simpa [Nat.add_comm] using hle
    · rw [if_neg hle, evict_concat, Nat.zero_add]
      simpa [Nat.add_comm] using hle

end Lru

end NetCache
