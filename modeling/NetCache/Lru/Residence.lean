import NetCache.Lru.Store

/-!
# How long an entry stays

An entry of a store that counts sizes exactly, once it has been used, stays until more bytes have
been stored and returned than the limit leaves beside it.

## What is counted

An entry is threatened by what comes in front of it in the order of use, and only by that. A set
puts its value there, and a get moves the value that it returns there. So the bytes that calls bring
in and those that answers take out, together `moved`, bound what can have come in front of an entry
since it was used. The bound is on what a caller sees: it does not depend on what else is in the
store, nor on which of the values were there already. Where a value is counted that was in front of
the entry anyway, the bound is generous.

## The invariant

`step_split` and `run_split` follow the entry through a run. The store is written as
`above ++ (k, v) :: below`, and the size of `above`, together with the bytes that are still to be
moved and the entry itself, is within the limit. At the start of a run that follows a use of `k`
nothing is above it, and `find_run_of_moved_le` reads off that its key is still found at the end.
-/

namespace NetCache

namespace Lru

variable {κ ν : Type*} {size : ν → ℕ} {maxmem : ℕ} {k : κ} {v : ν} {e : κ × ν}
  {l l' above below : List (κ × ν)}

/-! ## Bytes moved -/

/-- The bytes that a call brings in. -/
def Call.bytes (size : ν → ℕ) : Call κ ν → ℕ
  | set _ v => size v
  | get _ => 0
  | delete _ => 0

/-- The bytes that an answer takes out. -/
def Reply.bytes (size : ν → ℕ) : Reply ν → ℕ
  | done => 0
  | miss => 0
  | hit v => size v

/-- The bytes moved by calls and their answers. -/
def moved (size : ν → ℕ) (cs : List (Call κ ν)) (replies : List (Reply ν)) : ℕ :=
  (cs.map (Call.bytes size)).sum + (replies.map (Reply.bytes size)).sum

variable [DecidableEq κ]

theorem total_remove_le : total size (remove k l) ≤ total size l :=
  total_sublist remove_sublist

theorem remove_split {j : κ} (hj : k ≠ j) :
    remove j (above ++ (k, v) :: below) = remove j above ++ (k, v) :: remove j below := by
  rw [remove_append, remove_cons_ne hj]

theorem put_split {j : κ} {w : ν} (hj : k ≠ j)
    (hle : total size above + size w + size v ≤ maxmem) :
    ∃ above' below', put (exact size maxmem) j w (above ++ (k, v) :: below)
        = above' ++ (k, v) :: below' ∧ total size above' ≤ total size above + size w := by
  have hrem : total size (remove j above) ≤ total size above := total_remove_le
  have hadm : (exact size maxmem).admits (κ := κ) w = true :=
    decide_eq_true (show size w ≤ maxmem by omega)
  have hfits : (exact size maxmem).fits w (remove j above ++ [(k, v)]) = true := by
    refine decide_eq_true (show total size (remove j above ++ [(k, v)]) + size w ≤ maxmem from ?_)
    simp only [total_append, total_cons, total_nil]
    omega
  -- what is in front of the entry, and the entry, fit beside the new value
  obtain ⟨rest, hrest⟩ := prefix_evict (l := remove j above ++ (k, v) :: remove j below)
    ⟨remove j below, by rw [List.append_assoc, List.singleton_append]⟩ hfits
  refine ⟨(j, w) :: remove j above, rest, ?_, ?_⟩
  · rw [put, if_pos hadm, remove_split hj, ← hrest, List.append_assoc, List.singleton_append,
      List.cons_append]
  · rw [total_cons, Nat.add_comm]
    exact Nat.add_le_add_right total_remove_le _

theorem touch_split {j : κ} {w : ν} (hnd : (keys (above ++ (k, v) :: below)).Nodup)
    (hfind : find j (above ++ (k, v) :: below) = some w) :
    ∃ above' below', touch j (above ++ (k, v) :: below) = above' ++ (k, v) :: below' ∧
      total size above' ≤ total size above + size w := by
  rw [touch_of_some hfind]
  by_cases hj : k = j
  · subst hj
    have hself : find k (above ++ (k, v) :: below) = some v :=
      (find_eq_some_iff hnd).mpr (List.mem_append_right _ List.mem_cons_self)
    obtain rfl := Option.some.inj (hself.symm.trans hfind)
    exact ⟨[], remove k (above ++ (k, v) :: below), rfl, Nat.zero_le _⟩
  · refine ⟨(j, w) :: remove j above, remove j below, by rw [remove_split hj, List.cons_append], ?_⟩
    rw [total_cons, Nat.add_comm]
    exact Nat.add_le_add_right total_remove_le _

/-- A call that leaves an entry alone puts at most the bytes it moves in front of it. -/
theorem step_split (hnd : (keys (above ++ (k, v) :: below)).Nodup) {c : Call κ ν}
    (hc : ¬ c.Drops k)
    (hle : total size above + (c.bytes size +
      (step (exact size maxmem) (above ++ (k, v) :: below) c).2.bytes size) + size v ≤ maxmem) :
    ∃ above' below', (step (exact size maxmem) (above ++ (k, v) :: below) c).1
        = above' ++ (k, v) :: below' ∧
      total size above' ≤ total size above + (c.bytes size +
        (step (exact size maxmem) (above ++ (k, v) :: below) c).2.bytes size) := by
  cases c with
  | set j w => exact put_split (fun h ↦ hc h.symm) hle
  | get j =>
    rw [step_get] at hle ⊢
    cases hfind : find j (above ++ (k, v) :: below) with
    | none => exact ⟨above, below, touch_of_none hfind, Nat.le_add_right _ _⟩
    | some w =>
      obtain ⟨above', below', htouch, habove⟩ := touch_split hnd hfind
      exact ⟨above', below', htouch, habove.trans_eq (congrArg _ (Nat.zero_add _).symm)⟩
  | delete j =>
    exact ⟨remove j above, remove j below, remove_split fun h ↦ hc h.symm,
      total_remove_le.trans (Nat.le_add_right _ _)⟩

/-- **An entry stays while there is room for what passes.** -/
theorem run_split (hnd : (keys (above ++ (k, v) :: below)).Nodup) (cs : List (Call κ ν))
    (hcs : ∀ c ∈ cs, ¬ c.Drops k)
    (hle : total size above + moved size cs
      (run (exact size maxmem) (above ++ (k, v) :: below) cs).2 + size v ≤ maxmem) :
    ∃ above' below', (run (exact size maxmem) (above ++ (k, v) :: below) cs).1
      = above' ++ (k, v) :: below' := by
  induction cs generalizing above below with
  | nil => exact ⟨above, below, rfl⟩
  | cons c cs ih =>
    rw [run_cons] at hle ⊢
    simp only [moved, List.map_cons, List.sum_cons] at hle
    have hfirst : total size above + (c.bytes size + (step (exact size maxmem)
        (above ++ (k, v) :: below) c).2.bytes size) + size v ≤ maxmem := by
      omega
    obtain ⟨above₁, below₁, hstep, habove⟩ := step_split hnd (hcs c List.mem_cons_self) hfirst
    have hnd₁ := nodup_keys_step (C := exact size maxmem) hnd c
    rw [hstep] at hle hnd₁ ⊢
    refine ih hnd₁ (fun c' hc' ↦ hcs c' (List.mem_cons_of_mem _ hc')) ?_
    rw [moved]
    omega

/-- A key that has just been used is found while at most the rest of the limit has been moved. -/
theorem find_run_of_moved_le (hnd : (keys l).Nodup) (hfind : find k l = some v)
    (cs : List (Call κ ν)) (hcs : ∀ c ∈ cs, ¬ c.Drops k)
    (hle : moved size cs (run (exact size maxmem) (touch k l) cs).2 + size v ≤ maxmem) :
    find k (run (exact size maxmem) (touch k l) cs).1 = some v := by
  have hnd' := nodup_keys_touch (k := k) hnd
  rw [find_eq_some_iff (nodup_keys_run hnd' cs)]
  rw [touch_of_some hfind] at hnd' hle ⊢
  obtain ⟨above, below, heq⟩ : ∃ above below,
      (run (exact size maxmem) ([] ++ (k, v) :: remove k l) cs).1 = above ++ (k, v) :: below :=
    run_split hnd' cs hcs (by rwa [total_nil, Nat.zero_add])
  rw [List.nil_append] at heq
  rw [heq]
  simp

end Lru

end NetCache
