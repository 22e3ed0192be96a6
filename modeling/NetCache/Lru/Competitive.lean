import Mathlib.Algebra.Order.BigOperators.Group.Finset
import NetCache.Lru.Demand

/-!
# Against a policy that knows the future

A store that is filled on demand drops what was used least recently. Another policy may be told all
the keys in advance, and bring in and drop what it likes at any time (`Plan`). The store still has
little to regret: under a larger limit it misses at most a fixed multiple of what the policy brings
in (`missed_mul_le`).

## What is compared

Both are charged in bytes. The store pays for the values that it does not have when they are
fetched, including those it never keeps. The policy pays for what it brings in, and what it starts
with is free. The factor depends on how much smaller the limit of the policy is.

## Phases

The keys are cut into phases: a phase goes on as long as the values of its distinct keys fit the
limit of the store. The store misses every key of a phase at most once, because its keys fit
together (`missed_add_le`). The policy must bring in something between the first keys of two phases:
the keys of a phase, with the key that ended it, exceed the limit of the store, and the policy holds
at most its own limit of them. The difference of the two limits, plus one byte, is what it pays for
every phase. `Phase` states both bounds for the part of the sequence that has been read, with the
number of complete phases as a parameter.
-/

namespace NetCache

namespace Lru

variable {κ ν : Type*} [DecidableEq κ]

/-! ## Policies

A plan is a relation and not a function: any way to hold keys is allowed that fits the limit and
has the key that is fetched. The bound therefore covers the best plan there is. -/

/-- The keys that a policy may hold after some fetches, with the bytes that it has brought in. It
starts with what fits its limit, and before every fetch it drops and brings in what it likes; but it
holds the key that is fetched. -/
inductive Plan (weight : κ → ℕ) (limit : ℕ) : List κ → Finset κ → ℕ → Prop
  /-- Nothing is fetched yet. -/
  | start {held : Finset κ} (hfits : ∑ a ∈ held, weight a ≤ limit) : Plan weight limit [] held 0
  /-- One more key is fetched. -/
  | fetch {ks : List κ} {held now : Finset κ} {cost : ℕ} {k : κ}
      (hplan : Plan weight limit ks held cost) (hk : k ∈ now)
      (hfits : ∑ a ∈ now, weight a ≤ limit) :
      Plan weight limit (ks ++ [k]) now (cost + ∑ a ∈ now \ held, weight a)

theorem sum_union_le (weight : κ → ℕ) (s held now : Finset κ) :
    ∑ a ∈ s ∪ now, weight a ≤ ∑ a ∈ s ∪ held, weight a + ∑ a ∈ now \ held, weight a := by
  have hsub : s ∪ now ⊆ (s ∪ held) ∪ (now \ held) := by
    intro a ha
    simp only [Finset.mem_union, Finset.mem_sdiff] at ha ⊢
    tauto
  rw [← Finset.sum_union_inter]
  exact (Finset.sum_le_sum_of_subset hsub).trans (Nat.le_add_right _ _)

/-! ## What the store misses -/

variable {size : ν → ℕ} {maxmem limit : ℕ} {f : κ → ν} {ks pre cur : List κ} {k : κ}
  {held : Finset κ} {cost : ℕ}

/-- The bytes of the values that the store did not have. -/
def missed (size : ν → ℕ) (answers : List (ν × Bool)) : ℕ :=
  (answers.map fun r ↦ if r.2 then 0 else size r.1).sum

theorem missed_concat (ks : List κ) (k : κ) :
    missed size (fetchAll (exact size maxmem) f [] (ks ++ [k])).2
      = missed size (fetchAll (exact size maxmem) f [] ks).2 +
        if k ∈ keys (fetchAll (exact size maxmem) f [] ks).1 then 0 else size (f k) := by
  rw [fetchAll_concat, fetch_value, missed, missed, List.map_append, List.sum_append]
  simp

theorem mem_keys_of_phase (pre : List κ) (hfits : ∑ a ∈ cur.toFinset, size (f a) ≤ maxmem)
    (hk : k ∈ cur) : k ∈ keys (fetchAll (exact size maxmem) f [] (pre ++ cur)).1 := by
  obtain ⟨older, since, rfl, hnotin⟩ := exists_last hk
  rw [← List.append_assoc]
  refine (mem_keys_fetchAll_iff hnotin).mpr (le_trans ?_ hfits)
  refine Finset.sum_le_sum_of_subset fun a ha ↦ ?_
  rw [Finset.mem_insert, List.mem_toFinset, List.mem_filter] at ha
  rw [List.mem_toFinset, List.mem_append, List.mem_cons]
  tauto

/-- A key of a phase is missed once. -/
theorem missed_add_le (pre : List κ) (hfits : ∑ a ∈ cur.toFinset, size (f a) ≤ maxmem) (k : κ) :
    (if k ∈ keys (fetchAll (exact size maxmem) f [] (pre ++ cur)).1 then 0 else size (f k)) +
      ∑ a ∈ cur.toFinset, size (f a) ≤ ∑ a ∈ (cur ++ [k]).toFinset, size (f a) := by
  have hset : (cur ++ [k]).toFinset = insert k cur.toFinset := by
    rw [List.toFinset_append, Finset.union_comm]
    rfl
  rw [hset]
  by_cases hk : k ∈ cur
  · rw [if_pos (mem_keys_of_phase pre hfits hk), Nat.zero_add,
      Finset.insert_eq_of_mem (List.mem_toFinset.mpr hk)]
  · rw [Finset.sum_insert fun h ↦ hk (List.mem_toFinset.mp h)]
    exact Nat.add_le_add_right (by split_ifs <;> omega) _

/-! ## Phases -/

/-- The store and a policy after some fetches: `n` phases have ended, `cur` is the one that goes on,
and the policy has brought in `extra` since its first key. -/
structure Phase (size : ν → ℕ) (maxmem limit : ℕ) (f : κ → ν) (ks : List κ) (held : Finset κ)
    (cost n : ℕ) (pre cur : List κ) (extra : ℕ) : Prop where
  /-- The phase comes last. -/
  split : ks = pre ++ cur
  /-- Its keys fit the store. -/
  fits : ∑ a ∈ cur.toFinset, size (f a) ≤ maxmem
  /-- What the store has missed. -/
  missed_le : missed size (fetchAll (exact size maxmem) f [] ks).2
    ≤ n * maxmem + ∑ a ∈ cur.toFinset, size (f a)
  /-- The policy has held every key of the phase. -/
  held_le : ∑ a ∈ cur.toFinset ∪ held, size (f a) ≤ limit + extra
  /-- What the policy has brought in. -/
  le_cost : n * (maxmem + 1 - limit) + extra ≤ cost

variable {now : Finset κ} {n extra : ℕ}

theorem Phase.extend (h : Phase size maxmem limit f ks held cost n pre cur extra) (hk : k ∈ now)
    (hfits : ∑ a ∈ (cur ++ [k]).toFinset, size (f a) ≤ maxmem) :
    Phase size maxmem limit f (ks ++ [k]) now (cost + ∑ a ∈ now \ held, size (f a)) n pre
      (cur ++ [k]) (extra + ∑ a ∈ now \ held, size (f a)) where
  split := by rw [h.split, List.append_assoc]
  fits := hfits
  missed_le := by
    have hmissed := missed_add_le pre h.fits k
    have hle := h.missed_le
    rw [← h.split] at hmissed
    rw [missed_concat]
    omega
  held_le := by
    have hset : (cur ++ [k]).toFinset ∪ now = cur.toFinset ∪ now := by
      rw [List.toFinset_append, Finset.union_assoc]
      refine congrArg _ (Finset.union_eq_right.mpr ?_)
      simpa using hk
    have hunion := sum_union_le (fun a ↦ size (f a)) cur.toFinset held now
    have hle := h.held_le
    rw [hset]
    omega
  le_cost := by
    have hle := h.le_cost
    omega

/-- The phase has ended before the key: the policy had to bring something in. -/
theorem Phase.next (h : Phase size maxmem limit f ks held cost n pre cur extra)
    (hle : limit ≤ maxmem) (hk : k ∈ now) (hfits' : ∑ a ∈ now, size (f a) ≤ limit)
    (hfits : maxmem < ∑ a ∈ (cur ++ [k]).toFinset, size (f a)) :
    Phase size maxmem limit f (ks ++ [k]) now (cost + ∑ a ∈ now \ held, size (f a)) (n + 1) ks
      [k] 0 := by
  have hsize : size (f k) ≤ limit :=
    (Finset.single_le_sum (fun a _ ↦ Nat.zero_le (size (f a))) hk).trans hfits'
  have hsum : ∑ a ∈ [k].toFinset, size (f a) = size (f k) := Finset.sum_singleton _ _
  refine ⟨rfl, by omega, ?_, ?_, ?_⟩
  · have hmissed := h.missed_le
    have hcur := h.fits
    rw [missed_concat, hsum, Nat.add_mul]
    split_ifs <;> omega
  · have hset : [k].toFinset ∪ now = now := Finset.union_eq_right.mpr (by simpa using hk)
    rw [hset]
    omega
  · have hsub : (cur ++ [k]).toFinset ⊆ cur.toFinset ∪ now := by
      rw [List.toFinset_append]
      exact Finset.union_subset_union_right (by simpa using hk)
    have hover := hfits.trans_le (Finset.sum_le_sum_of_subset (f := fun a ↦ size (f a)) hsub)
    have hunion := sum_union_le (fun a ↦ size (f a)) cur.toFinset held now
    have hheld := h.held_le
    have hcost := h.le_cost
    rw [Nat.add_mul, Nat.one_mul]
    omega

/-- **Every plan** runs through the phases. -/
theorem Plan.exists_phase (hle : limit ≤ maxmem)
    (hplan : Plan (fun a ↦ size (f a)) limit ks held cost) :
    ∃ n pre cur extra, Phase size maxmem limit f ks held cost n pre cur extra := by
  induction hplan with
  | start hfits =>
    refine ⟨0, [], [], 0, rfl, Nat.zero_le _, Nat.zero_le _, ?_, by simp⟩
    simpa using hfits
  | @fetch ks held now cost k _ hk hfits' ih =>
    obtain ⟨n, pre, cur, extra, hphase⟩ := ih
    by_cases hfits : ∑ a ∈ (cur ++ [k]).toFinset, size (f a) ≤ maxmem
    · exact ⟨_, _, _, _, hphase.extend hk hfits⟩
    · exact ⟨_, _, _, _, hphase.next hle hk hfits' (not_le.mp hfits)⟩

/-- **Competitiveness.** What the store misses is at most `maxmem / (maxmem + 1 - limit)` times what
a policy brings in under a limit that is not larger, and `maxmem` bytes more. -/
theorem missed_mul_le (hle : limit ≤ maxmem)
    (hplan : Plan (fun a ↦ size (f a)) limit ks held cost) :
    missed size (fetchAll (exact size maxmem) f [] ks).2 * (maxmem + 1 - limit)
      ≤ maxmem * (cost + (maxmem + 1 - limit)) := by
  obtain ⟨n, pre, cur, extra, h⟩ := hplan.exists_phase hle
  have hmissed : missed size (fetchAll (exact size maxmem) f [] ks).2 ≤ maxmem * (n + 1) := by
    rw [Nat.mul_add, Nat.mul_one, Nat.mul_comm]
    exact h.missed_le.trans (Nat.add_le_add_left h.fits _)
  have hcost : n * (maxmem + 1 - limit) ≤ cost := (Nat.le_add_right _ extra).trans h.le_cost
  calc missed size (fetchAll (exact size maxmem) f [] ks).2 * (maxmem + 1 - limit)
      ≤ maxmem * (n + 1) * (maxmem + 1 - limit) := Nat.mul_le_mul_right _ hmissed
    _ = maxmem * (n * (maxmem + 1 - limit) + (maxmem + 1 - limit)) := by
      rw [Nat.mul_assoc, Nat.add_mul, Nat.one_mul]
    _ ≤ maxmem * (cost + (maxmem + 1 - limit)) :=
      Nat.mul_le_mul_left _ (Nat.add_le_add_right hcost _)

end Lru

end NetCache
