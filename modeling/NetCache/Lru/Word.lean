import Mathlib.Tactic.Ring
import NetCache.Lru.Store

/-!
# Counting with a machine word

An implementation keeps its byte count in 64 bits, where sums wrap. The capacity defined here
decides with that arithmetic, for any sizes of 32 bits and any limit of 64.

## Why a capacity of its own

A count that wraps lets in values which do not fit. That is what the implementation does, so what is
said of it for every limit has to be about a store which does the same. The list of entries is as
before; only the decision whether a value fits is made modulo `2 ^ 64`. Relating the machine's count
to the true sum is then a matter of arithmetic, apart from all that pointers do (`toNat_wordTotal`).

## Agreement

A sum that is compared with the limit has at most one value more than what is stored. If the limit
is at most `2 ^ 64 - 2 ^ 32`, such a sum is below `2 ^ 64`, because a single value is below
`2 ^ 32`. The two capacities then make the same decisions on every list within the limit
(`word_fits_eq`), the list stays within the limit, and so they agree along any run (`run_word_eq`).
-/

namespace NetCache

namespace Lru

variable {κ ν : Type*} (size : ν → UInt32)

/-- The total size of the values, modulo `2 ^ 64`. -/
def wordTotal : List (κ × ν) → UInt64
  | [] => 0
  | e :: l => (size e.2).toUInt64 + wordTotal l

/-- Counting in 64 bits, against a limit. -/
def word (maxmem : UInt64) : Capacity κ ν where
  admits v := (size v).toUInt64 ≤ maxmem
  fits v l := wordTotal size l + (size v).toUInt64 ≤ maxmem

variable {size} {maxmem : UInt64} {k : κ} {v : ν} {e : κ × ν} {l l' : List (κ × ν)}

@[simp] theorem word_admits_iff :
    (word (κ := κ) size maxmem).admits v = true ↔ (size v).toUInt64 ≤ maxmem := decide_eq_true_iff

@[simp] theorem wordTotal_nil : wordTotal size ([] : List (κ × ν)) = 0 := rfl

@[simp] theorem wordTotal_cons :
    wordTotal size (e :: l) = (size e.2).toUInt64 + wordTotal size l := rfl

@[simp] theorem wordTotal_append :
    wordTotal size (l ++ l') = wordTotal size l + wordTotal size l' := by
  induction l with
  | nil => simp
  | cons e l ih => rw [List.cons_append, wordTotal_cons, wordTotal_cons, ih, UInt64.add_assoc]

theorem wordTotal_middle_sub :
    wordTotal size (l ++ e :: l') - (size e.2).toUInt64 = wordTotal size (l ++ l') := by
  rw [wordTotal_append, wordTotal_append, wordTotal_cons]
  grind

theorem wordTotal_middle :
    wordTotal size (l ++ e :: l') = (size e.2).toUInt64 + wordTotal size (l ++ l') := by
  rw [wordTotal_append, wordTotal_append, wordTotal_cons]
  grind

/-- The machine count is the exact count, modulo `2 ^ 64`. -/
theorem toNat_wordTotal : (wordTotal size l).toNat = total (fun v ↦ (size v).toNat) l % 2 ^ 64 := by
  induction l with
  | nil => rfl
  | cons e l ih =>
    rw [wordTotal_cons, total_cons, UInt64.toNat_add, ih, UInt32.toNat_toUInt64, Nat.add_mod_mod]

theorem toNat_wordTotal_of_lt (h : total (fun v ↦ (size v).toNat) l < 2 ^ 64) :
    (wordTotal size l).toNat = total (fun v ↦ (size v).toNat) l := by
  rw [toNat_wordTotal, Nat.mod_eq_of_lt h]

/-- Storing a value changes nothing when it is refused for a key that is not there, or when it is
the most recent value already and nothing has to go. -/
theorem put_word_eq_self_iff [DecidableEq κ] (hnd : (keys l).Nodup) :
    put (word size maxmem) k v l = l ↔
      maxmem < (size v).toUInt64 ∧ k ∉ keys l ∨
        (size v).toUInt64 ≤ maxmem ∧ wordTotal size l ≤ maxmem ∧ ∃ t, l = (k, v) :: t := by
  rw [put]
  by_cases hadm : (size v).toUInt64 ≤ maxmem
  · rw [if_pos (word_admits_iff.mpr hadm)]
    have hnlt : ¬ maxmem < (size v).toUInt64 := UInt64.not_lt.mpr hadm
    simp only [hnlt, hadm, false_and, false_or, true_and]
    constructor
    · intro h
      obtain ⟨t, rfl⟩ : ∃ t, l = (k, v) :: t := ⟨_, h.symm⟩
      have ht := (List.cons.inj h).2
      rw [remove_cons_self, remove_of_notMem (List.nodup_cons.mp hnd).1, evict_eq_self_iff] at ht
      refine ⟨?_, t, rfl⟩
      rw [wordTotal_cons, UInt64.add_comm]
      rcases ht with hfits | rfl
      · exact of_decide_eq_true hfits
      · simpa using hadm
    · rintro ⟨hle, t, rfl⟩
      have hfits : (word size maxmem).fits v t = true := by
        rw [wordTotal_cons, UInt64.add_comm] at hle
        exact decide_eq_true hle
      rw [remove_cons_self, remove_of_notMem (List.nodup_cons.mp hnd).1, evict_of_fits hfits]
  · rw [if_neg fun h ↦ hadm (word_admits_iff.mp h), remove_eq_self_iff]
    simp [hadm, UInt64.not_le.mp hadm]

/-! ## Agreement with exact counting -/

section Agree

variable (hmax : maxmem.toNat ≤ 2 ^ 64 - 2 ^ 32)
include hmax

theorem word_fits_eq (hl : total (fun v ↦ (size v).toNat) l ≤ maxmem.toNat) :
    (word size maxmem).fits v l = (exact (fun v ↦ (size v).toNat) maxmem.toNat).fits v l := by
  have hv : (size v).toNat < 2 ^ 32 := (size v).toNat_lt
  have hsum : (wordTotal size l + (size v).toUInt64).toNat
      = total (fun v ↦ (size v).toNat) l + (size v).toNat := by
    rw [UInt64.toNat_add, toNat_wordTotal_of_lt (by omega), UInt32.toNat_toUInt64,
      Nat.mod_eq_of_lt (by omega)]
  simp only [word, exact, UInt64.le_iff_toNat_le, hsum]

omit hmax in
theorem word_admits_eq :
    (word (κ := κ) size maxmem).admits v
      = (exact (κ := κ) (fun v ↦ (size v).toNat) maxmem.toNat).admits v := by
  simp only [word, exact, UInt64.le_iff_toNat_le, UInt32.toNat_toUInt64]

variable [DecidableEq κ]

theorem put_word_eq (hl : total (fun v ↦ (size v).toNat) l ≤ maxmem.toNat) :
    put (word size maxmem) k v l
      = put (exact (fun v ↦ (size v).toNat) maxmem.toNat) k v l := by
  rw [put, put, word_admits_eq]
  refine if_congr Iff.rfl (congrArg _ (evict_congr fun p hp ↦ word_fits_eq hmax ?_)) rfl
  exact (total_sublist (hp.sublist.trans remove_sublist)).trans hl

theorem step_word_eq (hl : total (fun v ↦ (size v).toNat) l ≤ maxmem.toNat) (c : Call κ ν) :
    step (word size maxmem) l c = step (exact (fun v ↦ (size v).toNat) maxmem.toNat) l c := by
  cases c with
  | set k v => rw [step, step, put_word_eq hmax hl]
  | get k => rfl
  | delete k => rfl

/-- **A limit with room for one more value makes the machine count exact**, along any run. -/
theorem run_word_eq (hl : total (fun v ↦ (size v).toNat) l ≤ maxmem.toNat)
    (hnd : (keys l).Nodup) (cs : List (Call κ ν)) :
    run (word size maxmem) l cs = run (exact (fun v ↦ (size v).toNat) maxmem.toNat) l cs := by
  induction cs generalizing l with
  | nil => rfl
  | cons c cs ih =>
    rw [run_cons, run_cons, step_word_eq hmax hl]
    rw [ih (total_step_le hl hnd c) (nodup_keys_step hnd c)]

theorem peak_word_eq (hl : total (fun v ↦ (size v).toNat) l ≤ maxmem.toNat)
    (hnd : (keys l).Nodup) (cs : List (Call κ ν)) :
    peak (word size maxmem) l cs = peak (exact (fun v ↦ (size v).toNat) maxmem.toNat) l cs := by
  induction cs generalizing l with
  | nil => rfl
  | cons c cs ih =>
    rw [peak, peak, step_word_eq hmax hl]
    rw [ih (total_step_le hl hnd c) (nodup_keys_step hnd c)]

end Agree

end Lru

end NetCache
