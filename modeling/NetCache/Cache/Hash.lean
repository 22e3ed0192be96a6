import Mathlib.Data.Nat.Bitwise
import NetCache.Cache.Source

/-!
# The default hash function

`def_hash_fn` reads a key in words as long as there are eight bytes, and the rest byte by byte.
`bytewiseHash` is what it computes: every byte of the key is put at the place its position modulo
eight names, and all are combined with exclusive or.

## Two ways to combine

The source combines words, and in the end single bytes, with exclusive or; but the eight bytes of a
word come together when it is loaded, and the model of that combines them with a plain or. No two of
them share a bit, so the plain or is an exclusive or as well, and a sum (`loadWord_eq`).

## The loops

Both loops accumulate over a range, and the second starts where the first has ended. They are put
together by lemmas on folds: a fold in `Option` that never fails is a plain fold (`foldlM_eq_some`),
exclusive or lets the start value be taken out of a fold (`foldl_xor_eq`), and a fold over a range
can be cut (`foldl_range_add`).

## What is left of the reads

`defHashFn_bytewise` says in one equation that the function never reads past the terminator, for a
key of any length, and what it returns.
-/

namespace NetCache

/-- Byte `i` of a key, at its place in a word. -/
def placedByte (s : Bytes) (i : ℕ) : UInt64 :=
  (s.getD i 0).toUInt64 <<< UInt64.ofNat (8 * (i % 8))

/-- Every byte of a key at its place in a word, combined with exclusive or. -/
def bytewiseHash (s : Bytes) : UInt64 :=
  (List.range s.length).foldl (fun out i ↦ out ^^^ placedByte s i) 0

/-! ## Loops that accumulate -/

section Fold

variable {α β : Type*}

theorem foldlM_eq_some {f : β → α → Option β} {g : β → α → β} {l : List α}
    (h : ∀ a ∈ l, ∀ b, f b a = some (g b a)) (b : β) : l.foldlM f b = some (l.foldl g b) := by
  induction l generalizing b with
  | nil => rfl
  | cons a l ih =>
    rw [List.foldlM_cons, h a List.mem_cons_self, List.foldl_cons]
    exact ih (fun a' ha' ↦ h a' (List.mem_cons_of_mem _ ha')) (g b a)

theorem foldl_xor_eq (f : α → UInt64) (out : UInt64) (l : List α) :
    l.foldl (fun w a ↦ w ^^^ f a) out = out ^^^ l.foldl (fun w a ↦ w ^^^ f a) 0 := by
  induction l generalizing out with
  | nil => simp
  | cons a l ih =>
    rw [List.foldl_cons, List.foldl_cons, ih, ih (0 ^^^ f a), UInt64.zero_xor, UInt64.xor_assoc]

theorem foldl_range_add (f : β → ℕ → β) (b : β) (m n : ℕ) :
    (List.range (m + n)).foldl f b
      = (List.range n).foldl (fun w i ↦ f w (m + i)) ((List.range m).foldl f b) := by
  rw [List.range_add, List.foldl_append, List.foldl_map]

end Fold

/-! ## One word -/

variable {w : UInt64} {j : ℕ}

theorem toNat_shiftLeft_byte (b : UInt8) (hj : j < 8) :
    (b.toUInt64 <<< UInt64.ofNat (8 * j)).toNat = b.toNat * 2 ^ (8 * j) := by
  have hb : b.toNat < 2 ^ 8 := b.toNat_lt
  have hlt : b.toNat * 2 ^ (8 * j) < 2 ^ 64 :=
    calc b.toNat * 2 ^ (8 * j) < 2 ^ 8 * 2 ^ (8 * j) :=
          Nat.mul_lt_mul_of_pos_right hb (Nat.two_pow_pos _)
      _ = 2 ^ (8 + 8 * j) := (Nat.pow_add _ _ _).symm
      _ ≤ 2 ^ 64 := Nat.pow_le_pow_right (by decide) (by omega)
  have hplace : (UInt64.ofNat (8 * j)).toNat % 64 = 8 * j := by
    rw [UInt64.toNat_ofNat', Nat.mod_eq_of_lt (by omega), Nat.mod_eq_of_lt (by omega)]
  rw [UInt64.toNat_shiftLeft, hplace, UInt8.toNat_toUInt64, Nat.shiftLeft_eq,
    Nat.mod_eq_of_lt hlt]

theorem or_byte_eq_xor (b : UInt8) (hj : j < 8) (hw : w.toNat < 2 ^ (8 * j)) :
    w ||| (b.toUInt64 <<< UInt64.ofNat (8 * j)) = w ^^^ (b.toUInt64 <<< UInt64.ofNat (8 * j)) := by
  refine UInt64.toNat_inj.mp (Nat.eq_of_testBit_eq fun i ↦ ?_)
  rw [UInt64.toNat_or, UInt64.toNat_xor, Nat.testBit_or, Nat.testBit_xor,
    toNat_shiftLeft_byte b hj, Nat.testBit_mul_two_pow]
  by_cases hi : 8 * j ≤ i
  · have hlow : w.toNat.testBit i = false :=
      Nat.testBit_lt_two_pow (hw.trans_le (Nat.pow_le_pow_right (by decide) hi))
    rw [hlow, Bool.false_or, Bool.false_xor]
  · simp [hi]

theorem toNat_xor_byte_lt (b : UInt8) (hj : j < 8) (hw : w.toNat < 2 ^ (8 * j)) :
    (w ^^^ (b.toUInt64 <<< UInt64.ofNat (8 * j))).toNat < 2 ^ (8 * (j + 1)) := by
  have hb : b.toNat < 2 ^ 8 := b.toNat_lt
  rw [UInt64.toNat_xor, toNat_shiftLeft_byte b hj]
  refine Nat.xor_lt_two_pow (hw.trans_le (Nat.pow_le_pow_right (by decide) (by omega))) ?_
  calc b.toNat * 2 ^ (8 * j) < 2 ^ 8 * 2 ^ (8 * j) :=
        Nat.mul_lt_mul_of_pos_right hb (Nat.two_pow_pos _)
    _ = 2 ^ (8 * (j + 1)) := by rw [← Nat.pow_add, Nat.mul_add, Nat.add_comm]

/-- Word `i` of a key, as far as it is in the key, combines eight placed bytes. -/
theorem loadWord_eq (s : Bytes) (i : ℕ) (hi : 8 * i + 8 ≤ s.length) :
    loadWord s i = some ((List.range 8).foldl (fun w j ↦ w ^^^ placedByte s (8 * i + j)) 0) := by
  -- the bytes read so far do not reach the next one's place
  have hloop : ∀ m ≤ 8, ∃ w, (List.range m).foldlM (fun w j ↦ do
        let b ← s[8 * i + j]?
        some (w ||| (b.toUInt64 <<< UInt64.ofNat (8 * j)))) 0 = some w ∧
      w = (List.range m).foldl (fun w j ↦ w ^^^ placedByte s (8 * i + j)) 0 ∧
      w.toNat < 2 ^ (8 * m) := by
    intro m hm
    induction m with
    | zero => exact ⟨0, rfl, rfl, by decide⟩
    | succ m ih =>
      obtain ⟨w, hfold, hw, hlt⟩ := ih (Nat.le_of_succ_le hm)
      have hread : s[8 * i + m]? = some (s.getD (8 * i + m) 0) := by
        rw [List.getD_eq_getElem?_getD, List.getElem?_eq_getElem (by omega), Option.getD_some]
      have hplace : placedByte s (8 * i + m)
          = (s.getD (8 * i + m) 0).toUInt64 <<< UInt64.ofNat (8 * m) := by
        rw [placedByte, Nat.mul_add_mod, Nat.mod_eq_of_lt (by omega)]
      refine ⟨w ^^^ placedByte s (8 * i + m), ?_, ?_, ?_⟩
      · rw [List.range_succ, List.foldlM_append, hfold]
        simp only [Option.bind_eq_bind, Option.bind_some, List.foldlM_cons, List.foldlM_nil]
        rw [hread, Option.bind_some, Option.bind_some, or_byte_eq_xor _ hm hlt, hplace]
        rfl
      · rw [List.range_succ, List.foldl_append, ← hw]
        rfl
      · rw [hplace]
        exact toNat_xor_byte_lt _ hm hlt
  obtain ⟨w, hfold, hw, -⟩ := hloop 8 le_rfl
  rw [loadWord, ← hw]
  exact hfold

/-! ## The whole key -/

/-- The word loop combines the bytes of the first `m` words. -/
theorem foldlM_loadWord (s : Bytes) {m : ℕ} (hm : 8 * m ≤ s.length) :
    (List.range m).foldlM (fun out i ↦ do
        let w ← loadWord s i
        some (out ^^^ w)) 0
      = some ((List.range (8 * m)).foldl (fun out i ↦ out ^^^ placedByte s i) 0) := by
  induction m with
  | zero => rfl
  | succ m ih =>
    have hword := loadWord_eq s m (by omega)
    rw [List.range_succ, List.foldlM_append, ih (by omega)]
    simp only [Option.bind_eq_bind, Option.bind_some, List.foldlM_cons, List.foldlM_nil, hword]
    rw [Nat.mul_succ, foldl_range_add]
    exact congrArg some (foldl_xor_eq (fun j ↦ placedByte s (8 * m + j)) _ _).symm

theorem defHashFnRead_eq (key : CStr) : defHashFnRead key = some (bytewiseHash key.bytes) := by
  set n := key.bytes.length with hn
  have hwords := foldlM_loadWord key.bytes (m := n / 8) (by omega)
  have htail : ∀ i ∈ List.range (n % 8), ∀ out : UInt64,
      (do
        let b ← key.bytes[i + n - n % 8]?
        some (out ^^^ (b.toUInt64 <<< UInt64.ofNat (i * 8))))
      = some (out ^^^ placedByte key.bytes (8 * (n / 8) + i)) := by
    intro i hi out
    have hlt : i < n % 8 := List.mem_range.mp hi
    have hindex : i + n - n % 8 = 8 * (n / 8) + i := by omega
    have hread : key.bytes[8 * (n / 8) + i]? = some (key.bytes.getD (8 * (n / 8) + i) 0) := by
      rw [List.getD_eq_getElem?_getD, List.getElem?_eq_getElem (by omega), Option.getD_some]
    rw [hindex, hread, placedByte, Nat.mul_add_mod, Nat.mod_eq_of_lt (by omega),
      Nat.mul_comm i 8]
    rfl
  -- the words and the tail together range over the whole key
  have hrange := foldl_range_add (fun out i ↦ out ^^^ placedByte key.bytes i) 0 (8 * (n / 8))
    (n % 8)
  rw [Nat.div_add_mod] at hrange
  rw [defHashFnRead]
  simp only [Option.bind_eq_bind] at hwords htail ⊢
  rw [hwords, Option.bind_some, foldlM_eq_some htail, bytewiseHash, ← hn, hrange]

/-- **`def_hash_fn` is the bytewise hash**: it never reads at or past the terminator, and it
combines the same bytes at the same places. Buffers that agree up to a `NUL` therefore have the
same hash. -/
theorem defHashFn_bytewise :
    (∀ key : CStr, defHashFnRead key = some (bytewiseHash key.bytes) ∧
        defHashFn key = bytewiseHash key.bytes) ∧
      ∀ s t u : Bytes,
        defHashFn (CStr.ofBytes (s ++ 0 :: t)) = defHashFn (CStr.ofBytes (s ++ 0 :: u)) := by
  constructor
  · intro key
    exact ⟨defHashFnRead_eq key, by rw [defHashFn, defHashFnRead_eq, Option.getD_some]⟩
  · intro s t u
    rw [CStr.ofBytes_append_nul, CStr.ofBytes_append_nul]

end NetCache
