import Mathlib.Algebra.Group.Nat.Defs
import Mathlib.Data.List.TakeWhile

/-!
# Byte strings

The three kinds of string the program handles: plain bytes, the NUL-terminated strings that C code
passes as keys, and the values of a cache, whose size must fit a `uint32_t`.

## Invariants as fields

`CStr` carries the proof that its bytes contain no `NUL`, and `Value` the proof that its length is a
`uint32_t`. A key with a `NUL` inside, or a value whose size is not the one that is passed with it,
cannot be built, so no later theorem has to exclude them. What the source does with a buffer whose
declared size is not its length is a function on plain bytes, `Value.ofBuffer`, which narrows the
buffer to the size.

## Reading a C string

`CStr.ofBytes` is what `string((char *)p)` or `strlen` see of a buffer: the bytes before the first
`NUL`. Whether there is a `NUL` to stop at is a separate question, because reading past the end of a
buffer is undefined; where the source reads like that, the model checks for the `NUL` first.
-/

namespace NetCache

/-- Plain bytes. -/
abbrev Bytes := List UInt8

/-- A NUL-terminated string, without its terminator. -/
@[ext] structure CStr where
  /-- The bytes before the terminator. -/
  bytes : Bytes
  /-- The first `NUL` is the terminator. -/
  nul_free : 0 ∉ bytes
  deriving DecidableEq

namespace CStr

/-- What C code reads from a buffer: the bytes up to the first `NUL`. -/
def ofBytes (s : Bytes) : CStr where
  bytes := s.takeWhile (· ≠ 0)
  nul_free h := by simpa using List.mem_takeWhile_imp h

theorem bytes_ofBytes {s : Bytes} (h : 0 ∉ s) : (ofBytes s).bytes = s :=
  List.takeWhile_eq_self_iff.mpr fun b hb ↦ by
    simpa using fun hb0 : b = 0 ↦ h (hb0 ▸ hb)

theorem bytes_ofBytes_append {s t : Bytes} (h : 0 ∉ s) : (ofBytes (s ++ 0 :: t)).bytes = s := by
  have hs : s.takeWhile (· ≠ 0) = s := bytes_ofBytes h
  show (s ++ 0 :: t).takeWhile (· ≠ 0) = s
  rw [List.takeWhile_append_of_pos]
  · simp
  · intro b hb
    simpa using fun hb0 : b = 0 ↦ h (hb0 ▸ hb)

theorem ofBytes_append_nul (s t : Bytes) : ofBytes (s ++ 0 :: t) = ofBytes s := by
  ext1
  show (s ++ 0 :: t).takeWhile (· ≠ 0) = s.takeWhile (· ≠ 0)
  induction s with
  | nil => simp
  | cons b s ih => rw [List.cons_append, List.takeWhile_cons, List.takeWhile_cons, ih]

theorem ofBytes_bytes (k : CStr) : ofBytes k.bytes = k := CStr.ext (bytes_ofBytes k.nul_free)

theorem ofBytes_append (k : CStr) (t : Bytes) : ofBytes (k.bytes ++ 0 :: t) = k :=
  CStr.ext (bytes_ofBytes_append k.nul_free)

end CStr

/-- A value: a buffer whose size fits a `uint32_t`. -/
@[ext] structure Value where
  /-- The contents. -/
  bytes : Bytes
  /-- The size is a `uint32_t`. -/
  length_lt : bytes.length < 2 ^ 32
  deriving DecidableEq

namespace Value

/-- `val_size` -/
def size (v : Value) : UInt32 := UInt32.ofNat v.bytes.length

@[simp] theorem toNat_size (v : Value) : v.size.toNat = v.bytes.length := by
  rw [size, UInt32.toNat_ofNat', Nat.mod_eq_of_lt v.length_lt]

/-- The first `valSize` bytes of a buffer. -/
def ofBuffer (val : Bytes) (valSize : UInt32) : Value where
  bytes := val.take valSize.toNat
  length_lt := (List.length_take_le _ _).trans_lt valSize.toNat_lt

theorem bytes_ofBuffer (val : Bytes) (valSize : UInt32) :
    (ofBuffer val valSize).bytes = val.take valSize.toNat := rfl

theorem size_ofBuffer {val : Bytes} {valSize : UInt32} (h : valSize.toNat ≤ val.length) :
    (ofBuffer val valSize).size = valSize := by
  rw [size, ofBuffer, List.length_take_of_le h, UInt32.ofNat_toNat]

theorem ofBuffer_bytes (v : Value) : ofBuffer v.bytes v.size = v := by
  ext1
  rw [bytes_ofBuffer, toNat_size, List.take_length]

end Value

end NetCache
