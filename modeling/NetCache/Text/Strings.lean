import Mathlib.Data.Nat.Digits.Lemmas
import Mathlib.Data.List.DropRight
import NetCache.Text.Bytes

/-!
# Strings

What the client and the server do with a `std::string`: searching, cutting, stripping, and the
conversions between numbers and text. The result `npos` of a search is `none`; its successor wraps
to `0`, and it exceeds the length of every string.

## `strip` and its `int`

`strip` runs an `int` index from the end of the string down. The index is computed from a `size_t`,
so it keeps the low 32 bits of the last position (`stripBound`), and for a string of more than
`2 ^ 31` bytes the loop starts somewhere inside it, or not at all. It can also start at `INT_MAX`:
if the byte there is not whitespace the loop ends at once, with `resize(i + 1)`, and `i + 1`
overflows. What `resize` is given then is larger than any string, so it throws. The function is
therefore partial, and `strip_eq_none_iff` says exactly for which strings. Below `2 ^ 31` bytes none
of this happens.

## What stripping is for

`rstrip` is the string without its trailing whitespace, defined without an index. Short strings are
stripped to it (`strip_of_not_all`), with one exception that has nothing to do with the length: in a
string of whitespace alone the loop never reaches the `resize`, and the string stays as it is
(`strip_of_all`). `strip_stripped_iff` puts this against the longest prefix that does not end in
whitespace.

## Numbers

`stoll` reads a number up to the first byte that is not a digit, so what follows a number does no
harm (`stoll_decimal_eq`), and it distinguishes a text without digits from a number out of range.
-/

namespace NetCache

namespace Text

/-- The bytes of an ASCII literal. -/
def ascii (s : String) : Bytes := s.toList.map fun c ↦ UInt8.ofNat c.toNat

/-! ## Searching and cutting -/

/-- `s.find(c, pos)` -/
def find (s : Bytes) (c : UInt8) (pos : ℕ) : Option ℕ :=
  ((s.drop pos).findIdx? (· = c)).map (· + pos)

/-- The position after the one found; `npos + 1` is `0`. -/
def afterPos : Option ℕ → ℕ
  | none => 0
  | some i => i + 1

/-- `string(begin + first, begin + last)`: the byte past the end of a string is its `NUL`, and a
range that ends before it starts throws. -/
def substring (s : Bytes) (first last : ℕ) : Option Bytes :=
  if first ≤ last then some (((s ++ [0]).drop first).take (last - first)) else none

variable {s p q w : Bytes} {c : UInt8} {n : ℕ}

theorem findIdx?_eq_none (h : c ∉ s) : s.findIdx? (· = c) = none := by
  rw [List.findIdx?_eq_none_iff]
  intro b hb
  simpa using fun hbc : b = c ↦ h (hbc ▸ hb)

theorem findIdx?_append_cons (h : c ∉ p) : (p ++ c :: q).findIdx? (· = c) = some p.length := by
  rw [List.findIdx?_append, findIdx?_eq_none h, Option.none_or, List.findIdx?_cons]
  simp

theorem find_eq_none (h : c ∉ s.drop n) : find s c n = none := by
  rw [find, findIdx?_eq_none h, Option.map_none]

theorem find_append (pre : Bytes) (h : c ∉ p) :
    find (pre ++ (p ++ c :: q)) c pre.length = some (pre.length + p.length) := by
  rw [find, List.drop_left, findIdx?_append_cons h, Option.map_some, Nat.add_comm]

/-! ## Stripping

The loop is described twice: by the positions it may look at, which depend on the length alone,
and by what it leaves of a string it looks at whole. A string that ends in a byte which is not
whitespace (`Solid`) protects all that comes before its end, whatever is appended to it. -/

/-- `is_white_space` -/
def isWhiteSpace (c : UInt8) : Bool := c = 0 || c = 32 || c = 10 || c = 13 || c = 9

/-- The loop of `strip`; the argument is `i + 1`, which overflows at `INT_MAX`. The length that
`resize` is then given is too large for any string, and it throws `length_error`. -/
def stripLoop (str : Bytes) : ℕ → Option Bytes
  | 0 => some str
  | i + 1 =>
    if str[i]?.all isWhiteSpace then stripLoop str i
    else if i + 1 = 2 ^ 31 then none
    else some (str.take (i + 1))

/-- How many positions the loop of `strip` may look at: `int i = strs-1` keeps the low 32 bits of
the last index, and the loop ends when `i` is negative. -/
def stripBound (strs : ℕ) : ℕ := (Int.bmod ((strs : ℤ) - 1) (2 ^ 32) + 1).toNat

/-- `strip`, `none` when it throws. -/
def strip (str : Bytes) : Option Bytes := stripLoop str (stripBound str.length)

/-- A string without its trailing whitespace. -/
def rstrip (s : Bytes) : Bytes := s.rdropWhile isWhiteSpace

theorem stripBound_eq (n : ℕ) : stripBound n =
    if n = 0 then 0 else if (n - 1) % 2 ^ 32 < 2 ^ 31 then (n - 1) % 2 ^ 32 + 1 else 0 := by
  rw [stripBound, Int.bmod_def]
  split_ifs <;> omega

theorem stripBound_of_le (h : n ≤ 2 ^ 31) : stripBound n = n := by
  rw [stripBound_eq]
  split_ifs <;> omega

theorem stripBound_le (n : ℕ) : stripBound n ≤ n := by
  rw [stripBound_eq]
  split_ifs <;> omega

theorem stripBound_le_two_pow (n : ℕ) : stripBound n ≤ 2 ^ 31 := by
  rw [stripBound_eq]
  split_ifs <;> omega

theorem rstrip_concat_of_ws (h : isWhiteSpace c = true) : rstrip (s ++ [c]) = rstrip s :=
  List.rdropWhile_concat_pos _ _ _ h

theorem rstrip_concat_of_not_ws (h : isWhiteSpace c = false) : rstrip (s ++ [c]) = s ++ [c] :=
  List.rdropWhile_concat_neg _ _ _ (by simp [h])

theorem rstrip_append (hw : w.all isWhiteSpace = true) : rstrip (s ++ w) = rstrip s := by
  induction w using List.reverseRecOn with
  | nil => rw [List.append_nil]
  | append_singleton w c ih =>
    rw [List.all_append, Bool.and_eq_true] at hw
    rw [← List.append_assoc, rstrip_concat_of_ws (by simpa using hw.2), ih hw.1]

theorem rstrip_of_all (h : s.all isWhiteSpace = true) : rstrip s = [] := by
  rw [← List.nil_append s, rstrip_append h]
  rfl

theorem rstrip_isPrefix (s : Bytes) : rstrip s <+: s := List.rdropWhile_prefix _ _

theorem rstrip_eq_self_iff : rstrip s = s ↔ ∀ b ∈ s.getLast?, isWhiteSpace b = false := by
  rw [rstrip, List.rdropWhile_eq_self_iff]
  cases s using List.reverseRecOn with
  | nil => simp
  | append_singleton s c => simp

theorem exists_rstrip_append (s : Bytes) :
    ∃ w, s = rstrip s ++ w ∧ w.all isWhiteSpace = true := by
  induction s using List.reverseRecOn with
  | nil => exact ⟨[], rfl, rfl⟩
  | append_singleton s c ih =>
    cases hc : isWhiteSpace c with
    | true =>
      obtain ⟨w, hs, hw⟩ := ih
      refine ⟨w ++ [c], ?_, by simp [hw, hc]⟩
      rw [rstrip_concat_of_ws hc, ← List.append_assoc, ← hs]
    | false => exact ⟨[], by rw [rstrip_concat_of_not_ws hc, List.append_nil], rfl⟩

/-- The loop stops at the last non-whitespace byte it looks at, and does nothing without one. -/
theorem stripLoop_eq (h : n ≤ s.length) :
    stripLoop s n = if (s.take n).all isWhiteSpace then some s
      else if (rstrip (s.take n)).length = 2 ^ 31 then none else some (rstrip (s.take n)) := by
  induction n with
  | zero => rfl
  | succ n ih =>
    obtain ⟨c, hc⟩ : ∃ c, s[n]? = some c := ⟨s[n], List.getElem?_eq_getElem h⟩
    have hlen : (s.take n ++ [c]).length = n + 1 := by
      rw [List.length_append, List.length_singleton,
        List.length_take_of_le (Nat.le_of_succ_le h)]
    rw [stripLoop, List.take_add_one, hc, Option.all_some, Option.toList_some]
    cases hws : isWhiteSpace c with
    | true => simp [rstrip_concat_of_ws hws, ih (Nat.le_of_succ_le h), hws]
    | false => simp [rstrip_concat_of_not_ws hws, hws, hlen]

/-- **What `strip` does**, for strings of any length. -/
theorem strip_eq (s : Bytes) : strip s =
    if (s.take (stripBound s.length)).all isWhiteSpace then some s
    else if (rstrip (s.take (stripBound s.length))).length = 2 ^ 31 then none
    else some (rstrip (s.take (stripBound s.length))) := stripLoop_eq (stripBound_le _)

theorem strip_isPrefix {r : Bytes} (h : strip s = some r) : r <+: s := by
  rw [strip_eq] at h
  split_ifs at h
  · rw [Option.some.inj h]
  · rw [← Option.some.inj h]
    exact (rstrip_isPrefix _).trans (List.take_prefix _ _)

theorem length_rstrip_take_iff (h : n < s.length) :
    (rstrip (s.take (n + 1))).length = n + 1 ↔ ∃ b ∈ s[n]?, isWhiteSpace b = false := by
  obtain ⟨b, hb⟩ : ∃ b, s[n]? = some b := ⟨_, List.getElem?_eq_getElem h⟩
  have hlen : (s.take n).length = n := List.length_take_of_le h.le
  rw [List.take_add_one, hb, Option.toList_some]
  cases hws : isWhiteSpace b with
  | true =>
    have hshort := (rstrip_isPrefix (s.take n)).length_le
    rw [rstrip_concat_of_ws hws]
    refine iff_of_false (by omega) ?_
    simp [hws]
  | false =>
    rw [rstrip_concat_of_not_ws hws, List.length_append, List.length_singleton, hlen]
    simp [hws]

theorem stripBound_eq_top_iff : stripBound n = 2 ^ 31 ↔ n % 2 ^ 32 = 2 ^ 31 := by
  rw [stripBound_eq]
  split_ifs
  · exact iff_of_false (by decide) (by omega)
  · omega
  · exact iff_of_false (by decide) (by omega)

/-- `strip` throws when its index starts at `INT_MAX`, at a byte that is not whitespace. -/
theorem strip_eq_none_iff : strip s = none ↔
    s.length % 2 ^ 32 = 2 ^ 31 ∧ ∃ b ∈ s[2 ^ 31 - 1]?, isWhiteSpace b = false := by
  have hle := (rstrip_isPrefix (s.take (stripBound s.length))).length_le
  have htop := stripBound_le_two_pow s.length
  have hbound := stripBound_le s.length
  have hnone : strip s = none ↔ (rstrip (s.take (stripBound s.length))).length = 2 ^ 31 := by
    rw [strip_eq]
    split_ifs with hall hfull
    · rw [rstrip_of_all hall]
      exact iff_of_false id (by decide)
    · exact iff_of_true rfl hfull
    · exact iff_of_false id hfull
  rw [List.length_take] at hle
  rw [hnone, ← stripBound_eq_top_iff]
  by_cases hstart : stripBound s.length = 2 ^ 31
  · rw [hstart, and_iff_right rfl]
    exact length_rstrip_take_iff (by omega)
  · exact iff_of_false (by omega) fun h ↦ hstart h.1

theorem strip_eq_some_iff {r : Bytes} (hr : r.length < s.length) : strip s = some r ↔
    (if (s.take (stripBound s.length)).all isWhiteSpace then s
      else rstrip (s.take (stripBound s.length))) = r ∧ r.length < 2 ^ 31 := by
  have htop := stripBound_le_two_pow s.length
  rw [strip_eq]
  split_ifs with hall hfull
  · have hne : s ≠ r := fun h ↦ absurd (congrArg List.length h) hr.ne'
    exact iff_of_false (by simpa using hne) fun h ↦ hne h.1
  · refine iff_of_false (by simp) ?_
    rintro ⟨rfl, hlt⟩
    exact hlt.ne hfull
  · have hle := (rstrip_isPrefix (s.take (stripBound s.length))).length_le
    rw [List.length_take] at hle
    rw [Option.some.injEq]
    refine ⟨fun h ↦ ⟨h, ?_⟩, And.left⟩
    subst h
    omega

theorem strip_of_not_all (hlen : s.length ≤ 2 ^ 31) (hshort : (rstrip s).length < 2 ^ 31)
    (h : ¬ s.all isWhiteSpace = true) : strip s = some (rstrip s) := by
  rw [strip_eq, stripBound_of_le hlen, List.take_length, if_neg h, if_neg hshort.ne]

/-- A string that ends in something other than whitespace. -/
def Solid (s : Bytes) : Prop := ∃ p c, s = p ++ [c] ∧ isWhiteSpace c = false

theorem rstrip_append_of_not_all (h : ¬ q.all isWhiteSpace = true) :
    rstrip (p ++ q) = p ++ rstrip q ∧ rstrip q ≠ [] := by
  induction q using List.reverseRecOn with
  | nil => exact absurd rfl h
  | append_singleton q c ih =>
    rw [← List.append_assoc]
    cases hc : isWhiteSpace c with
    | true =>
      rw [rstrip_concat_of_ws hc, rstrip_concat_of_ws hc]
      exact ih fun hq ↦ h (by simp [hq, hc])
    | false =>
      rw [rstrip_concat_of_not_ws hc, rstrip_concat_of_not_ws hc]
      exact ⟨List.append_assoc .., by simp⟩

/-- Stripping does not reach behind the end of a solid string. -/
theorem rstrip_solid_append (hs : Solid s) (w : Bytes) : rstrip (s ++ w) = s ++ rstrip w := by
  by_cases hw : w.all isWhiteSpace = true
  · obtain ⟨p, c, rfl, hc⟩ := hs
    rw [rstrip_append hw, rstrip_of_all hw, rstrip_concat_of_not_ws hc, List.append_nil]
  · exact (rstrip_append_of_not_all hw).1

theorem Solid.not_all (hs : Solid s) (w : Bytes) : ¬ (s ++ w).all isWhiteSpace = true := by
  obtain ⟨p, c, rfl, hc⟩ := hs
  simp [hc]

theorem strip_of_solid (hs : Solid s) (hw : w.all isWhiteSpace = true)
    (hlen : (s ++ w).length ≤ 2 ^ 31) (hshort : s.length < 2 ^ 31) : strip (s ++ w) = some s := by
  have hrstrip : rstrip (s ++ w) = s := by
    rw [rstrip_solid_append hs, rstrip_of_all hw, List.append_nil]
  rw [strip_of_not_all hlen (by rwa [hrstrip]) (hs.not_all w), hrstrip]

/-! ### The longest prefix that does not end in whitespace -/

/-- The last byte is whitespace. -/
def EndsInWhiteSpace (s : Bytes) : Prop := ∃ b ∈ s.getLast?, isWhiteSpace b = true

/-- `r` is the longest prefix of `s` that does not end in whitespace. -/
structure Stripped (s r : Bytes) : Prop where
  /-- Only the end of the string goes. -/
  isPrefix : r <+: s
  /-- What is left does not end in whitespace. -/
  not_ends : ¬ EndsInWhiteSpace r
  /-- No more than needed goes. -/
  longest : ∀ p, p <+: s → ¬ EndsInWhiteSpace p → p.length ≤ r.length

theorem endsInWhiteSpace_concat : EndsInWhiteSpace (s ++ [c]) ↔ isWhiteSpace c = true := by
  simp [EndsInWhiteSpace]

theorem not_endsInWhiteSpace_iff : ¬ EndsInWhiteSpace s ↔ rstrip s = s := by
  rw [rstrip_eq_self_iff, EndsInWhiteSpace]
  simp only [not_exists, not_and, Bool.not_eq_true]

theorem stripped_rstrip (s : Bytes) : Stripped s (rstrip s) where
  isPrefix := rstrip_isPrefix s
  not_ends := not_endsInWhiteSpace_iff.mpr (List.rdropWhile_idempotent _ s)
  longest := by
    induction s using List.reverseRecOn with
    | nil =>
      intro p hp _
      exact hp.length_le
    | append_singleton s c ih =>
      intro p hp hends
      cases hc : isWhiteSpace c with
      | false =>
        rw [rstrip_concat_of_not_ws hc]
        exact hp.length_le
      | true =>
        rw [rstrip_concat_of_ws hc]
        -- the whole string ends in whitespace, so the prefix is a prefix of the rest
        rcases List.prefix_concat_iff.mp hp with rfl | hp
        · exact absurd (endsInWhiteSpace_concat.mpr hc) hends
        · exact ih p hp hends

/-- The loop never reaches an exit in a string of whitespace, and resizes nothing. -/
theorem strip_of_all (h : s.all isWhiteSpace = true) : strip s = some s := by
  have htake : (s.take (stripBound s.length)).all isWhiteSpace = true := by
    rw [List.all_eq_true] at h ⊢
    exact fun b hb ↦ h b (List.mem_of_mem_take hb)
  rw [strip_eq, if_pos htake]

theorem length_rstrip_lt (hlen : s.length < n) : (rstrip s).length < n :=
  (rstrip_isPrefix s).length_le.trans_lt hlen

theorem strip_strip {r : Bytes} (hlen : s.length < 2 ^ 31) (hr : strip s = some r) :
    strip r = some r := by
  by_cases h : s.all isWhiteSpace = true
  · obtain rfl := Option.some.inj ((strip_of_all h).symm.trans hr)
    exact hr
  · rw [strip_of_not_all hlen.le (length_rstrip_lt hlen) h] at hr
    obtain rfl := Option.some.inj hr
    have hsolid : rstrip (rstrip s) = rstrip s := List.rdropWhile_idempotent _ s
    by_cases hr : (rstrip s).all isWhiteSpace = true
    · exact strip_of_all hr
    · have hstrip := strip_of_not_all (length_rstrip_lt hlen).le
        (length_rstrip_lt (length_rstrip_lt hlen)) hr
      rwa [hsolid] at hstrip

/-- **Stripping** leaves the longest prefix that does not end in whitespace, unless the string is
not empty and has nothing but whitespace in it: that one it leaves as it is. -/
theorem strip_stripped_iff (hlen : s.length < 2 ^ 31) :
    (∃ r, strip s = some r ∧ Stripped s r ∧ (s.all isWhiteSpace = true → r = []) ∧
        ¬ EndsInWhiteSpace r ∧ strip r = some r) ↔
      s = [] ∨ ∃ b ∈ s, isWhiteSpace b = false := by
  constructor
  · rintro ⟨r, hr, -, hnil, -⟩
    by_cases h : s.all isWhiteSpace = true
    · obtain rfl := Option.some.inj ((strip_of_all h).symm.trans hr)
      exact Or.inl (hnil h)
    · exact Or.inr (by simpa using h)
  · intro h
    have hstrip : strip s = some (rstrip s) := by
      rcases h with rfl | ⟨b, hb, hws⟩
      · rfl
      · refine strip_of_not_all hlen.le (length_rstrip_lt hlen) fun hall ↦ ?_
        rw [List.all_eq_true.mp hall b hb] at hws
        exact absurd hws (by decide)
    exact ⟨rstrip s, hstrip, stripped_rstrip s, rstrip_of_all, (stripped_rstrip s).not_ends,
      strip_strip hlen hstrip⟩

theorem strip_stripped_ab : ∃ r, strip [97, 32, 98, 9, 0] = some r ∧
    Stripped [97, 32, 98, 9, 0] r ∧
    (([97, 32, 98, 9, 0] : Bytes).all isWhiteSpace = true → r = []) ∧
    ¬ EndsInWhiteSpace r ∧ strip r = some r :=
  (strip_stripped_iff (by decide)).mpr (Or.inr ⟨97, by simp, by decide⟩)

/-- A single space is left alone. -/
theorem not_stripped_space : ¬ ∀ s : Bytes, s.length < 2 ^ 31 →
    ∃ r, strip s = some r ∧ Stripped s r ∧ (s.all isWhiteSpace = true → r = []) ∧
      ¬ EndsInWhiteSpace r ∧ strip r = some r := by
  intro h
  obtain ⟨r, hr, -, hnil, -⟩ := h [32] (by decide)
  rw [hnil (by decide)] at hr
  exact absurd hr (by decide)

/-! ## Numbers

`to_string` on one side, `stoll` on the other. The digits of a number are kept with the units
first, as repeated division gives them, and `digitsValue` reads them in that order. -/

/-- `to_string` of an unsigned number. -/
def decimal (n : ℕ) : Bytes :=
  if n = 0 then [48] else (Nat.digits 10 n).reverse.map fun d ↦ UInt8.ofNat (48 + d)

/-- What a conversion from text to a number throws. -/
inductive ConversionError
  /-- `std::invalid_argument` -/
  | invalidArgument
  /-- `std::out_of_range` -/
  | outOfRange
  deriving DecidableEq

/-- `isspace` -/
def isSpace (c : UInt8) : Bool := c = 32 || 9 ≤ c && c ≤ 13

/-- `isdigit` -/
def isDigit (c : UInt8) : Bool := 48 ≤ c && c ≤ 57

/-- The number a row of digits denotes. -/
def digitsValue (ds : Bytes) : ℕ := ds.foldl (fun n d ↦ 10 * n + (d.toNat - 48)) 0

/-- The optional sign of a number, and what follows it. -/
def signOf : Bytes → ℤ × Bytes
  | 45 :: s => (-1, s)
  | 43 :: s => (1, s)
  | s => (1, s)

/-- `stoll(s)`, with what follows the digits ignored. -/
def stoll (s : Bytes) : Except ConversionError ℤ :=
  let (sign, s) := signOf (s.dropWhile isSpace)
  let ds := s.takeWhile isDigit
  if ds = [] then .error .invalidArgument
  else if -2 ^ 63 ≤ sign * digitsValue ds ∧ sign * digitsValue ds < 2 ^ 63 then
    .ok (sign * digitsValue ds)
  else .error .outOfRange

theorem isDigit_of_mem_decimal (h : c ∈ decimal n) : isDigit c = true := by
  have hdigit : ∀ d < 10, isDigit (UInt8.ofNat (48 + d)) = true := by decide
  rw [decimal] at h
  split at h
  · obtain rfl := List.mem_singleton.mp h
    exact hdigit 0 (by decide)
  · obtain ⟨d, hd, rfl⟩ := List.mem_map.mp h
    exact hdigit d (Nat.digits_lt_base (by decide) (List.mem_reverse.mp hd))

theorem decimal_ne_nil (n : ℕ) : decimal n ≠ [] := by
  rw [decimal]
  split
  · exact List.cons_ne_nil _ _
  · rename_i h
    simpa using Nat.digits_ne_nil_iff_ne_zero.mpr h

theorem length_decimal_le {m : ℕ} (hm : 0 < m) (h : n < 10 ^ m) : (decimal n).length ≤ m := by
  rw [decimal]
  split
  · exact hm
  · rw [List.length_map, List.length_reverse]
    exact (Nat.digits_length_le_iff (by decide) n).mpr h

theorem digitsValue_reverse {ds : List ℕ} (hds : ∀ d ∈ ds, d < 10) :
    digitsValue (ds.reverse.map fun d ↦ UInt8.ofNat (48 + d)) = Nat.ofDigits 10 ds := by
  rw [digitsValue, List.foldl_map, List.foldl_reverse, Nat.ofDigits_eq_foldr]
  induction ds with
  | nil => rfl
  | cons d ds ih =>
    have hd : (UInt8.ofNat (48 + d)).toNat = 48 + d := by
      have := hds d List.mem_cons_self
      rw [UInt8.toNat_ofNat', Nat.mod_eq_of_lt (by omega)]
    rw [List.foldr_cons, List.foldr_cons, ih fun d' hd' ↦ hds d' (List.mem_cons_of_mem _ hd'),
      hd, Nat.cast_id]
    omega

theorem digitsValue_decimal (n : ℕ) : digitsValue (decimal n) = n := by
  rw [decimal]
  split
  · rename_i h
    rw [h]
    rfl
  · have hdigits : ∀ d ∈ Nat.digits 10 n, d < 10 := by
      intro d hd
      exact Nat.digits_lt_base (by decide) hd
    rw [digitsValue_reverse hdigits, Nat.ofDigits_digits]

theorem isSpace_of_isDigit {c : UInt8} (hc : isDigit c = true) : isSpace c = false := by
  simp only [isDigit, isSpace, Bool.and_eq_true, Bool.or_eq_false_iff, Bool.and_eq_false_imp,
    decide_eq_true_eq, decide_eq_false_iff_not, UInt8.le_iff_toNat_le] at hc ⊢
  constructor
  · rintro rfl
    exact absurd hc.1 (by decide)
  · intro _
    have : (48 : UInt8).toNat = 48 := rfl
    have : (13 : UInt8).toNat = 13 := rfl
    omega

theorem signOf_of_isDigit {c : UInt8} {s : Bytes} (hc : isDigit c = true) :
    signOf (c :: s) = (1, c :: s) := by
  unfold signOf
  split
  · rename_i heq
    obtain rfl := (List.cons.inj heq).1
    exact absurd hc (by decide)
  · rename_i heq
    obtain rfl := (List.cons.inj heq).1
    exact absurd hc (by decide)
  · rfl

/-- A number is read back if it is in range, whatever follows it but a digit. -/
theorem stoll_decimal_eq (hs : s.head?.all (fun c ↦ !isDigit c) = true) :
    stoll (decimal n ++ s) = if n < 2 ^ 63 then .ok (n : ℤ) else .error .outOfRange := by
  obtain ⟨d, ds, hds⟩ := List.exists_cons_of_ne_nil (decimal_ne_nil n)
  have hdigit : ∀ c ∈ decimal n, isDigit c = true := fun c hc ↦ isDigit_of_mem_decimal hc
  have hd : isDigit d = true := hdigit d (by simp [hds])
  have htake : (decimal n ++ s).takeWhile isDigit = decimal n := by
    rw [List.takeWhile_append_of_pos hdigit]
    cases s with
    | nil => rw [List.takeWhile_nil, List.append_nil]
    | cons c s =>
      rw [List.takeWhile_cons_of_neg (by simpa using hs), List.append_nil]
  have hsign : signOf ((decimal n ++ s).dropWhile isSpace) = (1, decimal n ++ s) := by
    have hspace : isSpace d = false := isSpace_of_isDigit hd
    rw [hds, List.cons_append, List.dropWhile_cons_of_neg (by simp [hspace])]
    exact signOf_of_isDigit hd
  rw [stoll, hsign]
  simp only [htake, if_neg (decimal_ne_nil n), digitsValue_decimal, one_mul]
  exact if_congr (by omega) rfl rfl

end Text

end NetCache
