import NetCache.Text.JsonGrammar

/-!
# The dialect of `json.hpp`

The strings, the words and the byte order marks of the JSON library the client is built with, which
is older than its later checks: in a string it accepts every byte from 16 on, whether the bytes are
UTF-8 or not.

## Strings

The text between two quotes is decoded from left to right. An ordinary byte stands for itself, an
escape for one character, and `\u` for a code point that is written out in UTF-8, from a pair of
surrogates if it is the first half of one. `getString` fails where the library throws. Decoding
never lengthens a text (`getString_cases`), which is what the grammar asks of a dialect.

## Words

A word is what stands between quotes, whitespace and punctuation. It is a number or one of the three
literals, or the text is rejected. The values of numbers are not needed: the client reads strings.

## The result

`vendored_unescaped_iff` says which texts need no escapes in this dialect: those all of whose bytes
are ordinary. A quote and a backslash are not, and neither are the bytes below 16; a tab therefore
needs an escape, while a byte above 127 does not, whatever it is part of.
-/

namespace NetCache

namespace Text

/-! ## Strings -/

/-- The value of a hexadecimal digit. -/
def hexValue (c : UInt8) : Option ℕ :=
  if isDigit c then some (c.toNat - 48)
  else if 65 ≤ c && c ≤ 70 then some (c.toNat - 55)
  else if 97 ≤ c && c ≤ 102 then some (c.toNat - 87)
  else none

/-- Four hexadecimal digits, and the rest of the text. -/
def readHex : Bytes → Option (ℕ × Bytes)
  | a :: b :: c :: d :: s => do
    let a ← hexValue a
    let b ← hexValue b
    let c ← hexValue c
    let d ← hexValue d
    some (((a * 16 + b) * 16 + c) * 16 + d, s)
  | _ => none

/-- A high surrogate. -/
def isHighSurrogate (codepoint : ℕ) : Bool := 0xD800 ≤ codepoint && codepoint ≤ 0xDBFF

/-- The bytes of a code point. -/
def utf8 (codepoint : ℕ) : Option Bytes :=
  let continuation (shift : ℕ) := UInt8.ofNat (0x80 + codepoint / 2 ^ shift % 0x40)
  if codepoint < 0x80 then some [UInt8.ofNat codepoint]
  else if codepoint ≤ 0x7FF then
    some [UInt8.ofNat (0xC0 + codepoint / 2 ^ 6 % 0x20), continuation 0]
  else if codepoint ≤ 0xFFFF then
    some [UInt8.ofNat (0xE0 + codepoint / 2 ^ 12 % 0x10), continuation 6, continuation 0]
  else if codepoint ≤ 0x10FFFF then
    some [UInt8.ofNat (0xF0 + codepoint / 2 ^ 18 % 0x08), continuation 12, continuation 6,
      continuation 0]
  else none

/-- `to_unicode`, `none` when it throws. -/
def toUnicode (codepoint₁ codepoint₂ : ℕ) : Option Bytes :=
  if isHighSurrogate codepoint₁ then
    if 0xDC00 ≤ codepoint₂ ∧ codepoint₂ ≤ 0xDFFF then
      utf8 (codepoint₁ * 2 ^ 10 + codepoint₂ - 0x35FDC00)
    else none
  else utf8 codepoint₁

/-- What `\u` and what follows it stand for, and the rest of the text. -/
def readUnicode (s : Bytes) : Option (Bytes × Bytes) := do
  let (codepoint, s) ← readHex s
  if isHighSurrogate codepoint then
    match s with
    | 92 :: 117 :: s => do
      let (codepoint₂, s) ← readHex s
      let t ← toUnicode codepoint codepoint₂
      some (t, s)
    | _ => none
  else do
    let t ← toUnicode codepoint 0
    some (t, s)

/-- What an escape of one character stands for. -/
def escapeOf (c : UInt8) : Option UInt8 :=
  if c = 116 then some 9
  else if c = 98 then some 8
  else if c = 102 then some 12
  else if c = 110 then some 10
  else if c = 114 then some 13
  else if c = 92 ∨ c = 47 ∨ c = 34 then some c
  else none

/-- What a backslash and what follows it stand for, and the rest of the text. -/
def readEscape : Bytes → Option (Bytes × Bytes)
  | [] => none
  | c :: s => if c = 117 then readUnicode s else (escapeOf c).map fun b ↦ ([b], s)

/-- A character that stands for itself. -/
def isOrdinary (c : UInt8) : Bool := 16 ≤ c && c ≠ 34 && c ≠ 92

/-- What a character and what belongs to it stand for, and the rest of the text. -/
def readChar (c : UInt8) (s : Bytes) : Option (Bytes × Bytes) :=
  if c = 92 then readEscape s else if isOrdinary c then some ([c], s) else none

/-- `get_string`, on what the lexer accepts between two quotes, with a bound on the steps. -/
def getString : ℕ → Bytes → Option Bytes
  | _, [] => some []
  | 0, _ :: _ => none
  | fuel + 1, c :: s => do
    let (t, s) ← readChar c s
    let rest ← getString fuel s
    some (t ++ rest)

/-! ## Words -/

/-- The rest of a text after digits, of which there has to be one. -/
def skipDigits : Bytes → Option Bytes
  | [] => none
  | c :: s => if isDigit c then some (s.dropWhile isDigit) else none

/-- The rest of a text after the integral part of a number. -/
def skipInteger : Bytes → Option Bytes
  | 45 :: 48 :: s => some s
  | 48 :: s => some s
  | 45 :: s => skipDigits s
  | s => skipDigits s

/-- The rest of a text after the fraction of a number, if there is one. -/
def skipFraction : Bytes → Option Bytes
  | 46 :: s => skipDigits s
  | s => some s

/-- The rest of a text after the exponent of a number, if there is one. -/
def skipExponent : Bytes → Option Bytes
  | [] => some []
  | c :: s =>
    if c = 101 ∨ c = 69 then
      match s with
      | 43 :: s => skipDigits s
      | 45 :: s => skipDigits s
      | s => skipDigits s
    else some (c :: s)

/-- The rest of a text after a literal or a number. -/
def skipScalar (w : Bytes) : Option Bytes :=
  if (ascii "true").isPrefixOf w then some (w.drop 4)
  else if (ascii "false").isPrefixOf w then some (w.drop 5)
  else if (ascii "null").isPrefixOf w then some (w.drop 4)
  else do
    let w ← skipInteger w
    let w ← skipFraction w
    skipExponent w

/-- The rest of a text after byte order marks. -/
def skipMarks : Bytes → Bytes
  | 239 :: 187 :: 191 :: s => skipMarks s
  | s => s

/-! ## The dialect -/

variable {s s' t w : Bytes} {c : UInt8} {n codepoint codepoint₂ : ℕ}

theorem length_readHex (h : readHex s = some (n, s')) : s.length = s'.length + 4 := by
  match s, h with
  | a :: b :: c :: d :: s, h =>
    simp only [readHex, Option.bind_eq_bind, Option.bind_eq_some_iff] at h
    obtain ⟨_, _, _, _, _, _, _, _, h⟩ := h
    obtain ⟨-, rfl⟩ := Prod.mk.inj (Option.some.inj h)
    rfl

theorem length_utf8_le (h : utf8 codepoint = some t) : t.length ≤ 4 := by
  simp only [utf8] at h
  split_ifs at h <;> simp [← Option.some.inj h]

theorem length_toUnicode_le (h : toUnicode codepoint codepoint₂ = some t) : t.length ≤ 4 := by
  rw [toUnicode] at h
  split_ifs at h <;> exact length_utf8_le h

theorem length_readUnicode_le (h : readUnicode s = some (t, s')) :
    t.length + s'.length ≤ s.length := by
  obtain ⟨⟨codepoint, s₁⟩, h₁, h⟩ := Option.bind_eq_some_iff.mp h
  have hlength₁ := length_readHex h₁
  dsimp only at h
  split_ifs at h
  · split at h
    · obtain ⟨⟨codepoint₂, s₂⟩, h₂, h⟩ := Option.bind_eq_some_iff.mp h
      obtain ⟨t', ht, h⟩ := Option.bind_eq_some_iff.mp h
      obtain ⟨rfl, rfl⟩ : t' = t ∧ s₂ = s' := Prod.mk.inj (Option.some.inj h)
      have hlength₂ := length_readHex h₂
      have := length_toUnicode_le ht
      simp only [List.length_cons] at hlength₁
      omega
    · cases h
  · obtain ⟨t', ht, h⟩ := Option.bind_eq_some_iff.mp h
    obtain ⟨rfl, rfl⟩ := Prod.mk.inj (Option.some.inj h)
    have := length_toUnicode_le ht
    omega

theorem length_readEscape_le (h : readEscape s = some (t, s')) :
    t.length + s'.length ≤ s.length := by
  cases s with
  | nil => cases h
  | cons c s =>
    rw [readEscape] at h
    split_ifs at h
    · exact (length_readUnicode_le h).trans (Nat.le_succ _)
    · obtain ⟨b, -, h⟩ := Option.map_eq_some_iff.mp h
      obtain ⟨rfl, rfl⟩ := Prod.mk.inj h
      rw [List.length_singleton, List.length_cons, Nat.add_comm]

/-- What `get_string` returns is the text itself, or shorter. -/
theorem getString_cases (h : getString n s = some t) :
    (t = s ∧ s.all isOrdinary = true) ∨ (92 ∈ s ∧ t.length < s.length) := by
  induction n generalizing s t with
  | zero =>
    cases s with
    | nil => exact Or.inl ⟨(Option.some.inj h).symm, rfl⟩
    | cons c s => cases h
  | succ n ih =>
    cases s with
    | nil => exact Or.inl ⟨(Option.some.inj h).symm, rfl⟩
    | cons c s =>
      obtain ⟨⟨t₁, s₁⟩, h₁, h⟩ := Option.bind_eq_some_iff.mp h
      obtain ⟨t₂, h₂, h⟩ := Option.bind_eq_some_iff.mp h
      obtain rfl := Option.some.inj h
      have hrest := ih h₂
      have hlength : t₂.length ≤ s₁.length := by
        rcases hrest with ⟨rfl, -⟩ | ⟨-, hlt⟩
        · exact le_rfl
        · exact hlt.le
      rw [readChar] at h₁
      split_ifs at h₁ with hbackslash hordinary
      · -- an escape
        have hescape := length_readEscape_le h₁
        refine Or.inr ⟨List.mem_cons.mpr (Or.inl hbackslash.symm), ?_⟩
        rw [List.length_append, List.length_cons]
        omega
      · obtain ⟨rfl, rfl⟩ := Prod.mk.inj (Option.some.inj h₁)
        rcases hrest with ⟨rfl, hall⟩ | ⟨hmem, hlt⟩
        · exact Or.inl ⟨rfl, by rw [List.all_cons, hordinary, hall, Bool.and_true]⟩
        · exact Or.inr ⟨List.mem_cons_of_mem _ hmem, Nat.succ_lt_succ hlt⟩

theorem ne_backslash_of_isOrdinary (h : isOrdinary c = true) : c ≠ 92 := by
  rintro rfl
  cases h

theorem ne_quote_of_isOrdinary (h : isOrdinary c = true) : c ≠ 34 := by
  rintro rfl
  cases h

theorem getString_of_all (hs : s.all isOrdinary = true) (hn : s.length ≤ n) :
    getString n s = some s := by
  induction s generalizing n with
  | nil =>
    cases n with
    | zero => rfl
    | succ n => rfl
  | cons c s ih =>
    rw [List.all_cons, Bool.and_eq_true] at hs
    obtain ⟨n, rfl⟩ := Nat.exists_eq_succ_of_ne_zero (Nat.ne_zero_of_lt hn)
    have hrest : getString n s = some s := ih hs.2 (Nat.le_of_succ_le_succ hn)
    have hread : readChar c s = some ([c], s) := by
      rw [readChar, if_neg (ne_backslash_of_isOrdinary hs.1), if_pos hs.1]
    simp only [getString, hread, Option.bind_eq_bind, Option.bind_some, hrest,
      List.singleton_append]

theorem isOrdinary_of_isPlain (h : isPlain c = true) : isOrdinary c = true := by
  simp only [isPlain, isOrdinary, Bool.and_eq_true, decide_eq_true_eq] at h ⊢
  obtain ⟨⟨⟨hle, -⟩, hquote⟩, hbackslash⟩ := h
  have hlow : (16 : UInt8) ≤ 32 := by decide
  exact ⟨⟨UInt8.le_trans hlow hle, hquote⟩, hbackslash⟩

theorem skipMarks_of_ne (h : c ≠ 239) : skipMarks (c :: s) = c :: s := by
  rw [skipMarks]
  rintro s' hs'
  exact h (List.cons.inj hs').1

/-- The dialect of the library. -/
def vendored : Dialect where
  decode raw := getString raw.length raw
  scalar w := (skipScalar (skipMarks w)).any fun rest ↦ skipMarks rest = []
  blank w := skipMarks w = []
  length_decode raw s h := by
    rcases getString_cases h with ⟨rfl, -⟩ | ⟨-, hlt⟩
    · exact le_rfl
    · exact hlt.le
  decode_free raw h := by
    rcases getString_cases h with ⟨-, hall⟩ | ⟨-, hlt⟩
    · rw [List.all_eq_true] at hall
      exact ⟨fun hmem ↦ ne_quote_of_isOrdinary (hall _ hmem) rfl,
        fun hmem ↦ ne_backslash_of_isOrdinary (hall _ hmem) rfl⟩
    · exact absurd hlt (lt_irrefl _)
  decode_unescaped raw s _ hbackslash h := by
    rcases getString_cases h with ⟨rfl, -⟩ | ⟨hmem, -⟩
    · rfl
    · exact absurd hmem hbackslash
  decode_plain raw h := by
    refine getString_of_all (List.all_eq_true.mpr fun c hc ↦ ?_) le_rfl
    exact isOrdinary_of_isPlain (List.all_eq_true.mp h c hc)
  blank_plain w hne h := by
    obtain ⟨c, w, rfl⟩ := List.exists_cons_of_ne_nil hne
    have hc : c ≠ 239 := by
      rintro rfl
      cases h
    rw [skipMarks_of_ne hc]
    rfl

/-- A text needs no escapes when all of its characters are ordinary. -/
theorem vendored_unescaped_iff : vendored.Unescaped s ↔ s.all isOrdinary = true := by
  rw [Dialect.unescaped_iff]
  constructor
  · intro h
    rcases getString_cases h with ⟨-, hall⟩ | ⟨-, hlt⟩
    · exact hall
    · exact absurd hlt (lt_irrefl _)
  · intro h
    exact getString_of_all h le_rfl

end Text

end NetCache
