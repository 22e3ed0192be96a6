import NetCache.Server.Source

/-!
# Taking a message apart

`act_on_message` computes five positions, independently of each other, and cuts three substrings out
of the message.

## Ordered ranges

None of the positions is compared with another before it is used. A substring whose end comes before
its start makes the constructor of the string throw, so whether all three ranges are ordered decides
whether taking the message apart throws. `ranges_inRange_iff` answers it in terms of the message:
there is a space, and the slashes that are found are on the first line.

## The substrings

`parts_eq` says what the substrings are, for any message: the word before the first space, and the
two fields of the first line on either side of a slash, from the first slash behind that space on.
The `NUL` behind the message counts as part of its first line if no line break ends that line
before; a field that reaches to the end of the message has the `NUL` in it.

Without a slash the fields start at the beginning of the message, since the successor of `npos` is
`0`.

## The handlers

The last section combines both with what each handler can do, for any handle. Only `POST memsize`
can leave a handle to another cache, or to none.
-/

namespace NetCache

open Text

namespace Server

variable {message : Bytes}

/-! ## The first line

`end_of_line` is described as the length of a list, `firstLine`, which makes cutting at it a
matter of prefixes. Everything behind the first line break is out of reach of the fields, but not
of the search for slashes. -/

/-- A string without line breaks. -/
def SingleLine (s : Bytes) : Prop := 10 ∉ s ∧ 13 ∉ s

/-- A byte that ends a line. -/
def isLineBreak (c : UInt8) : Bool := c = 10 || c = 13

/-- The first line of a message. The `NUL` behind the message belongs to it if no line break ends
it before. -/
def firstLine (message : Bytes) : Bytes := (message ++ [0]).takeWhile fun c ↦ !isLineBreak c

theorem singleLine_nil : SingleLine [] := ⟨List.not_mem_nil, List.not_mem_nil⟩

theorem singleLine_cons {c : UInt8} :
    SingleLine (c :: message) ↔ isLineBreak c = false ∧ SingleLine message := by
  simp only [SingleLine, isLineBreak, List.mem_cons, not_or, Bool.or_eq_false_iff,
    decide_eq_false_iff_not]
  constructor
  · rintro ⟨⟨h₁, hmem₁⟩, h₂, hmem₂⟩
    exact ⟨⟨Ne.symm h₁, Ne.symm h₂⟩, hmem₁, hmem₂⟩
  · rintro ⟨⟨h₁, h₂⟩, hmem₁, hmem₂⟩
    exact ⟨⟨Ne.symm h₁, hmem₁⟩, Ne.symm h₂, hmem₂⟩

theorem SingleLine.append {s s' : Bytes} (h : SingleLine s) (h' : SingleLine s') :
    SingleLine (s ++ s') := by
  simp only [SingleLine, List.mem_append, not_or] at *
  exact ⟨⟨h.1, h'.1⟩, h.2, h'.2⟩

theorem SingleLine.mono {s s' : Bytes} (h : SingleLine s') (hs : s ⊆ s') : SingleLine s :=
  ⟨fun hmem ↦ h.1 (hs hmem), fun hmem ↦ h.2 (hs hmem)⟩

theorem firstLine_cons (c : UInt8) (message : Bytes) :
    firstLine (c :: message) = if isLineBreak c then [] else c :: firstLine message := by
  rw [firstLine, List.cons_append, List.takeWhile_cons]
  cases isLineBreak c <;> rfl

theorem endOfLine_cons (c : UInt8) (message : Bytes) :
    endOfLine (c :: message) = if isLineBreak c then 0 else endOfLine message + 1 := by
  have hfind : ∀ b : UInt8, (find (c :: message) b 0).getD (message.length + 1 + 1)
      = if c = b then 0 else (find message b 0).getD (message.length + 1) + 1 := by
    intro b
    simp only [find, List.drop_zero, List.findIdx?_cons]
    by_cases hcb : c = b
    · simp [hcb]
    · cases message.findIdx? (· = b) <;> simp [hcb]
  rw [endOfLine, endOfLine, List.length_cons, hfind, hfind]
  by_cases h₁ : c = 10
  · simp [h₁, isLineBreak]
  · by_cases h₂ : c = 13
    · simp [h₂, isLineBreak]
    · simp only [h₁, h₂, isLineBreak, if_false, decide_false, Bool.or_self, Bool.false_eq_true]
      omega

theorem length_firstLine (message : Bytes) : (firstLine message).length = endOfLine message := by
  induction message with
  | nil => rfl
  | cons c message ih =>
    rw [firstLine_cons, endOfLine_cons]
    split
    · rfl
    · rw [List.length_cons, ih]

theorem firstLine_isPrefix (message : Bytes) : firstLine message <+: message ++ [0] :=
  List.takeWhile_prefix _

theorem firstLine_append {s : Bytes} (h : SingleLine s) (message : Bytes) :
    firstLine (s ++ message) = s ++ firstLine message := by
  induction s with
  | nil => rfl
  | cons c s ih =>
    obtain ⟨hc, hs⟩ := singleLine_cons.mp h
    rw [List.cons_append, firstLine_cons, if_neg (by simp [hc]), ih hs, List.cons_append]

theorem firstLine_of_singleLine (h : SingleLine message) : firstLine message = message ++ [0] := by
  simpa [firstLine, isLineBreak] using firstLine_append h []

theorem endOfLine_le (message : Bytes) : endOfLine message ≤ message.length + 1 :=
  Nat.min_le_right _ _

/-- The first line reaches as far as there is no line break. -/
theorem le_endOfLine_iff {n : ℕ} (h : n ≤ message.length + 1) :
    n ≤ endOfLine message ↔ SingleLine (message.take n) := by
  induction message generalizing n with
  | nil => simpa [endOfLine, find, singleLine_nil] using h
  | cons c message ih =>
    cases n with
    | zero => simp [singleLine_nil]
    | succ n =>
      rw [endOfLine_cons, List.take_succ_cons, singleLine_cons]
      cases isLineBreak c with
      | true => simp
      | false => simpa using ih (Nat.le_of_succ_le_succ h)

/-! ## Positions -/

theorem find_eq_some {s : Bytes} {c : UInt8} {n i : ℕ} (h : find s c n = some i) :
    ∃ p q, s.drop n = p ++ c :: q ∧ c ∉ p ∧ i = n + p.length := by
  rw [find, Option.map_eq_some_iff] at h
  obtain ⟨j, hj, rfl⟩ := h
  obtain ⟨hlt, hc, hbefore⟩ := List.findIdx?_eq_some_iff_getElem.mp hj
  refine ⟨(s.drop n).take j, (s.drop n).drop (j + 1), ?_, ?_, ?_⟩
  · have hget : (s.drop n)[j] = c := by simpa using hc
    rw [← hget, List.cons_getElem_drop_succ, List.take_append_drop]
  · intro hmem
    obtain ⟨k, hk, hkc⟩ := List.mem_iff_getElem.mp hmem
    rw [List.getElem_take] at hkc
    rw [List.length_take, lt_min_iff] at hk
    exact absurd hkc (by simpa using hbefore k hk.1)
  · rw [List.length_take, Nat.min_eq_left hlt.le, Nat.add_comm]

theorem find_eq_none_iff {s : Bytes} {c : UInt8} {n : ℕ} : find s c n = none ↔ c ∉ s.drop n := by
  refine ⟨?_, find_eq_none⟩
  intro h hmem
  rw [find, Option.map_eq_none_iff, List.findIdx?_eq_none_iff] at h
  simpa using h c hmem

theorem lt_length_of_find {s : Bytes} {c : UInt8} {n i : ℕ} (h : find s c n = some i) :
    n ≤ i ∧ i < s.length := by
  obtain ⟨p, q, hs, -, rfl⟩ := find_eq_some h
  have hlen := congrArg List.length hs
  rw [List.length_drop, List.length_append, List.length_cons] at hlen
  omega

theorem getElem?_of_find {s : Bytes} {c : UInt8} {n i : ℕ} (h : find s c n = some i) :
    s[i]? = some c := by
  obtain ⟨p, q, hs, -, rfl⟩ := find_eq_some h
  rw [← List.getElem?_drop, hs]
  simp

/-- Where the key of a request starts: behind the first slash that follows the first space. -/
def keyStart (message : Bytes) : ℕ := afterPos (find message 47 (afterPos (find message 32 0)))

theorem keyStart_le (message : Bytes) : keyStart message ≤ message.length := by
  rw [keyStart]
  cases h : find message 47 (afterPos (find message 32 0)) with
  | none => exact Nat.zero_le _
  | some i => exact (lt_length_of_find h).2

/-! ## Ordered ranges -/

/-- The ranges `act_on_message` builds its substrings from, the third only when there is a second
slash; an end that is `none` is `begin + npos`. -/
def ranges (message : Bytes) : List (ℕ × Option ℕ) :=
  let firstSpace := find message 32 0
  let firstSlash := find message 47 (afterPos firstSpace)
  let secondSlash := find message 47 (afterPos firstSlash)
  (0, firstSpace) ::
    (afterPos firstSlash,
      some (min (secondSlash.getD (endOfLine message)) (endOfLine message))) ::
    secondSlash.toList.map fun i ↦ (i + 1, some (endOfLine message))

/-- The range is ordered, and ends at the latest behind the `NUL` that follows the message. -/
def InRange (message : Bytes) (range : ℕ × Option ℕ) : Prop :=
  ∃ last, range.2 = some last ∧ range.1 ≤ last ∧ last ≤ message.length + 1

/-- There is a space, and no line break comes before the slashes the message is cut at. -/
def WellOrdered (message : Bytes) : Prop :=
  32 ∈ message ∧ ∀ i, find message 47 (afterPos (find message 32 0)) = some i ∨
    find message 47 (keyStart message) = some i → SingleLine (message.take i)

theorem slash_lt_endOfLine_iff {n i : ℕ} (h : find message 47 n = some i) :
    i + 1 ≤ endOfLine message ↔ SingleLine (message.take i) := by
  have hlt := (lt_length_of_find h).2
  rw [le_endOfLine_iff (by omega), List.take_add_one, getElem?_of_find h, Option.toList_some]
  constructor
  · rintro ⟨h₁, h₂⟩
    exact ⟨fun hmem ↦ h₁ (List.mem_append_left _ hmem),
      fun hmem ↦ h₂ (List.mem_append_left _ hmem)⟩
  · intro hline
    exact hline.append ⟨by decide, by decide⟩

/-! ## The substrings

A field is what is left of the first line behind a position, up to a slash. If the slash it is
cut at lies behind the first line, the range is not ordered, and the equations answer `none`. -/

theorem firstLine_eq_take (message : Bytes) :
    firstLine message = (message ++ [0]).take (endOfLine message) := by
  rw [← length_firstLine]
  exact List.prefix_iff_eq_take.mp (firstLine_isPrefix message)

theorem drop_firstLine {a : ℕ} (ha : a ≤ message.length) :
    (firstLine message).drop a = (message.drop a ++ [0]).take (endOfLine message - a) := by
  rw [firstLine_eq_take, List.drop_take, List.drop_append_of_le_length ha]

theorem substring_firstLine {first last : ℕ} (h : first ≤ last) (hlast : last ≤ endOfLine message) :
    substring message first last = some (((firstLine message).drop first).take (last - first)) := by
  rw [substring, if_pos h, firstLine_eq_take, List.drop_take, List.take_take,
    Nat.min_eq_left (by omega)]

theorem firstLine_split {a i : ℕ} (hi : find message 47 a = some i)
    (hline : i < endOfLine message) : ∃ p, 47 ∉ p ∧ i = a + p.length ∧
      (firstLine message).drop a = p ++ 47 :: (firstLine message).drop (i + 1) := by
  have hlt := lt_length_of_find hi
  obtain ⟨p, q, hdrop, hp, rfl⟩ := find_eq_some hi
  have hq : message.drop (a + p.length + 1) = q := by
    rw [Nat.add_assoc, ← List.drop_drop, hdrop]
    simp
  refine ⟨p, hp, rfl, ?_⟩
  obtain ⟨n, hn⟩ : ∃ n, endOfLine message - a = p.length + (n + 1) :=
    ⟨endOfLine message - a - p.length - 1, by omega⟩
  have hn' : endOfLine message - (a + p.length + 1) = n := by omega
  rw [drop_firstLine (by omega), drop_firstLine (by omega), hdrop, hq, hn, hn', List.append_assoc,
    List.take_length_add_append, List.cons_append, List.take_succ_cons]

theorem firstLine_noSlash {a : ℕ} (ha : a ≤ message.length)
    (h : ∀ i, find message 47 a = some i → endOfLine message ≤ i) :
    47 ∉ (firstLine message).drop a := by
  rw [drop_firstLine ha]
  cases hfind : find message 47 a with
  | none =>
    intro hmem
    rcases List.mem_append.mp (List.mem_of_mem_take hmem) with hmem | hmem
    · exact find_eq_none_iff.mp hfind hmem
    · exact absurd hmem (by decide)
  | some i =>
    have hline := h i hfind
    obtain ⟨p, q, hdrop, hp, rfl⟩ := find_eq_some hfind
    rw [hdrop, List.append_assoc, List.take_append_of_le_length (by omega)]
    exact fun hmem ↦ hp (List.mem_of_mem_take hmem)

theorem takeWhile_append_slash {p q : Bytes} (hp : 47 ∉ p) :
    (p ++ 47 :: q).takeWhile (· ≠ 47) = p ∧ ((p ++ 47 :: q).dropWhile (· ≠ 47)).tail = q := by
  have hne : ∀ c ∈ p, decide (c ≠ 47) = true := by
    intro c hc
    exact decide_eq_true fun h ↦ hp (h ▸ hc)
  rw [List.takeWhile_append_of_pos hne, List.dropWhile_append_of_pos hne]
  simp

theorem takeWhile_noSlash {p : Bytes} (hp : 47 ∉ p) :
    p.takeWhile (· ≠ 47) = p ∧ (p.dropWhile (· ≠ 47)).tail = [] := by
  have hne : ∀ c ∈ p, decide (c ≠ 47) = true := by
    intro c hc
    exact decide_eq_true fun h ↦ hp (h ▸ hc)
  rw [List.takeWhile_eq_self_iff.mpr hne, List.dropWhile_eq_nil_iff.mpr hne, List.tail_nil]
  exact ⟨rfl, rfl⟩

/-- What the first line holds from the start of the key on. -/
def body (message : Bytes) : Bytes := (firstLine message).drop (keyStart message)

theorem singleLine_body (message : Bytes) : SingleLine (body message) := by
  have hline : ∀ b ∈ body message, isLineBreak b = false := by
    intro b hb
    simpa using List.mem_takeWhile_imp (List.mem_of_mem_drop hb)
  constructor
  · exact fun hmem ↦ absurd (hline 10 hmem) (by decide)
  · exact fun hmem ↦ absurd (hline 13 hmem) (by decide)

theorem length_body_le (h : body message ≠ []) :
    keyStart message + (body message).length ≤ message.length + 1 := by
  have hpos := List.length_pos_iff.mpr h
  have hend := endOfLine_le message
  rw [body, List.length_drop, length_firstLine] at *
  omega

/-- The text up to the first slash. -/
def firstField (s : Bytes) : Bytes := s.takeWhile (· ≠ 47)

/-- The text behind the first slash. -/
def secondField (s : Bytes) : Bytes := (s.dropWhile (· ≠ 47)).tail

theorem firstField_of_notMem {s : Bytes} (h : 47 ∉ s) : firstField s = s := (takeWhile_noSlash h).1

theorem firstField_append_of_mem {s : Bytes} (h : 47 ∈ s) (t : Bytes) :
    firstField (s ++ t) = firstField s := by
  obtain ⟨p, q, rfl, hp⟩ := List.eq_append_cons_of_mem h
  rw [firstField, firstField, List.append_assoc, List.cons_append, (takeWhile_append_slash hp).1,
    (takeWhile_append_slash hp).1]

theorem substring_eq_none {first last : ℕ} (h : ¬ first ≤ last) :
    substring message first last = none := if_neg h

theorem substring_body (h : keyStart message ≤ endOfLine message) :
    substring message (keyStart message) (endOfLine message) = some (body message) := by
  rw [substring_firstLine h le_rfl, body, List.take_of_length_le]
  rw [List.length_drop, length_firstLine]

/-- **The substrings of a message**: the word before the first space, and the fields of its body.
Something is thrown when there is no space, or when a line break comes before a slash. -/
theorem parts_eq (message : Bytes) : parts message = (find message 32 0).bind fun i ↦
    if keyStart message ≤ endOfLine message ∧
        (47 ∈ message.drop (keyStart message) → 47 ∈ body message) then
      some ⟨message.take i, firstField (body message), secondField (body message)⟩
    else none := by
  have hstart := keyStart_le message
  rw [parts]
  cases hspace : find message 32 0 with
  | none => rfl
  | some i =>
    have hi := (lt_length_of_find hspace).2
    have hword : substring message 0 i = some (message.take i) := by
      rw [substring, if_pos (Nat.zero_le i), List.drop_zero, Nat.sub_zero,
        List.take_append_of_le_length hi.le]
    have hkey : afterPos (find message 47 (afterPos (some i))) = keyStart message := by
      rw [keyStart, hspace]
    simp only [Option.bind_some, hword, hkey, Option.bind_eq_bind]
    cases hsecond : find message 47 (keyStart message) with
    | none =>
      have hslash : 47 ∉ body message := firstLine_noSlash hstart (by simp [hsecond])
      rw [Option.getD_none, Nat.min_self, firstField, secondField, (takeWhile_noSlash hslash).1,
        (takeWhile_noSlash hslash).2]
      by_cases hline : keyStart message ≤ endOfLine message
      · rw [substring_body hline, Option.bind_some, if_pos ⟨hline, fun hmem ↦
          absurd hmem (find_eq_none_iff.mp hsecond)⟩]
      · rw [substring_eq_none hline, Option.bind_none, if_neg fun h ↦ hline h.1]
    | some j =>
      have hmem : 47 ∈ message.drop (keyStart message) := by
        rw [← not_not (a := 47 ∈ _), ← find_eq_none_iff, hsecond]
        simp
      simp only [Option.getD_some]
      rcases Nat.lt_or_ge j (endOfLine message) with hline | hline
      · obtain ⟨p, hp, hj, hbody⟩ := firstLine_split hsecond hline
        replace hbody : body message = p ++ 47 :: (firstLine message).drop (j + 1) := hbody
        have hinfo : substring message (keyStart message) j = some p := by
          rw [substring_firstLine (by omega) hline.le, ← body, hbody, hj, Nat.add_sub_cancel_left,
            List.take_left]
        have hinfo₂ : substring message (j + 1) (endOfLine message)
            = some ((firstLine message).drop (j + 1)) := by
          rw [substring_firstLine hline le_rfl, List.take_of_length_le]
          rw [List.length_drop, length_firstLine]
        rw [Nat.min_eq_left hline.le, hinfo, Option.bind_some, hinfo₂, Option.bind_some, if_pos]
        · rw [firstField, secondField, hbody, (takeWhile_append_slash hp).1,
            (takeWhile_append_slash hp).2]
        · exact ⟨by omega, fun _ ↦ by simp [hbody]⟩
      · -- the second slash is on a later line, so the range of the text is not ordered
        have hslash : 47 ∉ body message := firstLine_noSlash hstart (by simp [hsecond, hline])
        have hinfo₂ : substring message (j + 1) (endOfLine message) = none :=
          substring_eq_none (by omega)
        simp only [hinfo₂, Option.bind_none, Option.bind_fun_none]
        exact (if_neg fun h ↦ hslash (h.2 hmem)).symm

/-- The text of a message: what is behind the second slash, up to the end of the first line. -/
def text (message : Bytes) : Bytes :=
  match find message 47 (keyStart message) with
  | none => []
  | some i => (firstLine message).drop (i + 1)

theorem secondField_body (message : Bytes) : secondField (body message) = text message := by
  have hstart := keyStart_le message
  rw [text]
  cases hsecond : find message 47 (keyStart message) with
  | none =>
    have hslash : 47 ∉ body message := firstLine_noSlash hstart (by simp [hsecond])
    exact (takeWhile_noSlash hslash).2
  | some i =>
    rcases Nat.lt_or_ge i (endOfLine message) with hline | hline
    · obtain ⟨p, hp, -, hbody⟩ := firstLine_split hsecond hline
      replace hbody : body message = p ++ 47 :: (firstLine message).drop (i + 1) := hbody
      rw [secondField, hbody, (takeWhile_append_slash hp).2]
    · have hslash : 47 ∉ body message := firstLine_noSlash hstart (by simp [hsecond, hline])
      have hdrop : (firstLine message).drop (i + 1) = [] := by
        rw [List.drop_eq_nil_iff, length_firstLine]
        omega
      exact (takeWhile_noSlash hslash).2.trans hdrop.symm

theorem parts_eq_some {fword info1 info2 : Bytes} (h : parts message = some ⟨fword, info1, info2⟩) :
    (∃ i, find message 32 0 = some i ∧ fword = message.take i) ∧
      info1 = firstField (body message) ∧ info2 = text message := by
  rw [parts_eq] at h
  obtain ⟨i, hi, h⟩ := Option.bind_eq_some_iff.mp h
  split_ifs at h
  obtain ⟨hfword, hinfo1, hinfo2⟩ := Parts.mk.inj (Option.some.inj h)
  exact ⟨⟨i, hi, hfword.symm⟩, hinfo1.symm, hinfo2.symm.trans (secondField_body message)⟩

theorem wellOrdered_iff : WellOrdered message ↔
    32 ∈ message ∧ keyStart message ≤ endOfLine message ∧
      ∀ i, find message 47 (keyStart message) = some i → i + 1 ≤ endOfLine message := by
  rw [WellOrdered]
  refine and_congr_right fun _ ↦ ?_
  constructor
  · intro h
    refine ⟨?_, fun i hi ↦ (slash_lt_endOfLine_iff hi).mpr (h i (Or.inr hi))⟩
    cases hslash : find message 47 (afterPos (find message 32 0)) with
    | none =>
      rw [keyStart, hslash]
      exact Nat.zero_le _
    | some i =>
      rw [keyStart, hslash]
      exact (slash_lt_endOfLine_iff hslash).mpr (h i (Or.inl hslash))
  · rintro ⟨hstart, hsecond⟩ i (hi | hi)
    · rw [keyStart, hi] at hstart
      exact (slash_lt_endOfLine_iff hi).mp hstart
    · exact (slash_lt_endOfLine_iff hi).mp (hsecond i hi)

theorem exists_space_iff : (∃ i, find message 32 0 = some i) ↔ 32 ∈ message := by
  rw [← Option.ne_none_iff_exists', Ne, find_eq_none_iff, List.drop_zero, not_not]

/-- The message is cut into its substrings exactly when the ranges are ordered. -/
theorem parts_isSome_iff : (parts message).isSome ↔ WellOrdered message := by
  rw [parts_eq, wellOrdered_iff, ← exists_space_iff]
  cases hspace : find message 32 0 with
  | none => simp
  | some i =>
    have hbody : (47 ∈ message.drop (keyStart message) → 47 ∈ body message) ↔
        ∀ i, find message 47 (keyStart message) = some i → i + 1 ≤ endOfLine message := by
      constructor
      · intro h j hj
        by_contra hline
        refine firstLine_noSlash (keyStart_le message) ?_ (h ?_)
        · intro k hk
          obtain rfl := Option.some.inj (hj.symm.trans hk)
          omega
        · by_contra hnotin
          simp [find_eq_none_iff.mpr hnotin] at hj
      · intro h hmem
        obtain ⟨j, hj⟩ : ∃ j, find message 47 (keyStart message) = some j := by
          rwa [← Option.ne_none_iff_exists', Ne, find_eq_none_iff, not_not]
        obtain ⟨p, -, -, hbody⟩ := firstLine_split hj (h j hj)
        rw [body, hbody]
        simp
    rw [Option.bind_some, ← hbody]
    split <;> simp_all

theorem forall_inRange_iff :
    (∀ range ∈ ranges message, InRange message range) ↔ WellOrdered message := by
  have hend := endOfLine_le message
  rw [wellOrdered_iff, ← exists_space_iff, ranges, List.forall_mem_cons, List.forall_mem_cons]
  refine and_congr ?_ (and_congr ?_ ?_)
  · constructor
    · rintro ⟨i, hi, -⟩
      exact ⟨i, hi⟩
    · rintro ⟨i, hi⟩
      have hlt := lt_length_of_find hi
      exact ⟨i, hi, Nat.zero_le i, by omega⟩
  · -- the second slash is not before the start of the key
    have hsecond : keyStart message ≤ endOfLine message →
        keyStart message ≤ (find message 47 (keyStart message)).getD (endOfLine message) := by
      intro h
      cases hslash : find message 47 (keyStart message) with
      | none => exact h
      | some i => exact (lt_length_of_find hslash).1
    constructor
    · rintro ⟨last, hlast, hle, -⟩
      obtain rfl := Option.some.inj hlast
      exact hle.trans (Nat.min_le_right _ _)
    · intro h
      exact ⟨_, rfl, le_min (hsecond h) h, (Nat.min_le_right _ _).trans hend⟩
  · change (∀ range ∈ (find message 47 (keyStart message)).toList.map _, _) ↔ _
    simp only [List.forall_mem_map, Option.mem_toList, InRange]
    constructor
    · intro h i hi
      obtain ⟨last, hlast, hle, -⟩ := h i hi
      obtain rfl := Option.some.inj hlast
      exact hle
    · intro h i hi
      exact ⟨_, rfl, h i hi, hend⟩

/-! ## What a handler can do -/

variable {port : Option CacheObj} {key value postType extraInfo : Bytes} {handled : Handled}

theorem exists_of_get (h : get port key = some handled) :
    ∃ cache reply, handled = ⟨some cache, .ok reply⟩ := by
  simp only [get, Option.bind_eq_bind, Option.bind_eq_some_iff] at h
  obtain ⟨cache, -, ⟨cache', v, n⟩, -, h⟩ := h
  cases v with
  | none => exact ⟨_, _, (Option.some.inj h).symm⟩
  | some v =>
    obtain ⟨value, -, h⟩ := Option.bind_eq_some_iff.mp h
    obtain ⟨output, -, h⟩ := Option.bind_eq_some_iff.mp h
    exact ⟨_, _, (Option.some.inj h).symm⟩

theorem exists_of_put (h : put port key value = some handled) :
    ∃ cache, handled = ⟨some cache, .ok none⟩ := by
  simp only [put, Option.bind_eq_bind, Option.bind_eq_some_iff] at h
  obtain ⟨cache, -, cache', -, h⟩ := h
  exact ⟨cache', (Option.some.inj h).symm⟩

theorem exists_of_delete (h : delete_ port key = some handled) :
    ∃ cache, handled = ⟨some cache, .ok none⟩ := by
  simp only [delete_, Option.bind_eq_bind, Option.bind_eq_some_iff] at h
  obtain ⟨cache, -, cache', -, h⟩ := h
  exact ⟨cache', (Option.some.inj h).symm⟩

/-- A `POST memsize` whose number cannot be read, while no space is used. -/
def ResizeFails (port : Option CacheObj) (postType extraInfo : Bytes) : Prop :=
  ∃ cache e, port = some cache ∧ strip postType = some (ascii "memsize") ∧
    cache.cacheSpaceUsed = 0 ∧ stoll extraInfo = .error e

theorem post_memsize (hmemsize : strip postType = some (ascii "memsize")) (port : Option CacheObj)
    (extraInfo : Bytes) : post port postType extraInfo = (do
      let cache ← port
      if cache.cacheSpaceUsed = 0 then
        let (links, keys, infos) ← cache.destroyCache
        match stoll extraInfo with
        | .ok n => some ⟨some (CacheObj.createCacheIn links keys infos (UInt64.ofInt n) none),
            .ok none⟩
        | .error e => some ⟨none, .error (.conversion e)⟩
      else some ⟨some cache, .ok (some errorText)⟩) := by
  have hshutdown : ascii "memsize" ≠ ascii "shutdown" := by decide
  rw [post, hmemsize]
  exact (if_neg hshutdown).trans (if_pos rfl)

/-- What `post` can do: return with a cache, throw and leave the handle alone, or lose the cache. -/
theorem post_cases (h : post port postType extraInfo = some handled) :
    (∃ cache reply, handled = ⟨some cache, .ok reply⟩) ∨
      (∃ e, e ≠ Thrown.lengthError ∧ handled = ⟨port, .error e⟩) ∨
      ∃ e, ResizeFails port postType extraInfo ∧ handled = ⟨none, .error (.conversion e)⟩ := by
  rw [post] at h
  cases hstrip : strip postType with
  | none =>
    rw [hstrip] at h
    exact Or.inr (Or.inl ⟨_, by simp, (Option.some.inj h).symm⟩)
  | some type =>
    rw [hstrip] at h
    simp only at h
    split_ifs at h with hshutdown hmemsize
    · exact Or.inr (Or.inl ⟨_, by simp, (Option.some.inj h).symm⟩)
    · simp only [Option.bind_eq_bind, Option.bind_eq_some_iff] at h
      obtain ⟨cache, rfl, h⟩ := h
      split_ifs at h with hused
      · obtain ⟨_, -, h⟩ := Option.bind_eq_some_iff.mp h
        cases hnum : stoll extraInfo with
        | ok n =>
          rw [hnum] at h
          exact Or.inl ⟨_, _, (Option.some.inj h).symm⟩
        | error e =>
          rw [hnum] at h
          exact Or.inr (Or.inr ⟨e, ⟨cache, e, rfl, by rw [hstrip, hmemsize], hused, hnum⟩,
            (Option.some.inj h).symm⟩)
      · exact Or.inl ⟨_, _, (Option.some.inj h).symm⟩
    · exact Or.inr (Or.inl ⟨_, by simp, (Option.some.inj h).symm⟩)

/-- What a message can do. A handle is never replaced when something is thrown, other than by a
`POST memsize` that fails. -/
theorem actOnMessage_cases {message : Bytes} (h : actOnMessage port message = some handled) :
    (∃ cache reply, handled = ⟨some cache, .ok reply⟩) ∨ handled = ⟨port, .ok none⟩ ∨
      (∃ e, (e = Thrown.lengthError → parts message = none) ∧ handled = ⟨port, .error e⟩) ∨
      ∃ info1 info2 e, parts message = some ⟨ascii "POST", info1, info2⟩ ∧
        ResizeFails port info1 info2 ∧ handled = ⟨none, .error (.conversion e)⟩ := by
  rw [actOnMessage] at h
  cases hparts : parts message with
  | none =>
    rw [hparts] at h
    exact Or.inr (Or.inr (Or.inl ⟨_, fun _ ↦ rfl, (Option.some.inj h).symm⟩))
  | some p =>
    obtain ⟨fword, info1, info2⟩ := p
    rw [hparts] at h
    simp only at h
    split_ifs at h with hget hput hdelete hhead hpost
    · exact Or.inl (exists_of_get h)
    · obtain ⟨cache, hcache⟩ := exists_of_put h
      exact Or.inl ⟨cache, _, hcache⟩
    · obtain ⟨cache, hcache⟩ := exists_of_delete h
      exact Or.inl ⟨cache, _, hcache⟩
    · exact Or.inr (Or.inl (Option.some.inj h).symm)
    · rcases post_cases h with hok | ⟨e, he, hthrow⟩ | ⟨e, hfails, hlost⟩
      · exact Or.inl hok
      · exact Or.inr (Or.inr (Or.inl ⟨e, fun heq ↦ absurd heq he, hthrow⟩))
      · exact Or.inr (Or.inr (Or.inr ⟨info1, info2, e, by rw [hpost], hfails, hlost⟩))
    · exact Or.inr (Or.inr (Or.inl ⟨_, by simp, (Option.some.inj h).symm⟩))

/-- **The ranges of the substrings are ordered** and stay inside the message exactly when there is a
space and no line break comes before the slashes; otherwise the message is not dispatched, and what
is thrown is not the exception for a bad message. -/
theorem ranges_inRange_iff (message : Bytes) :
    ((∀ range ∈ ranges message, InRange message range) ∧
      ∀ port handled, actOnMessage port message = some handled →
        handled.outcome ≠ .error .lengthError) ↔ WellOrdered message := by
  rw [forall_inRange_iff]
  refine and_iff_left_of_imp ?_
  intro h port handled hact
  have hsome := parts_isSome_iff.mpr h
  rcases actOnMessage_cases hact with
    ⟨cache, reply, rfl⟩ | rfl | ⟨e, he, rfl⟩ | ⟨_, _, e, -, -, rfl⟩
  · simp
  · simp
  · intro heq
    rw [he (Except.error.inj heq)] at hsome
    exact absurd hsome (by simp)
  · simp

/-- A word alone makes the first range end before its beginning. -/
theorem ranges_unordered :
    (¬ ∀ range ∈ ranges (ascii "GET"), InRange (ascii "GET") range) ∧
      ∀ port, actOnMessage port (ascii "GET") = some ⟨port, .error .lengthError⟩ := by
  constructor
  · rw [forall_inRange_iff, WellOrdered]
    intro h
    exact absurd h.1 (by decide)
  · intro port
    rfl

end Server

end NetCache
