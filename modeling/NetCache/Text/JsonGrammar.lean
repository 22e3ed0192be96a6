import NetCache.Text.Json

/-!
# Reading JSON texts

The grammar of JSON as two machines: a scanner that cuts a text into tokens, and a reader that keeps
the open brackets and what may come next. Of the value that is read only the members of an outermost
object are kept. A library follows a dialect when it accepts the same texts and shows the same
members.

## Dialects

What the text between two quotes stands for, and which words are numbers or literals, is left to a
dialect, since libraries differ there. What is common to them is part of the structure: decoding a
string never lengthens it, since an escape takes more room in the text than what it stands for; a
quote and a backslash never stand for themselves; and plain characters are accepted as they are.

## What a key and a value can do to a reply

A reply is a template with a key and a value inserted between quotes, without escaping. If one of
them contains a quote, the text that the reader sees has other tokens than the template, and might
by accident be a text with the two intended members. It never is:

* A member that is read comes from its name, a colon and its string, one after the other
  (`exists_member`).
* A text between quotes either reaches the scanner whole, or is cut into strictly shorter strings
  (`scan_cases`).

So if both the key and the value are shown as they were inserted, both were scanned whole, and both
stand for themselves.
-/

namespace NetCache

namespace Text

/-! ## Tokens -/

/-- The tokens of a text. -/
inductive Token
  /-- A bracket, a colon or a comma. -/
  | punct (c : UInt8)
  /-- What stands between two quotes. -/
  | str (raw : Bytes)
  /-- A number or a literal, or what is to be one. -/
  | word (w : Bytes)
  deriving DecidableEq

/-- The characters that are tokens by themselves. -/
def isPunct (c : UInt8) : Bool := c = 123 || c = 125 || c = 91 || c = 93 || c = 58 || c = 44

/-- Where the scanner is. -/
inductive Mode
  /-- Between tokens. -/
  | out
  /-- In a word. -/
  | word (w : Bytes)
  /-- In a string. -/
  | str (raw : Bytes)
  /-- In a string, behind a backslash. -/
  | esc (raw : Bytes)
  deriving DecidableEq

namespace Mode

/-- The mode after a character that is not part of the token before. -/
def start (c : UInt8) : Mode :=
  if c = 34 then .str [] else if isJsonSpace c || isPunct c then .out else .word [c]

/-- The mode after a character. -/
def next : Mode → UInt8 → Mode
  | .out, c => .start c
  | .word w, c => if c = 34 || isJsonSpace c || isPunct c then .start c else .word (w ++ [c])
  | .str raw, c => if c = 34 then .out else if c = 92 then .esc (raw ++ [c]) else .str (raw ++ [c])
  | .esc raw, c => .str (raw ++ [c])

/-- The tokens that a character ends. -/
def emit : Mode → UInt8 → List Token
  | .out, c => if isPunct c then [.punct c] else []
  | .word w, c =>
    if isPunct c then [.word w, .punct c] else if c = 34 || isJsonSpace c then [.word w] else []
  | .str raw, c => if c = 34 then [.str raw] else []
  | .esc _, _ => []

/-- The tokens that the end of the text ends; a string has to be closed. -/
def finish : Mode → Option (List Token)
  | .out => some []
  | .word w => some [.word w]
  | .str _ => none
  | .esc _ => none

/-- The length of the string that is read. -/
def content : Mode → ℕ
  | .out => 0
  | .word _ => 0
  | .str raw => raw.length
  | .esc raw => raw.length

end Mode

/-- The tokens of a part of a text, and the mode behind it. -/
def scan : Mode → Bytes → List Token × Mode
  | m, [] => ([], m)
  | m, c :: s => (m.emit c ++ (scan (m.next c) s).1, (scan (m.next c) s).2)

/-- The tokens of a text. -/
def tokens (text : Bytes) : Option (List Token) :=
  (scan .out text).2.finish.map ((scan .out text).1 ++ ·)

/-! ## Reading -/

/-- What a library makes of strings and words. -/
structure Dialect where
  /-- What the text between two quotes stands for, `none` if it is not accepted. -/
  decode : Bytes → Option Bytes
  /-- Whether a word is a number or a literal. -/
  scalar : Bytes → Bool
  /-- Whether a word is skipped, like a byte order mark. -/
  blank : Bytes → Bool
  /-- An escape is at least as long as what it stands for. -/
  length_decode : ∀ raw s, decode raw = some s → s.length ≤ raw.length
  /-- A quote and a backslash do not stand for themselves. -/
  decode_free : ∀ raw, decode raw = some raw → 34 ∉ raw ∧ 92 ∉ raw
  /-- Without them there are no escapes. -/
  decode_unescaped : ∀ raw s, 34 ∉ raw → 92 ∉ raw → decode raw = some s → s = raw
  /-- Plain characters are accepted. -/
  decode_plain : ∀ raw, raw.all isPlain = true → decode raw = some raw
  /-- And they are not skipped. -/
  blank_plain : ∀ w, w ≠ [] → w.all isPlain = true → blank w = false

/-- A text that needs no escapes: there are no quotes and backslashes in it, and the library accepts
it as a string. -/
def Dialect.Unescaped (D : Dialect) (raw : Bytes) : Prop :=
  34 ∉ raw ∧ 92 ∉ raw ∧ (D.decode raw).isSome = true

/-- Whether a token is read. -/
def Dialect.reads (D : Dialect) : Token → Bool
  | .punct _ => true
  | .str _ => true
  | .word w => !D.blank w

/-- An open bracket. -/
inductive Frame
  /-- `{` -/
  | object
  /-- `[` -/
  | array
  deriving DecidableEq

/-- What may come next. -/
inductive Expect
  /-- A value. -/
  | value
  /-- A value, or the end of an array without elements. -/
  | element
  /-- The name of a member. -/
  | name
  /-- The name of a member, or the end of an object without members. -/
  | member
  /-- The colon behind a name. -/
  | colon (name : Bytes)
  /-- The value of a member. -/
  | memberValue (name : Bytes)
  /-- What follows a value. -/
  | next
  deriving DecidableEq

/-- The state of the reader. -/
structure Reader where
  /-- The open brackets, innermost first. -/
  frames : List Frame
  /-- What may come next. -/
  expect : Expect
  /-- The members of the outermost object, with their strings if they have one. -/
  members : List (Bytes × Option Bytes)

namespace Reader

/-- The reader before the first token. -/
def start : Reader := ⟨[], .value, []⟩

variable (r : Reader)

/-- A value may come. -/
def takesValue : Bool :=
  match r.expect with
  | .value | .element | .memberValue _ => true
  | _ => false

/-- The members, with that of a value that comes. -/
def note (s : Option Bytes) : List (Bytes × Option Bytes) :=
  match r.expect, r.frames with
  | .memberValue name, [.object] => r.members ++ [(name, s)]
  | _, _ => r.members

/-- A bracket is opened. -/
def openFrame (f : Frame) (expect : Expect) : Option Reader :=
  if r.takesValue then some ⟨f :: r.frames, expect, r.note none⟩ else none

/-- The innermost bracket is closed. -/
def closeFrame (f : Frame) (expect : Expect) : Option Reader :=
  match r.frames with
  | [] => none
  | f' :: frames =>
    if f' = f ∧ (r.expect = .next ∨ r.expect = expect) then some ⟨frames, .next, r.members⟩
    else none

/-- A colon. -/
def readColon : Option Reader :=
  match r.expect with
  | .colon name => some ⟨r.frames, .memberValue name, r.members⟩
  | _ => none

/-- A comma. -/
def readComma : Option Reader :=
  match r.expect, r.frames with
  | .next, .object :: _ => some ⟨r.frames, .name, r.members⟩
  | .next, .array :: _ => some ⟨r.frames, .value, r.members⟩
  | _, _ => none

/-- A string, as a value or as a name. -/
def readString (D : Dialect) (raw : Bytes) : Option Reader := do
  let s ← D.decode raw
  if r.takesValue then some ⟨r.frames, .next, r.note (some s)⟩
  else if r.expect = .name ∨ r.expect = .member then some ⟨r.frames, .colon s, r.members⟩
  else none

/-- One token. -/
def step (D : Dialect) : Token → Option Reader
  | .punct c =>
    if c = 123 then r.openFrame .object .member
    else if c = 125 then r.closeFrame .object .member
    else if c = 91 then r.openFrame .array .element
    else if c = 93 then r.closeFrame .array .element
    else if c = 58 then r.readColon
    else if c = 44 then r.readComma
    else none
  | .str raw => r.readString D raw
  | .word w => if r.takesValue && D.scalar w then some ⟨r.frames, .next, r.note none⟩ else none

/-- A row of tokens. -/
def steps (D : Dialect) (r : Reader) (ts : List Token) : Option Reader :=
  ts.foldlM (fun r t ↦ r.step D t) r

end Reader

/-- The members of the text's outermost object, `none` if it is not a JSON text; a value of another
kind has no members. -/
def Dialect.read (D : Dialect) (text : Bytes) : Option (List (Bytes × Option Bytes)) := do
  let ts ← tokens text
  let r ← Reader.start.steps D (ts.filter D.reads)
  if r.frames = [] ∧ r.expect = .next then some r.members else none

/-- The strings that the library shows are those of members, and it shows all of them if no two
members have the same name. -/
structure JsonLib.Shows (lib : JsonLib) (j : lib.Json) (members : List (Bytes × Option Bytes)) :
    Prop where
  /-- A string that is shown is that of a member. -/
  sound : ∀ name s, (lib.index j name).bind lib.string = some s → (name, some s) ∈ members
  /-- The string of a member is shown. -/
  complete : (Lru.keys members).Nodup → ∀ name s, (name, some s) ∈ members →
    (lib.index j name).bind lib.string = some s

/-- A library follows the grammar in a dialect. -/
def JsonLib.Follows (lib : JsonLib) (D : Dialect) : Prop :=
  ∀ text, 0 ∉ text →
    match D.read text with
    | none => lib.parse text = none
    | some members => ∃ j, lib.parse text = some j ∧ lib.Shows j members

/-! ## Scanning

`weight` is the room that the strings of a list of tokens take, each with its closing quote.
Scanning a text yields no more weight than it has bytes, from which the case distinction of
`scan_cases` follows: what is cut at a quote has lost that quote. -/

variable {D : Dialect} {m m' : Mode} {s t raw name : Bytes} {ts ts' : List Token} {r r' : Reader}

@[simp] theorem Dialect.reads_punct (c : UInt8) : D.reads (.punct c) = true := rfl

@[simp] theorem Dialect.reads_str (raw : Bytes) : D.reads (.str raw) = true := rfl

@[simp] theorem Dialect.reads_word (w : Bytes) : D.reads (.word w) = !D.blank w := rfl

/-- A text needs no escapes when it stands for itself. -/
theorem Dialect.unescaped_iff : D.Unescaped raw ↔ D.decode raw = some raw := by
  constructor
  · rintro ⟨hquote, hbackslash, hsome⟩
    obtain ⟨s, hs⟩ := Option.isSome_iff_exists.mp hsome
    rwa [D.decode_unescaped raw s hquote hbackslash hs] at hs
  · intro h
    obtain ⟨hquote, hbackslash⟩ := D.decode_free raw h
    exact ⟨hquote, hbackslash, by rw [h, Option.isSome_some]⟩

theorem scan_append (m : Mode) (s t : Bytes) : scan m (s ++ t)
    = ((scan m s).1 ++ (scan (scan m s).2 t).1, (scan (scan m s).2 t).2) := by
  induction s generalizing m with
  | nil => rfl
  | cons c s ih => rw [List.cons_append, scan, scan, ih, List.append_assoc]

/-- The room the strings of some tokens take, with a quote for each. -/
def weight : List Token → ℕ
  | [] => 0
  | .str raw :: ts => raw.length + 1 + weight ts
  | _ :: ts => weight ts

theorem weight_append (ts ts' : List Token) : weight (ts ++ ts') = weight ts + weight ts' := by
  induction ts with
  | nil => simp [weight]
  | cons a ts ih => cases a <;> simp [weight, ih, Nat.add_assoc]

theorem length_lt_weight (h : .str raw ∈ ts) : raw.length < weight ts := by
  obtain ⟨p, q, rfl⟩ := List.append_of_mem h
  rw [weight_append, weight]
  omega

theorem content_start (c : UInt8) : (Mode.start c).content = 0 := by
  rw [Mode.start]
  split_ifs <;> rfl

theorem weight_step_le (m : Mode) (c : UInt8) :
    weight (m.emit c) + (m.next c).content ≤ m.content + 1 := by
  cases m with
  | out =>
    have hemit : weight (Mode.out.emit c) = 0 := by
      rw [Mode.emit]
      split_ifs <;> rfl
    rw [hemit, Mode.next, content_start]
    exact Nat.zero_le _
  | word w =>
    have hemit : weight ((Mode.word w).emit c) = 0 := by
      rw [Mode.emit]
      split_ifs <;> rfl
    have hnext : ((Mode.word w).next c).content = 0 := by
      rw [Mode.next]
      split_ifs
      · exact content_start c
      · rfl
    rw [hemit, hnext]
    exact Nat.zero_le _
  | str raw =>
    rw [Mode.next, Mode.emit]
    split_ifs <;> simp [weight, Mode.content]
  | esc raw => simp [Mode.next, Mode.emit, weight, Mode.content]

/-- Strings take no more room than there is text. -/
theorem weight_scan_le (m : Mode) (s : Bytes) :
    weight (scan m s).1 + (scan m s).2.content ≤ m.content + s.length := by
  induction s generalizing m with
  | nil => simp [scan, weight]
  | cons c s ih =>
    have hstep := weight_step_le m c
    have hrest := ih (m.next c)
    simp only [scan, weight_append, List.length_cons]
    omega

theorem scan_string (h : m = .str raw ∨ m = .esc raw) (s : Bytes) :
    ((scan m s).1 = [] ∧ ((scan m s).2 = .str (raw ++ s) ∨ (scan m s).2 = .esc (raw ++ s))) ∨
      ∃ raw' ts, (scan m s).1 = .str raw' :: ts := by
  induction s generalizing m raw with
  | nil => simpa [scan] using h
  | cons c s ih =>
    rw [List.append_cons, scan]
    rcases h with rfl | rfl
    · rw [Mode.emit, Mode.next]
      split_ifs with hquote hbackslash
      · exact Or.inr ⟨raw, _, rfl⟩
      · exact ih (Or.inr rfl)
      · exact ih (Or.inl rfl)
    · exact ih (Or.inl rfl)

theorem scan_free (hquote : 34 ∉ s) (hbackslash : 92 ∉ s) (raw : Bytes) :
    scan (.str raw) s = ([], .str (raw ++ s)) := by
  induction s generalizing raw with
  | nil => simp [scan]
  | cons c s ih =>
    rw [List.mem_cons, not_or] at hquote hbackslash
    rw [scan, Mode.emit, Mode.next, if_neg (Ne.symm hquote.1), if_neg (Ne.symm hbackslash.1),
      if_neg (Ne.symm hquote.1), ih hquote.2 hbackslash.2, List.nil_append, ← List.append_cons]

/-- A text that ends within a string as it has begun is that string, or has only shorter strings in
it. -/
theorem scan_cases (h : scan (.str []) s = (ts, .str raw)) : (ts = [] ∧ raw = s) ∨
    (ts ≠ [] ∧ ∀ raw', .str raw' ∈ ts ++ [.str raw] → raw'.length < s.length) := by
  have hweight := weight_scan_le (.str []) s
  have hcases := scan_string (m := .str []) (Or.inl rfl) s
  rw [h] at hweight hcases
  simp only [Mode.content, List.length_nil, Nat.zero_add, List.nil_append] at hweight hcases
  rcases hcases with ⟨rfl, hraw | hraw⟩ | ⟨raw₀, ts', rfl⟩
  · exact Or.inl ⟨rfl, Mode.str.inj hraw⟩
  · cases hraw
  · refine Or.inr ⟨List.cons_ne_nil _ _, ?_⟩
    intro raw' hmem
    rcases List.mem_append.mp hmem with hmem | hmem
    · have := length_lt_weight hmem
      omega
    · obtain rfl := Token.str.inj (List.mem_singleton.mp hmem)
      rw [weight] at hweight
      omega

/-! ## Reading

What the reader knows at any time are members of the tokens read so far. Two strings or words
side by side are no value of JSON, so the name of a member is the string right before its colon. -/

/-- A token that is part of a value or a name by itself. -/
def Token.IsAtom : Token → Prop
  | .punct _ => False
  | .str _ => True
  | .word _ => True

theorem steps_append (r : Reader) (ts ts' : List Token) :
    r.steps D (ts ++ ts') = (r.steps D ts).bind fun r' ↦ r'.steps D ts' := by
  rw [Reader.steps, List.foldlM_append]
  rfl

theorem steps_cons (r : Reader) (a : Token) (ts : List Token) :
    r.steps D (a :: ts) = (r.step D a).bind fun r' ↦ r'.steps D ts := by
  rw [Reader.steps, List.foldlM_cons]
  rfl

theorem steps_member {raw' : Bytes} {e : Expect} (he : e = .name ∨ e = .member)
    (hname : D.decode raw = some name) (hs : D.decode raw' = some s)
    (members : List (Bytes × Option Bytes)) (ts : List Token) :
    Reader.steps D ⟨[.object], e, members⟩ (.str raw :: .punct 58 :: .str raw' :: ts)
      = Reader.steps D ⟨[.object], .next, members ++ [(name, some s)]⟩ ts := by
  have hread : Reader.step ⟨[.object], e, members⟩ D (.str raw)
      = some ⟨[.object], .colon name, members⟩ := by
    rw [Reader.step, Reader.readString, hname]
    rcases he with rfl | rfl <;> rfl
  have hcolon : Reader.step ⟨[.object], .colon name, members⟩ D (.punct 58)
      = some ⟨[.object], .memberValue name, members⟩ := rfl
  have hvalue : Reader.step ⟨[.object], .memberValue name, members⟩ D (.str raw')
      = some ⟨[.object], .next, members ++ [(name, some s)]⟩ := by
    rw [Reader.step, Reader.readString, hs]
    rfl
  rw [steps_cons, hread, Option.bind_some, steps_cons, hcolon, Option.bind_some, steps_cons,
    hvalue, Option.bind_some]

theorem expect_of_step_atom {a : Token} (ha : a.IsAtom) (h : r.step D a = some r') :
    r'.expect = .next ∨ ∃ name, r'.expect = .colon name := by
  cases a with
  | punct c => exact absurd ha id
  | str raw =>
    rw [Reader.step, Reader.readString] at h
    obtain ⟨s, -, h⟩ := Option.bind_eq_some_iff.mp h
    split_ifs at h
    · exact Or.inl (congrArg Reader.expect (Option.some.inj h)).symm
    · exact Or.inr ⟨s, (congrArg Reader.expect (Option.some.inj h)).symm⟩
  | word w =>
    rw [Reader.step] at h
    split_ifs at h
    exact Or.inl (congrArg Reader.expect (Option.some.inj h)).symm

theorem step_atom {a b : Token} (ha : a.IsAtom) (hb : b.IsAtom) (h : r.step D a = some r') :
    r'.step D b = none := by
  have hexpect := expect_of_step_atom ha h
  have hvalue : r'.takesValue = false := by
    rw [Reader.takesValue]
    rcases hexpect with hnext | ⟨name, hcolon⟩
    · rw [hnext]
    · rw [hcolon]
  have hname : ¬ (r'.expect = .name ∨ r'.expect = .member) := by
    rcases hexpect with hnext | ⟨name, hcolon⟩
    · simp [hnext]
    · simp [hcolon]
  cases b with
  | punct c => exact absurd hb id
  | str raw =>
    rw [Reader.step, Reader.readString]
    simp [hvalue, hname]
  | word w => simp [Reader.step, hvalue]

theorem steps_adjacent {a b : Token} (ha : a.IsAtom) (hb : b.IsAtom) (r : Reader)
    (ts ts' : List Token) : r.steps D (ts ++ a :: b :: ts') = none := by
  rw [steps_append]
  cases hr : r.steps D ts with
  | none => rfl
  | some r₁ =>
    rw [Option.bind_some, steps_cons]
    cases hr' : r₁.step D a with
    | none => rfl
    | some r₂ => rw [Option.bind_some, steps_cons, step_atom ha hb hr', Option.bind_none]

/-- A member among the tokens: a name, a colon and a string. -/
def HasMember (D : Dialect) (ts : List Token) (name s : Bytes) : Prop :=
  ∃ p raw raw' q, ts = p ++ .str raw :: .punct 58 :: .str raw' :: q ∧
    D.decode raw = some name ∧ D.decode raw' = some s

/-- What a reader knows of the tokens it has read. -/
structure Reader.Knows (D : Dialect) (ts : List Token) (r : Reader) : Prop where
  /-- The members come from tokens. -/
  members : ∀ name s, (name, some s) ∈ r.members → HasMember D ts name s
  /-- In front of a colon there is a name. -/
  colon : ∀ name, r.expect = .colon name →
    ∃ p raw, ts = p ++ [.str raw] ∧ D.decode raw = some name
  /-- In front of the value of a member there are a name and a colon. -/
  memberValue : ∀ name, r.expect = .memberValue name →
    ∃ p raw, ts = p ++ [.str raw, .punct 58] ∧ D.decode raw = some name

theorem HasMember.append {s : Bytes} (h : HasMember D ts name s) (ts' : List Token) :
    HasMember D (ts ++ ts') name s := by
  obtain ⟨p, raw, raw', q, rfl, hname, hs⟩ := h
  exact ⟨p, raw, raw', q ++ ts', by simp, hname, hs⟩

theorem mem_note {o o' : Option Bytes} (h : (name, o) ∈ r.note o') :
    (name, o) ∈ r.members ∨ r.expect = .memberValue name ∧ o = o' := by
  rw [Reader.note] at h
  split at h
  · rename_i name' hexpect _
    rcases List.mem_append.mp h with h | h
    · exact Or.inl h
    · obtain ⟨rfl, rfl⟩ := Prod.mk.inj (List.mem_singleton.mp h)
      exact Or.inr ⟨hexpect, rfl⟩
  · exact Or.inl h

theorem Reader.Knows.mono (h : r.Knows D ts) (ts' : List Token)
    (hmembers : ∀ name s, (name, some s) ∈ r'.members → (name, some s) ∈ r.members)
    (hcolon : ∀ name, r'.expect ≠ .colon name)
    (hvalue : ∀ name, r'.expect ≠ .memberValue name) : r'.Knows D (ts ++ ts') where
  members name s hmem := (h.members name s (hmembers name s hmem)).append ts'
  colon name hexpect := absurd hexpect (hcolon name)
  memberValue name hexpect := absurd hexpect (hvalue name)

theorem Reader.mem_note_none {s : Bytes} (h : (name, some s) ∈ r.note none) :
    (name, some s) ∈ r.members := by
  rcases mem_note h with h | ⟨-, h⟩
  · exact h
  · cases h

theorem Reader.Knows.openFrame {f : Frame} {expect : Expect} (h : r.Knows D ts)
    (hopen : r.openFrame f expect = some r') (hcolon : ∀ name, expect ≠ .colon name)
    (hvalue : ∀ name, expect ≠ .memberValue name) (ts' : List Token) :
    r'.Knows D (ts ++ ts') := by
  rw [Reader.openFrame] at hopen
  split_ifs at hopen
  obtain rfl := Option.some.inj hopen
  exact h.mono ts' (fun name s ↦ Reader.mem_note_none) hcolon hvalue

theorem Reader.Knows.closeFrame {f : Frame} {expect : Expect} (h : r.Knows D ts)
    (hclose : r.closeFrame f expect = some r') (ts' : List Token) : r'.Knows D (ts ++ ts') := by
  rw [Reader.closeFrame] at hclose
  split at hclose
  · cases hclose
  · split_ifs at hclose
    obtain rfl := Option.some.inj hclose
    exact h.mono ts' (fun _ _ ↦ id) (by simp) (by simp)

theorem Reader.Knows.readColon (h : r.Knows D ts) (hcolon : r.readColon = some r') :
    r'.Knows D (ts ++ [.punct 58]) := by
  rw [Reader.readColon] at hcolon
  split at hcolon
  · rename_i name hexpect
    obtain rfl := Option.some.inj hcolon
    obtain ⟨p, raw, rfl, hname⟩ := h.colon name hexpect
    refine ⟨fun name' s hmem ↦ (h.members name' s hmem).append _, by simp, ?_⟩
    rintro name' hexpect'
    obtain rfl := Expect.memberValue.inj hexpect'
    exact ⟨p, raw, by simp, hname⟩
  · cases hcolon

theorem Reader.Knows.readComma (h : r.Knows D ts) (hcomma : r.readComma = some r')
    (ts' : List Token) : r'.Knows D (ts ++ ts') := by
  rw [Reader.readComma] at hcomma
  split at hcomma
  · obtain rfl := Option.some.inj hcomma
    exact h.mono ts' (fun _ _ ↦ id) (by simp) (by simp)
  · obtain rfl := Option.some.inj hcomma
    exact h.mono ts' (fun _ _ ↦ id) (by simp) (by simp)
  · cases hcomma

theorem Reader.Knows.readString (h : r.Knows D ts) (hstring : r.readString D raw = some r') :
    r'.Knows D (ts ++ [.str raw]) := by
  rw [Reader.readString] at hstring
  obtain ⟨s, hs, hstring⟩ := Option.bind_eq_some_iff.mp hstring
  split_ifs at hstring
  · obtain rfl := Option.some.inj hstring
    refine ⟨?_, by simp, by simp⟩
    intro name s' hmem
    rcases mem_note hmem with hmem | ⟨hexpect, heq⟩
    · exact (h.members name s' hmem).append _
    · obtain rfl := Option.some.inj heq
      obtain ⟨p, raw₀, rfl, hname⟩ := h.memberValue name hexpect
      exact ⟨p, raw₀, raw, [], by simp, hname, hs⟩
  · obtain rfl := Option.some.inj hstring
    refine ⟨fun name' s' hmem ↦ (h.members name' s' hmem).append _, ?_, by simp⟩
    intro name hexpect
    obtain rfl := Expect.colon.inj hexpect
    exact ⟨ts, raw, rfl, hs⟩

theorem Reader.Knows.step {a : Token} (h : r.Knows D ts) (hstep : r.step D a = some r') :
    r'.Knows D (ts ++ [a]) := by
  cases a with
  | punct c =>
    rw [Reader.step] at hstep
    split_ifs at hstep with _ _ _ _ hcolon
    · exact h.openFrame hstep (by simp) (by simp) _
    · exact h.closeFrame hstep _
    · exact h.openFrame hstep (by simp) (by simp) _
    · exact h.closeFrame hstep _
    · exact hcolon ▸ h.readColon hstep
    · exact h.readComma hstep _
  | str raw => exact h.readString hstep
  | word w =>
    rw [Reader.step] at hstep
    split_ifs at hstep
    obtain rfl := Option.some.inj hstep
    exact h.mono _ (fun name s ↦ Reader.mem_note_none) (by simp) (by simp)

theorem Reader.Knows.steps (h : r.Knows D ts) (hsteps : r.steps D ts' = some r') :
    r'.Knows D (ts ++ ts') := by
  induction ts' generalizing r ts with
  | nil =>
    obtain rfl : r = r' := Option.some.inj hsteps
    rwa [List.append_nil]
  | cons a ts' ih =>
    rw [steps_cons] at hsteps
    obtain ⟨r₁, hstep, hrest⟩ := Option.bind_eq_some_iff.mp hsteps
    rw [List.append_cons]
    exact ih (h.step hstep) hrest

/-- **Where members come from**: a member of an accepted row of tokens is a name, a colon and a
string in it. -/
theorem exists_member {s : Bytes} (hsteps : Reader.start.steps D ts = some r)
    (hmem : (name, some s) ∈ r.members) : HasMember D ts name s := by
  have hstart : Reader.start.Knows D [] := ⟨by simp [Reader.start], by simp [Reader.start],
    by simp [Reader.start]⟩
  exact (hstart.steps hsteps).members name s hmem

theorem HasMember.of_punct {s : Bytes} {c : UInt8} (hc : c ≠ 58)
    (h : HasMember D (ts ++ .punct c :: ts') name s) :
    HasMember D ts name s ∨ HasMember D ts' name s := by
  obtain ⟨p, raw, raw', q, heq, hname, hs⟩ := h
  rcases List.append_eq_append_iff.mp heq with ⟨t, rfl, ht⟩ | ⟨t, rfl, ht⟩
  · -- the member begins behind `ts`, where the bracket is not its first token
    cases t with
    | nil => simp at ht
    | cons a t =>
      obtain ⟨-, rfl⟩ := List.cons.inj ht
      exact Or.inr ⟨t, raw, raw', q, rfl, hname, hs⟩
  · -- the member begins in `ts`, and ends there
    match t, ht with
    | [], ht => simp at ht
    | [a], ht =>
      simp only [List.singleton_append, List.cons.injEq, Token.punct.injEq] at ht
      exact absurd ht.2.1.symm hc
    | [a, b], ht => simp at ht
    | a :: b :: d :: t, ht =>
      simp only [List.cons_append, List.cons.injEq] at ht
      obtain ⟨rfl, rfl, rfl, -⟩ := ht
      exact Or.inl ⟨p, raw, raw', t, rfl, hname, hs⟩

/-- The members in what is read of a text between quotes, behind a name and a colon: the text is
their only string, or they have shorter ones. -/
theorem HasMember.of_scan {text raw₀ s : Bytes} (hscan : scan (.str []) text = (ts, .str raw))
    (h : HasMember D (.str raw₀ :: .punct 58 :: (ts.filter D.reads ++ [.str raw])) name s) :
    (ts = [] ∧ D.decode raw₀ = some name ∧ D.decode text = some s) ∨
      (ts ≠ [] ∧ s.length < text.length) := by
  obtain ⟨p, raw₁, raw₂, q, heq, hname, hs⟩ := h
  have hlength := D.length_decode raw₂ s hs
  rcases scan_cases hscan with ⟨rfl, rfl⟩ | ⟨hne, hshort⟩
  · refine Or.inl ⟨rfl, ?_⟩
    match p, heq with
    | [], heq =>
      simp only [List.filter_nil, List.nil_append, List.cons.injEq, Token.str.injEq] at heq
      obtain ⟨rfl, -, rfl, -⟩ := heq
      exact ⟨hname, hs⟩
    | [a], heq => simp at heq
    | a :: b :: p, heq =>
      have hlength := congrArg List.length heq
      simp at hlength
      omega
  · have hmem : .str raw₂ ∈ ts.filter D.reads ++ [.str raw] := by
      match p, heq with
      | [], heq =>
        simp only [List.nil_append, List.cons.injEq] at heq
        rw [heq.2.2]
        exact List.mem_cons_self
      | [a], heq => simp at heq
      | a :: b :: p, heq =>
        simp only [List.cons_append, List.cons.injEq] at heq
        rw [heq.2.2]
        simp
    refine Or.inr ⟨hne, hlength.trans_lt (hshort raw₂ ?_)⟩
    rcases List.mem_append.mp hmem with hmem | hmem
    · exact List.mem_append_left _ (List.mem_of_mem_filter hmem)
    · exact List.mem_append_right _ hmem

/-! ## A library for a dialect -/

/-- The library that shows what is read. Its values are objects and what their members hold; of
members of the same name the last one counts. -/
def Dialect.library (D : Dialect) : JsonLib where
  Json := List (Bytes × Option Bytes) ⊕ Option Bytes
  parse text := (D.read text).map .inl
  index j name := match j with
    | .inl members => (Lru.find name members.reverse).map .inr
    | .inr _ => none
  string j := match j with
    | .inl _ => none
    | .inr s => s

theorem Dialect.follows_library (D : Dialect) : D.library.Follows D := by
  intro text _
  cases hread : D.read text with
  | none =>
    show (D.read text).map Sum.inl = none
    rw [hread, Option.map_none]
  | some members =>
    refine ⟨.inl members, ?_, ?_, ?_⟩
    · show (D.read text).map Sum.inl = some (.inl members)
      rw [hread, Option.map_some]
    · intro name s h
      obtain ⟨j, hj, hs⟩ := Option.bind_eq_some_iff.mp h
      obtain ⟨o, ho, rfl⟩ := Option.map_eq_some_iff.mp hj
      obtain rfl : o = some s := hs
      exact List.mem_reverse.mp (Lru.mem_of_find ho)
    · intro hnodup name s hmem
      have hnodup' : (Lru.keys members.reverse).Nodup := by
        rw [Lru.keys, List.map_reverse]
        exact List.nodup_reverse.mpr hnodup
      have hfind := (Lru.find_eq_some_iff hnodup').mpr (List.mem_reverse.mpr hmem)
      show ((Lru.find name members.reverse).map Sum.inr).bind D.library.string = some s
      rw [hfind]
      rfl

end Text

end NetCache
