import NetCache.Lru.Entries
import NetCache.Text.Strings

/-!
# JSON texts of plain objects

What the client uses of a JSON library, as a parameter: parsing a text, looking a name up in an
object, and reading a string. Each of the three may fail, as the library throws when it does.

## What is assumed

Of a conforming library only its behaviour on one kind of text is used: objects whose members are
strings that need no escapes, with whitespace wherever the grammar allows it. The names of the
members are distinct. On such a text the library parses, finds each member under its name, and reads
the string between the quotes. The replies of the server are texts of this kind when the key and the
value are plain, so this is all that the theorems on plain keys and values need.

## A library that conforms

The second section has a library that accepts just these texts and rejects all others. It shows that
the assumption can be met, and it is small enough to be run on an example. The library that the
client is built with is described elsewhere, by its grammar; that description also covers texts
which are not plain.
-/

namespace NetCache

namespace Text

/-- A JSON library. -/
structure JsonLib where
  /-- The parsed values. -/
  Json : Type
  /-- `json::parse`, `none` when it throws. -/
  parse : Bytes → Option Json
  /-- `j[name]`, `none` when it throws. -/
  index : Json → Bytes → Option Json
  /-- The conversion to `std::string`, `none` when it throws. -/
  string : Json → Option Bytes

/-- The whitespace of JSON. -/
def isJsonSpace (c : UInt8) : Bool := c = 32 || c = 9 || c = 10 || c = 13

/-- A printable ASCII character that stands for itself in a string. -/
def isPlain (c : UInt8) : Bool := 32 ≤ c && c ≤ 126 && c ≠ 34 && c ≠ 92

/-- A member of an object: a name and a string, with the whitespace around them. -/
structure JsonMember where
  /-- Whitespace before the name. -/
  before : Bytes
  /-- The name. -/
  name : Bytes
  /-- Whitespace after the name. -/
  afterName : Bytes
  /-- Whitespace before the string. -/
  beforeValue : Bytes
  /-- The string. -/
  value : Bytes
  /-- Whitespace after the string. -/
  after : Bytes
  /-- What is around them is whitespace. -/
  spaces : (before ++ afterName ++ beforeValue ++ after).all isJsonSpace = true
  /-- The name and the string need no escapes. -/
  plain : (name ++ value).all isPlain = true

/-- The text of a member. -/
def JsonMember.text (m : JsonMember) : Bytes :=
  m.before ++ 34 :: (m.name ++ 34 :: (m.afterName ++ 58 :: (m.beforeValue ++ 34 ::
    (m.value ++ 34 :: m.after))))

/-- The text of an object from its first member on. -/
def membersText (m : JsonMember) : List JsonMember → Bytes
  | [] => m.text
  | m' :: ms => m.text ++ 44 :: membersText m' ms

/-- The text of an object. -/
def objectText (before : Bytes) (m : JsonMember) (ms : List JsonMember) (after : Bytes) : Bytes :=
  before ++ 123 :: (membersText m ms ++ 125 :: after)

/-- A library conforms when it reads the members of every such object, given distinct names. -/
def JsonLib.Conforming (lib : JsonLib) : Prop :=
  ∀ before m ms after, before.all isJsonSpace = true → after.all isJsonSpace = true →
    ((m :: ms).map JsonMember.name).Nodup →
    ∃ j, lib.parse (objectText before m ms after) = some j ∧
      ∀ m' ∈ m :: ms, ∃ v, lib.index j m'.name = some v ∧ lib.string v = some m'.value

/-! ## A library for plain objects

A parser by recursive descent. Its `fuel` is the length of the text: a member takes at least one
byte, so a text is never longer in members than in bytes. -/

/-- The rest of a text after whitespace. -/
def skipSpace (s : Bytes) : Bytes := s.dropWhile isJsonSpace

/-- The rest of a text after a character. -/
def expect (c : UInt8) : Bytes → Option Bytes
  | [] => none
  | b :: s => if b = c then some s else none

/-- A string, and the rest of the text after it and after whitespace. -/
def parseString (s : Bytes) : Option (Bytes × Bytes) := do
  let s ← expect 34 (skipSpace s)
  let rest ← expect 34 (s.dropWhile isPlain)
  some (s.takeWhile isPlain, skipSpace rest)

/-- A member, and the rest of the text. -/
def parseMember (s : Bytes) : Option ((Bytes × Bytes) × Bytes) := do
  let (name, s) ← parseString s
  let s ← expect 58 s
  let (value, s) ← parseString s
  some ((name, value), s)

/-- The members up to the end of the text. -/
def parseMembers : ℕ → Bytes → Option (List (Bytes × Bytes))
  | 0, _ => none
  | fuel + 1, s => do
    let (m, s) ← parseMember s
    match s with
    | 44 :: s => do
      let ms ← parseMembers fuel s
      some (m :: ms)
    | 125 :: s => if skipSpace s = [] then some [m] else none
    | _ => none

/-- The library for plain objects. Its values are objects and strings. -/
def plainJson : JsonLib where
  Json := List (Bytes × Bytes) ⊕ Bytes
  parse s := do
    let s ← expect 123 (skipSpace s)
    let ms ← parseMembers s.length s
    some (.inl ms)
  index j name := match j with
    | .inl ms => (Lru.find name ms).map .inr
    | .inr _ => none
  string j := match j with
    | .inl _ => none
    | .inr s => some s

variable {w s rest : Bytes} {c : UInt8}

theorem skipSpace_append (hw : w.all isJsonSpace = true) (hc : isJsonSpace c = false) :
    skipSpace (w ++ c :: s) = c :: s := by
  rw [skipSpace, List.dropWhile_append_of_pos (by simpa using hw),
    List.dropWhile_cons_of_neg (by simp [hc])]

theorem expect_cons (c : UInt8) (s : Bytes) : expect c (c :: s) = some s := if_pos rfl

theorem parseString_append {v w' : Bytes} (hw : w.all isJsonSpace = true)
    (hv : v.all isPlain = true) (hw' : w'.all isJsonSpace = true) (hc : isJsonSpace c = false) :
    parseString (w ++ 34 :: (v ++ 34 :: (w' ++ c :: s))) = some (v, c :: s) := by
  have hquote : isPlain 34 = false := rfl
  have hv' : ∀ a ∈ v, isPlain a = true := by simpa using hv
  have hdrop : (v ++ 34 :: (w' ++ c :: s)).dropWhile isPlain = 34 :: (w' ++ c :: s) := by
    rw [List.dropWhile_append_of_pos hv', List.dropWhile_cons_of_neg (by simp [hquote])]
  have htake : (v ++ 34 :: (w' ++ c :: s)).takeWhile isPlain = v := by
    rw [List.takeWhile_append_of_pos hv', List.takeWhile_cons_of_neg (by simp [hquote]),
      List.append_nil]
  simp only [parseString, skipSpace_append hw (by decide : isJsonSpace 34 = false), expect_cons,
    Option.bind_eq_bind, Option.bind_some, hdrop, htake, skipSpace_append hw' hc]

theorem parseMember_text (m : JsonMember) (hc : isJsonSpace c = false) :
    parseMember (m.text ++ c :: s) = some ((m.name, m.value), c :: s) := by
  obtain ⟨before, name, afterName, beforeValue, value, after, spaces, plain⟩ := m
  simp only [List.all_append, Bool.and_eq_true] at spaces plain
  obtain ⟨⟨⟨hbefore, hafterName⟩, hbeforeValue⟩, hafter⟩ := spaces
  have hname := parseString_append (s := beforeValue ++ 34 :: (value ++ 34 :: (after ++ c :: s)))
    hbefore plain.1 hafterName (by decide : isJsonSpace 58 = false)
  have hvalue := parseString_append (s := s) hbeforeValue plain.2 hafter hc
  simp only [parseMember, JsonMember.text, List.append_assoc, List.cons_append, hname,
    Option.bind_eq_bind, Option.bind_some, expect_cons, hvalue]

theorem parseMembers_text (m : JsonMember) (ms : List JsonMember) {fuel : ℕ}
    (hs : s.all isJsonSpace = true) (hfuel : ms.length < fuel) :
    parseMembers fuel (membersText m ms ++ 125 :: s)
      = some ((m :: ms).map fun m ↦ (m.name, m.value)) := by
  induction ms generalizing m fuel with
  | nil =>
    obtain ⟨fuel, rfl⟩ := Nat.exists_eq_succ_of_ne_zero (Nat.ne_zero_of_lt hfuel)
    have hend : skipSpace s = [] := List.dropWhile_eq_nil_iff.mpr (by simpa using hs)
    simp only [parseMembers, membersText, parseMember_text m (by decide : isJsonSpace 125 = false),
      Option.bind_eq_bind, Option.bind_some, if_pos hend]
    rfl
  | cons m' ms ih =>
    obtain ⟨fuel, rfl⟩ := Nat.exists_eq_succ_of_ne_zero (Nat.ne_zero_of_lt hfuel)
    have htail := ih m' (Nat.lt_of_succ_lt_succ hfuel)
    simp only [parseMembers, membersText, List.append_assoc, List.cons_append,
      parseMember_text m (by decide : isJsonSpace 44 = false), Option.bind_eq_bind,
      Option.bind_some, htail]
    rfl

theorem length_lt_length_membersText (m : JsonMember) (ms : List JsonMember) :
    ms.length < (membersText m ms).length := by
  have hpos : ∀ m : JsonMember, 0 < m.text.length := fun m ↦ by simp [JsonMember.text]
  induction ms generalizing m with
  | nil => exact hpos m
  | cons m' ms ih =>
    have htail := ih m'
    rw [membersText, List.length_cons, List.length_append, List.length_cons]
    omega

theorem conforming_plainJson : plainJson.Conforming := by
  intro before m ms after hbefore hafter hnd
  have hlen : ms.length < (membersText m ms ++ 125 :: after).length := by
    have := length_lt_length_membersText m ms
    rw [List.length_append]
    omega
  have hparse : plainJson.parse (objectText before m ms after)
      = some (.inl ((m :: ms).map fun m ↦ (m.name, m.value))) := by
    simp only [plainJson, objectText,
      skipSpace_append hbefore (by decide : isJsonSpace 123 = false), expect_cons,
      Option.bind_eq_bind, Option.bind_some, parseMembers_text m ms hafter hlen]
  have hkeys : (Lru.keys ((m :: ms).map fun m ↦ (m.name, m.value))).Nodup := by
    rw [Lru.keys, List.map_map]
    exact hnd
  refine ⟨_, hparse, fun m' hm' ↦ ⟨.inr m'.value, ?_, rfl⟩⟩
  have hfind := (Lru.find_eq_some_iff hkeys).mpr (List.mem_map_of_mem hm')
  simp only [plainJson, hfind, Option.map_some]

end Text

end NetCache
