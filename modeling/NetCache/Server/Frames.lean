import NetCache.Server.Parsing
import NetCache.Server.Receive
import NetCache.Server.Requests
import NetCache.Text.Json

/-!
# Well-formed requests

How a request of the form `VERB /key` or `VERB /key/text` is taken apart, and what it does to the
contents of the server. These are the forms that the client writes.

## The NUL behind a message

A request for a key whose line ends with it picks up the `NUL` behind the message as part of the
key; as a C string that is still the key. In a request with a text the `NUL` is part of the text
instead, and is what ends the value in the cache.

## What stripping leaves

Before a message is taken apart it is stripped, which can do more than take trailing whitespace off:
from `2 ^ 31` bytes on the index wraps, and the request is cut off somewhere, or not stripped at
all, or stripping throws. `kept` says what is left of the text behind the slash of a request, or
that nothing useful is. `addressed_strip` then names the entry that a request addresses, for a key
of any length on one line, and `kept_eq_none_iff` the lengths for which there is none.

## Plain text

`PlainText` and `PlainKey` collect what the theorems about the client assume of keys and texts:
printable characters which need no escapes, no space at the end, and no slash in a key.
-/

namespace NetCache

open Text

namespace Server

variable {verb k t : Bytes} {key : CStr} {c : Contents}

/-! ## Taking a request apart -/

/-- `VERB /key` -/
def keyRequest (verb k : Bytes) : Bytes := verb ++ 32 :: 47 :: k

/-- `VERB /key/text` -/
def textRequest (verb k t : Bytes) : Bytes := keyRequest verb (k ++ 47 :: t)

theorem length_keyRequest (verb k : Bytes) :
    (keyRequest verb k).length = verb.length + 2 + k.length := by
  simp [keyRequest]
  omega

theorem length_textRequest (verb k t : Bytes) :
    (textRequest verb k t).length = verb.length + 3 + k.length + t.length := by
  rw [textRequest, length_keyRequest, List.length_append, List.length_cons]
  omega

theorem keyRequest_append (verb k w : Bytes) :
    keyRequest verb k ++ w = keyRequest verb (k ++ w) := by
  simp [keyRequest]

theorem nul_notMem_keyRequest (hverb : 0 ∉ verb) (hk : 0 ∉ k) : 0 ∉ keyRequest verb k := by
  simp [keyRequest, hverb, hk]

theorem nul_notMem_textRequest (hverb : 0 ∉ verb) (hk : 0 ∉ k) (ht : 0 ∉ t) :
    0 ∉ textRequest verb k t :=
  nul_notMem_keyRequest hverb (by simp [hk, ht])

theorem length_get : (ascii "GET").length = 3 := by decide

theorem length_put : (ascii "PUT").length = 3 := by decide

theorem length_delete : (ascii "DELETE").length = 6 := by decide

theorem find_space (hverb : 32 ∉ verb) : find (keyRequest verb k) 32 0 = some verb.length := by
  have hfind := find_append (q := 47 :: k) [] hverb
  rwa [List.length_nil, Nat.zero_add, List.nil_append] at hfind

theorem keyStart_keyRequest (hverb : 32 ∉ verb) :
    keyStart (keyRequest verb k) = verb.length + 2 := by
  have hfind := find_append (p := []) (q := k) (verb ++ [32]) (List.not_mem_nil (a := 47))
  have hslash : find (keyRequest verb k) 47 (verb.length + 1) = some (verb.length + 1) := by
    rw [List.length_append, List.length_singleton] at hfind
    rwa [keyRequest, List.append_cons]
  rw [keyStart, find_space hverb, afterPos, hslash, afterPos]

/-- **The substrings of a request**: the verb, and the fields of the first line of what follows the
slash. A slash on a later line throws. -/
theorem parts_request (hverb : 32 ∉ verb) (hvline : SingleLine verb) (k : Bytes) :
    parts (keyRequest verb k) = if 47 ∈ k → 47 ∈ firstLine k then
      some ⟨verb, firstField (firstLine k), secondField (firstLine k)⟩ else none := by
  have hsep : SingleLine [32, 47] := ⟨by decide, by decide⟩
  have hrequest : keyRequest verb k = verb ++ [32, 47] ++ k := by simp [keyRequest]
  have hline : firstLine (keyRequest verb k) = verb ++ [32, 47] ++ firstLine k := by
    rw [hrequest, firstLine_append (hvline.append hsep)]
  have hbody : body (keyRequest verb k) = firstLine k := by
    rw [body, keyStart_keyRequest hverb, hline]
    exact List.drop_left' (by simp)
  have hdrop : (keyRequest verb k).drop (verb.length + 2) = k := by
    rw [hrequest]
    exact List.drop_left' (by simp)
  have hend : keyStart (keyRequest verb k) ≤ endOfLine (keyRequest verb k) := by
    rw [keyStart_keyRequest hverb, ← length_firstLine, hline]
    simp
  have hword : (keyRequest verb k).take verb.length = verb := List.take_left
  rw [keyStart_keyRequest hverb] at hend
  rw [parts_eq, find_space hverb, Option.bind_some, hbody, keyStart_keyRequest hverb, hdrop, hword]
  exact if_congr (and_iff_right hend) rfl rfl

/-- The key of a request without text comes with the `NUL` behind the message. -/
theorem parts_keyRequest (hverb : 32 ∉ verb) (hvline : SingleLine verb) (hk : 47 ∉ k)
    (hline : SingleLine k) : parts (keyRequest verb k) = some ⟨verb, k ++ [0], []⟩ := by
  have hnul : 47 ∉ k ++ [0] := by simpa using hk
  rw [parts_request hverb hvline, if_pos fun h ↦ absurd h hk, firstLine_of_singleLine hline,
    firstField, secondField, (takeWhile_noSlash hnul).1, (takeWhile_noSlash hnul).2]

theorem parts_textRequest (hverb : 32 ∉ verb) (hvline : SingleLine verb) (hk : 47 ∉ k)
    (hline : SingleLine k) (htline : SingleLine t) :
    parts (textRequest verb k t) = some ⟨verb, k, t ++ [0]⟩ := by
  have hsep : SingleLine [47] := ⟨by decide, by decide⟩
  have hfirst : firstLine (k ++ 47 :: t) = k ++ 47 :: (t ++ [0]) := by
    simpa using firstLine_of_singleLine (hline.append (hsep.append htline))
  rw [textRequest, parts_request hverb hvline, hfirst, if_pos fun _ ↦ by simp, firstField,
    secondField, (takeWhile_append_slash hk).1, (takeWhile_append_slash hk).2]

/-! ## The call of a message -/

/-- The call to the cache that a message leads to. -/
def callOf (message : Bytes) : Option (Lru.Call CStr Value) :=
  match parts message with
  | none => none
  | some ⟨fword, info1, info2⟩ =>
    if fword = ascii "GET" then some (.get (CStr.ofBytes info1))
    else if fword = ascii "PUT" then some (.set (CStr.ofBytes info1) (putValue info2))
    else if fword = ascii "DELETE" then some (.delete (CStr.ofBytes info1))
    else none

/-- The entry that a message writes, reads or removes. -/
def addressed (message : Bytes) : Option CStr := (callOf message).map Lru.Call.key

/-- The verbs of the messages that address an entry. -/
def entryVerbs : List Bytes := [ascii "GET", ascii "PUT", ascii "DELETE"]

theorem addressed_of_parts {message info1 info2 : Bytes} (hverb : verb ∈ entryVerbs)
    (hparts : parts message = some ⟨verb, info1, info2⟩) :
    addressed message = some (CStr.ofBytes info1) := by
  rw [addressed, callOf, hparts]
  simp only [entryVerbs, List.mem_cons, List.not_mem_nil, or_false] at hverb
  rcases hverb with rfl | rfl | rfl <;> rfl

theorem verb_of_mem (hverb : verb ∈ entryVerbs) :
    verb ≠ [] ∧ ∀ b ∈ verb, isWhiteSpace b = false := by
  have hword : verb ≠ [] ∧ verb.all (fun b ↦ !isWhiteSpace b) = true := by
    simp only [entryVerbs, List.mem_cons, List.not_mem_nil, or_false] at hverb
    rcases hverb with rfl | rfl | rfl <;> exact ⟨by decide, by decide⟩
  exact ⟨hword.1, by simpa using hword.2⟩

theorem space_notMem_verb (hverb : verb ∈ entryVerbs) : 32 ∉ verb := by
  intro hmem
  exact absurd ((verb_of_mem hverb).2 32 hmem) (by decide)

theorem singleLine_verb (hverb : verb ∈ entryVerbs) : SingleLine verb := by
  constructor
  · exact fun hmem ↦ absurd ((verb_of_mem hverb).2 10 hmem) (by decide)
  · exact fun hmem ↦ absurd ((verb_of_mem hverb).2 13 hmem) (by decide)

theorem addressed_keyRequest (hverb : verb ∈ entryVerbs) (hline : SingleLine k) :
    addressed (keyRequest verb k) = some (CStr.ofBytes (firstField k)) := by
  have hparts := parts_request (space_notMem_verb hverb) (singleLine_verb hverb) k
  rw [firstLine_of_singleLine hline, if_pos fun h ↦ List.mem_append_left _ h] at hparts
  rw [addressed_of_parts hverb hparts, Option.some.injEq]
  -- the `NUL` behind the message does not belong to the string
  by_cases hslash : 47 ∈ k
  · rw [firstField_append_of_mem hslash]
  · have hnul : 47 ∉ k ++ [0] := by simpa using hslash
    rw [firstField_of_notMem hslash, firstField_of_notMem hnul, CStr.ofBytes_append_nul]

/-! ## What stripping leaves -/

/-- What `strip` leaves of the text behind the slash of a request, whose head has the given length;
`none` when it does not get as far as the slash, or throws. -/
def kept (head : ℕ) (rest : Bytes) : Option Bytes :=
  if stripBound (head + rest.length) = 0 then some rest
  else if stripBound (head + rest.length) < head then none
  else if head + (rstrip (rest.take (stripBound (head + rest.length) - head))).length = 2 ^ 31 then
    none
  else some (rstrip (rest.take (stripBound (head + rest.length) - head)))

theorem keyRequest_eq (verb k : Bytes) : keyRequest verb k = verb ++ [32, 47] ++ k := by
  simp [keyRequest]

theorem take_keyRequest {n : ℕ} (hn : verb.length + 2 ≤ n) :
    (keyRequest verb k).take n = verb ++ [32, 47] ++ k.take (n - (verb.length + 2)) := by
  have hlen : (verb ++ [32, 47]).length = verb.length + 2 := by simp
  rw [← hlen, ← List.take_length_add_append, ← keyRequest_eq, hlen, Nat.add_sub_cancel' hn]

theorem strip_keyRequest {r : Bytes} (h : kept (verb.length + 2) k = some r) :
    strip (keyRequest verb k) = some (keyRequest verb r) := by
  have hsolid : Solid (verb ++ [32, 47]) := ⟨verb ++ [32], 47, by simp, by decide⟩
  have hlen : (verb ++ [32, 47]).length = verb.length + 2 := by simp
  have hlength : (keyRequest verb k).length = verb.length + 2 + k.length := by
    rw [keyRequest_eq, List.length_append, hlen]
  rw [kept, ← hlength] at h
  rw [strip_eq]
  split_ifs at h with hzero hshort hfull
  · rw [hzero, List.take_zero, ← Option.some.inj h]
    rfl
  · rw [take_keyRequest (Nat.le_of_not_lt hshort), if_neg (hsolid.not_all _),
      rstrip_solid_append hsolid, List.length_append, hlen, if_neg hfull, Option.some.inj h,
      keyRequest_eq]

/-- A request that is cut off before its slash has lost its space, too. -/
theorem space_notMem_strip (hverb : verb ∈ entryVerbs) (h : kept (verb.length + 2) k = none)
    {message : Bytes} (hstrip : strip (keyRequest verb k) = some message) : 32 ∉ message := by
  obtain ⟨hne, hword⟩ := verb_of_mem hverb
  have hlength : (keyRequest verb k).length = verb.length + 2 + k.length := by
    simp [keyRequest]
    omega
  rw [kept, ← hlength] at h
  rw [strip_eq] at hstrip
  generalize stripBound (keyRequest verb k).length = n at h hstrip
  split_ifs at h with hzero hshort hfull
  swap
  · -- the request is too long to be stripped
    have hsolid : Solid (verb ++ [32, 47]) := ⟨verb ++ [32], 47, by simp, by decide⟩
    have hlen : (verb ++ [32, 47]).length = verb.length + 2 := by simp
    rw [take_keyRequest (Nat.le_of_not_lt hshort), if_neg (hsolid.not_all _),
      rstrip_solid_append hsolid, List.length_append, hlen, if_pos hfull] at hstrip
    cases hstrip
  -- what is left of the head is a part of the verb, and perhaps the space
  obtain ⟨w, hw, htake⟩ : ∃ w, w.all isWhiteSpace = true ∧
      (keyRequest verb k).take n = verb.take n ++ w := by
    refine ⟨[32].take (n - verb.length), ?_, ?_⟩
    · rw [List.all_eq_true]
      intro b hb
      rw [List.mem_singleton.mp (List.mem_of_mem_take hb)]
      rfl
    · rw [keyRequest, List.append_cons, List.take_append_of_le_length (by simp; omega),
        List.take_append]
  obtain ⟨b, hb⟩ : ∃ b, b ∈ verb.take n :=
    List.exists_mem_of_ne_nil _ (by simp [hne, hzero])
  have hnot : ¬ (verb.take n ++ w).all isWhiteSpace = true := by
    intro hall
    have hws := List.all_eq_true.mp hall b (List.mem_append_left _ hb)
    rw [hword b (List.mem_of_mem_take hb)] at hws
    cases hws
  rw [htake, if_neg hnot, rstrip_append hw] at hstrip
  split_ifs at hstrip
  rw [← Option.some.inj hstrip]
  intro hmem
  exact space_notMem_verb hverb (List.mem_of_mem_take ((rstrip_isPrefix _).subset hmem))

theorem kept_isPrefix {head : ℕ} {r : Bytes} (h : kept head k = some r) : r <+: k := by
  rw [kept] at h
  split_ifs at h
  · rw [Option.some.inj h]
  · rw [← Option.some.inj h]
    exact (rstrip_isPrefix _).trans (List.take_prefix _ _)

/-- **The entry that a request addresses**, after stripping. -/
theorem addressed_strip (hverb : verb ∈ entryVerbs) (hline : SingleLine k) :
    (strip (keyRequest verb k)).bind addressed
      = (kept (verb.length + 2) k).map fun r ↦ CStr.ofBytes (firstField r) := by
  cases hkept : kept (verb.length + 2) k with
  | none =>
    cases hstrip : strip (keyRequest verb k) with
    | none => rfl
    | some message =>
      have hspace : find message 32 0 = none :=
        find_eq_none_iff.mpr (space_notMem_strip hverb hkept hstrip)
      rw [Option.bind_some, addressed, callOf, parts_eq, hspace]
      rfl
  | some r =>
    have hline' := hline.mono (kept_isPrefix hkept).subset
    rw [strip_keyRequest hkept, Option.bind_some, addressed_keyRequest hverb hline',
      Option.map_some]

/-- When a request is cut off, or throws. -/
theorem kept_eq_none_iff {head : ℕ} (hhead : 0 < head) (hlt : head < 2 ^ 31) :
    kept head k = none ↔
      0 < stripBound (head + k.length) ∧ stripBound (head + k.length) < head ∨
        (head + k.length) % 2 ^ 32 = 2 ^ 31 ∧
          ∃ b ∈ k[2 ^ 31 - head - 1]?, isWhiteSpace b = false := by
  have htop := stripBound_le_two_pow (head + k.length)
  have hbound := stripBound_le (head + k.length)
  have hle := (rstrip_isPrefix (k.take (stripBound (head + k.length) - head))).length_le
  rw [List.length_take] at hle
  rw [kept, ← stripBound_eq_top_iff]
  split_ifs with hzero hshort hfull
  · exact iff_of_false id (by omega)
  · exact iff_of_true rfl (Or.inl ⟨Nat.pos_of_ne_zero hzero, hshort⟩)
  · have hstart : stripBound (head + k.length) = 2 ^ 31 := by omega
    rw [hstart, show 2 ^ 31 - head = 2 ^ 31 - head - 1 + 1 by omega] at hfull
    refine iff_of_true rfl (Or.inr ⟨hstart, (length_rstrip_take_iff (by omega)).mp ?_⟩)
    omega
  · refine iff_of_false id ?_
    rintro (h | ⟨hstart, hbyte⟩)
    · exact hshort h.2
    · have hlast := (length_rstrip_take_iff (by omega)).mpr hbyte
      rw [hstart, show 2 ^ 31 - head = 2 ^ 31 - head - 1 + 1 by omega] at hfull
      omega

/-- Short requests lose their trailing whitespace only. -/
theorem kept_of_le {head : ℕ} (hhead : 0 < head) (hlen : head + k.length ≤ 2 ^ 31)
    (hshort : head + (rstrip k).length < 2 ^ 31) : kept head k = some (rstrip k) := by
  rw [kept, stripBound_of_le hlen, if_neg (by omega), if_neg (by omega),
    Nat.add_sub_cancel_left, List.take_length, if_neg hshort.ne]

/-! ## Plain keys and texts -/

/-- Printable text without quotes and backslashes that does not end in a space. -/
structure PlainText (t : Bytes) : Prop where
  /-- The characters stand for themselves in a JSON string. -/
  plain : t.all isPlain = true
  /-- The last one is not a space. -/
  last : t.getLast? ≠ some 32

/-- A key that is plain text without slashes. -/
structure PlainKey (key : CStr) : Prop where
  /-- The key is plain text. -/
  text : PlainText key.bytes
  /-- The key contains no slash. -/
  no_slash : 47 ∉ key.bytes

theorem notMem_of_plain {b : UInt8} (ht : t.all isPlain = true) (hb : isPlain b = false) :
    b ∉ t := by
  intro hmem
  rw [List.all_eq_true.mp ht b hmem] at hb
  exact absurd hb (by decide)

theorem PlainText.singleLine (ht : PlainText t) : SingleLine t :=
  ⟨notMem_of_plain ht.plain (by decide), notMem_of_plain ht.plain (by decide)⟩

theorem PlainText.nul_free (ht : PlainText t) : 0 ∉ t := notMem_of_plain ht.plain (by decide)

theorem PlainText.last_not_ws (ht : PlainText t) : ∀ b ∈ t.getLast?, isWhiteSpace b = false := by
  intro b hb
  have hmem := List.mem_of_getLast? hb
  have hspace : b ≠ 32 := by
    rintro rfl
    exact ht.last hb
  have hother : ∀ a : UInt8, isPlain a = false → b ≠ a := by
    rintro a ha rfl
    exact notMem_of_plain ht.plain ha hmem
  simp [isWhiteSpace, hspace, hother 0 (by decide), hother 10 (by decide), hother 13 (by decide),
    hother 9 (by decide)]

theorem PlainText.rstrip_eq (ht : PlainText t) : rstrip t = t :=
  rstrip_eq_self_iff.mpr ht.last_not_ws

theorem PlainText.solid_append {s : Bytes} (ht : PlainText t) (hs : Solid s) : Solid (s ++ t) := by
  cases t using List.reverseRecOn with
  | nil => rwa [List.append_nil]
  | append_singleton t b =>
    exact ⟨s ++ t, b, (List.append_assoc ..).symm, ht.last_not_ws b List.getLast?_concat⟩

theorem solid_keyRequest (hk : PlainText k) : Solid (keyRequest verb k) := by
  have hsep : Solid (verb ++ [32, 47]) := ⟨verb ++ [32], 47, by simp, by decide⟩
  have h := hk.solid_append hsep
  rwa [List.append_assoc] at h

theorem solid_textRequest (ht : PlainText t) : Solid (textRequest verb k t) := by
  have hsep : Solid (verb ++ 32 :: 47 :: (k ++ [47])) :=
    ⟨verb ++ 32 :: 47 :: k, 47, by simp, by decide⟩
  have h := ht.solid_append hsep
  rw [textRequest, keyRequest]
  simpa using h

/-! ## What the requests do -/

theorem Contents.get_concat (c : Contents) (k : Bytes) : c.get (k ++ [0]) =
    match Lru.find (CStr.ofBytes k) c.entries with
    | none => some (some c, .ok (some errorText))
    | some v =>
      if 0 ∈ v.bytes then
        some (some { c with entries := Lru.touch (CStr.ofBytes k) c.entries },
          .ok (some (jsonText k (v.bytes.takeWhile (· ≠ 0)))))
      else none := by
  rw [Contents.get, CStr.ofBytes_append_nul, List.dropLast_concat]
  cases Lru.find (CStr.ofBytes k) c.entries with
  | none => rfl
  | some v => simp

theorem act_get (hk : 47 ∉ k) (hline : SingleLine k) :
    c.act (keyRequest (ascii "GET") k) = c.get (k ++ [0]) := by
  rw [Contents.act, parts_keyRequest (by decide) ⟨by decide, by decide⟩ hk hline]
  rfl

theorem act_delete (hk : 47 ∉ k) (hline : SingleLine k) :
    c.act (keyRequest (ascii "DELETE") k) = some (some (c.delete (k ++ [0])), .ok none) := by
  rw [Contents.act, parts_keyRequest (by decide) ⟨by decide, by decide⟩ hk hline]
  rfl

theorem act_put (hk : 47 ∉ k) (hline : SingleLine k) (ht : SingleLine t) :
    c.act (textRequest (ascii "PUT") k t) = some (some (c.put k (t ++ [0])), .ok none) := by
  rw [Contents.act, parts_textRequest (by decide) ⟨by decide, by decide⟩ hk hline ht]
  rfl

theorem act_put_key (hk : 47 ∉ k) (hline : SingleLine k) :
    c.act (keyRequest (ascii "PUT") k) = some (some (c.put (k ++ [0]) []), .ok none) := by
  rw [Contents.act, parts_keyRequest (by decide) ⟨by decide, by decide⟩ hk hline]
  rfl

theorem act_post (ht : SingleLine t) :
    c.act (textRequest (ascii "POST") (ascii "memsize") t)
      = some (c.post (ascii "memsize") (t ++ [0])) := by
  rw [Contents.act, parts_textRequest (by decide) ⟨by decide, by decide⟩ (by decide)
    ⟨by decide, by decide⟩ ht]
  rfl

end Server

end NetCache
