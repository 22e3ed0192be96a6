import NetCache.Server.Parsing
import NetCache.Server.Truncation

/-!
# The key of a message

Two places where the positions in a message are taken on trust.

## Messages without a key

Without a slash behind the first space the successor of `npos` makes the whole first line the key,
verb included, and the handlers look it up, remove it and store under it. A `PUT` of that kind
stores an empty value under its own text. `slashless_unchanged_iff` says exactly which of these
messages leave the cache as it was: those whose first word is no verb of a request for a key, and
those for whose line there happens to be nothing to do, as when a `GET` does not find it.

## The key of an answer

`make_json` takes the last byte off its key, on the assumption that this is the `NUL` behind the
message. It is not when a slash or a line break ends the key before, and then a letter of the key is
lost; nor when the key has a `NUL` inside, where the lookup has stopped at the first one.
`get_answer_iff` says of every `GET` that hits when the key of the answer is the key that was looked
up: when the key of the message ends in its only `NUL`. An empty key has no last byte, and taking it
off is undefined.
-/

namespace NetCache

open Text

namespace Server

variable {c : Contents} {key value message : Bytes} {port : Option CacheObj}

/-! ## Messages without a key

Each handler is compared with doing nothing. The contents are unchanged if the entries and their
order are, so a `GET` that finds the most recent entry changes nothing either. -/

/-- There is no slash behind the first space. -/
def Slashless (message : Bytes) : Prop :=
  ∀ i, find message 32 0 = some i → 47 ∉ message.drop (i + 1)

/-- The word before the first space. -/
def firstWord (message : Bytes) : Option Bytes := (find message 32 0).map message.take

/-- The messages without a slash that leave the cache as it was, although their first line is taken
for a key. -/
structure Contents.Ignores (c : Contents) (message : Bytes) : Prop where
  /-- A `GET` does not find the line, or uses what was used last. -/
  get : firstWord message = some (ascii "GET") →
    CStr.ofBytes (firstLine message) ∉ Lru.keys c.entries ∨
      c.MostRecent (CStr.ofBytes (firstLine message)) fun v ↦ 0 ∈ v.bytes
  /-- A `PUT` stores the empty value that is the most recent one already. -/
  put : firstWord message = some (ascii "PUT") → c.spaceUsed ≤ c.limit ∧
    c.MostRecent (CStr.ofBytes (firstLine message)) fun v ↦ v.bytes = []
  /-- A `DELETE` does not find the line. -/
  delete : firstWord message = some (ascii "DELETE") →
    CStr.ofBytes (firstLine message) ∉ Lru.keys c.entries

theorem firstLine_of_firstWord {fword : Bytes} (hword : firstWord message = some fword)
    (hline : SingleLine fword) : ∃ line, firstLine message = fword ++ line := by
  obtain ⟨i, -, rfl⟩ := Option.map_eq_some_iff.mp hword
  refine ⟨firstLine (message.drop i), ?_⟩
  rw [← firstLine_append hline, List.take_append_drop]

theorem parts_slashless {fword : Bytes} (h : Slashless message)
    (hword : firstWord message = some fword) (hfword : 47 ∉ fword) :
    parts message = some ⟨fword, firstLine message, []⟩ := by
  obtain ⟨i, hi, rfl⟩ := Option.map_eq_some_iff.mp hword
  have hslash : 47 ∉ message := by
    obtain ⟨p, q, hmessage, -, hlen⟩ := find_eq_some hi
    rw [List.drop_zero] at hmessage
    rw [Nat.zero_add] at hlen
    have hdrop := h i hi
    rw [hmessage, hlen, List.take_left] at hfword
    rw [hmessage, hlen, List.append_cons, List.drop_left' (by simp)] at hdrop
    rw [hmessage]
    simp [hfword, hdrop]
  have hstart : keyStart message = 0 := by
    rw [keyStart, find_eq_none fun hmem ↦ hslash (List.mem_of_mem_drop hmem), afterPos]
  have hbody : body message = firstLine message := by rw [body, hstart, List.drop_zero]
  have hnoslash : 47 ∉ firstLine message := by
    intro hmem
    rcases List.mem_append.mp ((firstLine_isPrefix message).subset hmem) with hmem | hmem
    · exact hslash hmem
    · exact absurd hmem (by decide)
  rw [parts_eq, hi, Option.bind_some, hstart, List.drop_zero, hbody, firstField, secondField,
    (takeWhile_noSlash hnoslash).1, (takeWhile_noSlash hnoslash).2,
    if_pos ⟨Nat.zero_le _, fun hmem ↦ absurd hmem hslash⟩]

theorem Contents.post_line (c : Contents) (line extraInfo : Bytes) :
    ∃ outcome, c.post (ascii "POST" ++ line) extraInfo = (some c, outcome) := by
  cases hstrip : strip (ascii "POST" ++ line) with
  | none => exact ⟨_, by rw [Contents.post, hstrip]⟩
  | some word =>
    have hother : ∀ word' : Bytes, word'.head?.any (· ≠ 80) = true → word ≠ word' := by
      rintro word' hword rfl
      have hpre := strip_isPrefix hstrip
      cases word with
      | nil => simp at hword
      | cons b s =>
        obtain rfl : b = 80 := (List.cons_prefix_cons.mp hpre).1
        simp at hword
    refine ⟨.error .badPostMessage, ?_⟩
    rw [Contents.post, hstrip]
    simp only
    rw [if_neg (hother _ (by decide)), if_neg (hother _ (by decide))]

theorem Contents.get_ok {e : Option Contents} {outcome : Except Thrown (Option Bytes)}
    (h : c.get key = some (e, outcome)) : ∃ reply, outcome = .ok reply := by
  rw [Contents.get] at h
  split at h
  · exact ⟨_, (congrArg Prod.snd (Option.some.inj h)).symm⟩
  · split_ifs at h
    exact ⟨_, (congrArg Prod.snd (Option.some.inj h)).symm⟩

theorem Contents.get_line_iff (hnd : (Lru.keys c.entries).Nodup) (hkey : key ≠ []) :
    (∃ outcome, c.get key = some (some c, outcome)) ↔ CStr.ofBytes key ∉ Lru.keys c.entries ∨
      c.MostRecent (CStr.ofBytes key) fun v ↦ 0 ∈ v.bytes := by
  rw [← and_iff_right (b := c.MostRecent _ _) hkey, ← Contents.get_unchanged_iff hnd]
  constructor
  · rintro ⟨outcome, h⟩
    obtain ⟨reply, rfl⟩ := Contents.get_ok h
    exact ⟨reply, h⟩
  · rintro ⟨reply, h⟩
    exact ⟨_, h⟩

theorem Contents.put_empty_iff (hnd : (Lru.keys c.entries).Nodup) :
    c.put key [] = c ↔
      c.spaceUsed ≤ c.limit ∧ c.MostRecent (CStr.ofBytes key) fun v ↦ v.bytes = [] := by
  have hvalue : ∀ v : Value, v = putValue [] ↔ v.bytes = [] := fun v ↦ Value.ext_iff
  have hsize : (putValue []).size.toUInt64 ≤ c.limit := by
    rw [UInt64.le_iff_toNat_le]
    exact Nat.zero_le _
  have hiff : (∃ reply, (some (some (c.put key []), .ok none) : Option Ended)
      = some (some c, .ok reply)) ↔ _ := Contents.put_unchanged_iff hnd
  simp only [hvalue, hsize, UInt64.not_lt.mpr hsize, false_and, false_or, true_and] at hiff
  rw [← hiff]
  simp

theorem Contents.act_slashless_get (hnd : (Lru.keys c.entries).Nodup) (h : Slashless message)
    (hword : firstWord message = some (ascii "GET")) :
    (∃ outcome, c.act message = some (some c, outcome)) ↔
      CStr.ofBytes (firstLine message) ∉ Lru.keys c.entries ∨
        c.MostRecent (CStr.ofBytes (firstLine message)) fun v ↦ 0 ∈ v.bytes := by
  obtain ⟨line, hline⟩ := firstLine_of_firstWord hword ⟨by decide, by decide⟩
  have hact : c.act message = c.get (firstLine message) := by
    rw [Contents.act, parts_slashless h hword (by decide)]
    rfl
  rw [hact, Contents.get_line_iff hnd (by simp [hline, ascii])]

theorem Contents.act_slashless_put (hnd : (Lru.keys c.entries).Nodup) (h : Slashless message)
    (hword : firstWord message = some (ascii "PUT")) :
    (∃ outcome, c.act message = some (some c, outcome)) ↔ c.spaceUsed ≤ c.limit ∧
      c.MostRecent (CStr.ofBytes (firstLine message)) fun v ↦ v.bytes = [] := by
  have hact : c.act message = some (some (c.put (firstLine message) []), .ok none) := by
    rw [Contents.act, parts_slashless h hword (by decide)]
    rfl
  rw [hact, ← Contents.put_empty_iff hnd]
  simp

theorem Contents.act_slashless_delete (h : Slashless message)
    (hword : firstWord message = some (ascii "DELETE")) :
    (∃ outcome, c.act message = some (some c, outcome)) ↔
      CStr.ofBytes (firstLine message) ∉ Lru.keys c.entries := by
  have hact : c.act message = some (some (c.delete (firstLine message)), .ok none) := by
    rw [Contents.act, parts_slashless h hword (by decide)]
    rfl
  obtain ⟨limit, entries⟩ := c
  rw [hact, ← Lru.remove_eq_self_iff]
  simp [Contents.delete]

theorem Contents.act_slashless_other (c : Contents) (h : Slashless message)
    (hget : firstWord message ≠ some (ascii "GET")) (hput : firstWord message ≠ some (ascii "PUT"))
    (hdelete : firstWord message ≠ some (ascii "DELETE")) :
    ∃ outcome, c.act message = some (some c, outcome) := by
  rw [Contents.act]
  cases hparts : parts message with
  | none => exact ⟨_, rfl⟩
  | some p =>
    obtain ⟨fword, info1, info2⟩ := p
    have hword : firstWord message = some fword := by
      obtain ⟨⟨i, hi, rfl⟩, -, -⟩ := parts_eq_some hparts
      rw [firstWord, hi, Option.map_some]
    rw [hword, Ne, Option.some.injEq] at hget hput hdelete
    simp only
    rw [if_neg hget, if_neg hput, if_neg hdelete]
    split_ifs with hhead hpost
    · exact ⟨_, rfl⟩
    · subst hpost
      obtain ⟨line, hline⟩ := firstLine_of_firstWord hword ⟨by decide, by decide⟩
      rw [parts_slashless h hword (by decide), hline] at hparts
      obtain ⟨-, rfl, rfl⟩ := Parts.mk.inj (Option.some.inj hparts)
      obtain ⟨outcome, hpost⟩ := c.post_line line []
      exact ⟨outcome, congrArg some hpost⟩
    · exact ⟨_, rfl⟩

/-- Which messages without a slash leave the contents as they were. -/
theorem Contents.act_slashless_iff (hnd : (Lru.keys c.entries).Nodup) (h : Slashless message) :
    (∃ outcome, c.act message = some (some c, outcome)) ↔ c.Ignores message := by
  constructor
  · intro hact
    exact ⟨fun hword ↦ (c.act_slashless_get hnd h hword).mp hact,
      fun hword ↦ (c.act_slashless_put hnd h hword).mp hact,
      fun hword ↦ (c.act_slashless_delete h hword).mp hact⟩
  · intro hignores
    by_cases hget : firstWord message = some (ascii "GET")
    · exact (c.act_slashless_get hnd h hget).mpr (hignores.get hget)
    by_cases hput : firstWord message = some (ascii "PUT")
    · exact (c.act_slashless_put hnd h hput).mpr (hignores.put hput)
    by_cases hdelete : firstWord message = some (ascii "DELETE")
    · exact (c.act_slashless_delete h hdelete).mpr (hignores.delete hdelete)
    · exact c.act_slashless_other h hget hput hdelete

theorem unchanged_act_iff {s : State} (h : Keeps s.port (some c)) :
    (∃ handled, actOnMessage s.port message = some handled ∧
      Unchanged s ⟨handled.port, s.recbuf⟩) ↔
      ∃ outcome, c.act message = some (some c, outcome) := by
  have hrel := actOnMessage_refines h message
  generalize actOnMessage s.port message = handled? at hrel
  generalize c.act message = ended? at hrel
  cases hrel with
  | none => simp
  | some hrefines =>
    rename_i handled ended
    obtain ⟨contents, outcome⟩ := ended
    constructor
    · rintro ⟨handled', heq, hunchanged⟩
      obtain rfl := Option.some.inj heq
      rw [unchanged_iff h hrefines.port] at hunchanged
      exact ⟨outcome, congrArg some (Prod.ext hunchanged rfl)⟩
    · rintro ⟨outcome', heq⟩
      obtain ⟨hcontents, -⟩ := Prod.mk.inj (Option.some.inj heq)
      exact ⟨handled, rfl, (unchanged_iff h hrefines.port).mpr hcontents⟩

/-- **A message without a slash** behind its first space leaves the cache as it was exactly when
its first word is no verb of a request for a key, or its first line happens to be a key for which
there is nothing to do. -/
theorem slashless_unchanged_iff {s : State} (hs : Reachable s) (h : Slashless message) :
    ∃ c, Keeps s.port (some c) ∧
      ((∃ handled, actOnMessage s.port message = some handled ∧
        Unchanged s ⟨handled.port, s.recbuf⟩) ↔ c.Ignores message) := by
  obtain ⟨c, hc⟩ := hs.keeps
  refine ⟨c, hc, ?_⟩
  rw [unchanged_act_iff hc, Contents.act_slashless_iff hc.nodup_keys h]

theorem slashless_put : Slashless (ascii "PUT x") := by
  intro i hi
  obtain rfl : 3 = i := Option.some.inj hi
  decide

theorem slashless_unchanged_iff_example : ∃ c, Keeps (start 100 (filled 0)).port (some c) ∧
    ((∃ handled, actOnMessage (start 100 (filled 0)).port (ascii "PUT x") = some handled ∧
      Unchanged (start 100 (filled 0)) ⟨handled.port, (start 100 (filled 0)).recbuf⟩) ↔
        c.Ignores (ascii "PUT x")) :=
  slashless_unchanged_iff (.start 100 (filled 0)) slashless_put

/-- A `PUT` without a slash stores an empty value under its own text. -/
theorem slashless_put_stores : ∃ handled cache,
    Slashless (ascii "PUT x") ∧
      actOnMessage (start 100 (filled 0)).port (ascii "PUT x") = some handled ∧
      handled.port = some cache ∧
      cache.reads (CStr.ofBytes (ascii "PUT x")) = some (some [], 0) ∧
      ¬ Unchanged (start 100 (filled 0)) ⟨handled.port, (start 100 (filled 0)).recbuf⟩ := by
  refine ⟨_, _, slashless_put, rfl, rfl, rfl, ?_⟩
  rintro ⟨cache, cache', hport, hport', hsame, -⟩
  obtain rfl := Option.some.inj hport
  obtain rfl := Option.some.inj hport'
  exact absurd (hsame.reads (CStr.ofBytes (ascii "PUT x"))) (by decide)

/-! ## The key of an answer -/

/-- Behind the start of the key, the first of a `NUL`, a slash, a line break is a `NUL`, and then
comes the end of the message, a slash or a line break. -/
def KeyEndsInNul (message : Bytes) : Prop :=
  ∃ k rest, (message ++ [0]).drop (keyStart message) = k ++ 0 :: rest ∧
    (∀ b ∈ k, b ≠ 0 ∧ b ≠ 47 ∧ isLineBreak b = false) ∧
    ∀ b ∈ rest.head?, b = 47 ∨ isLineBreak b = true

theorem takeWhile_eq_iff {p : UInt8 → Bool} {s t : Bytes} :
    s.takeWhile p = t ↔
      ∃ rest, s = t ++ rest ∧ (∀ b ∈ t, p b = true) ∧ ∀ b ∈ rest.head?, p b = false := by
  constructor
  · rintro rfl
    refine ⟨s.dropWhile p, List.takeWhile_append_dropWhile.symm, ?_, ?_⟩
    · exact fun b hb ↦ List.mem_takeWhile_imp hb
    · intro b hb
      have hhead := List.head?_dropWhile_not p s
      rwa [Option.mem_def.mp hb] at hhead
  · rintro ⟨rest, rfl, ht, hrest⟩
    rw [List.takeWhile_append_of_pos ht]
    cases rest with
    | nil => simp
    | cons b rest => rw [List.takeWhile_cons_of_neg (by simp [hrest b rfl]), List.append_nil]

theorem body_eq_takeWhile (h : keyStart message ≤ endOfLine message) :
    body message = ((message ++ [0]).drop (keyStart message)).takeWhile fun b ↦ !isLineBreak b := by
  obtain ⟨rest, hrest, hline, hhead⟩ := takeWhile_eq_iff.mp (rfl : _ = firstLine message)
  refine (takeWhile_eq_iff.mpr ⟨rest, ?_, ?_, hhead⟩).symm
  · rw [hrest, List.drop_append_of_le_length (by rwa [length_firstLine]), body]
  · exact fun b hb ↦ hline b (List.mem_of_mem_drop hb)

/-- Taking the last byte off leaves the string up to its first `NUL` exactly when that `NUL` is the
last byte. -/
theorem dropLast_eq_takeWhile_iff {s : Bytes} :
    s ≠ [] ∧ s.dropLast = s.takeWhile (· ≠ 0) ↔ ∃ k, 0 ∉ k ∧ s = k ++ [0] := by
  constructor
  · rintro ⟨hs, hlast⟩
    have hconcat := List.dropLast_append_getLast hs
    have hfree : 0 ∉ s.dropLast := hlast ▸ (CStr.ofBytes s).nul_free
    refine ⟨s.dropLast, hfree, ?_⟩
    by_cases hnul : s.getLast hs = 0
    · rw [← hnul, hconcat]
    · -- without a `NUL` the whole string is read
      have hwhole : s.takeWhile (· ≠ 0) = s := by
        apply CStr.bytes_ofBytes
        rw [← hconcat]
        simpa [hfree] using Ne.symm hnul
      have hlength := congrArg List.length (hlast.trans hwhole)
      rw [List.length_dropLast] at hlength
      have := List.length_pos_iff.mpr hs
      omega
  · rintro ⟨k, hk, rfl⟩
    exact ⟨by simp, by rw [List.dropLast_concat]; exact (CStr.bytes_ofBytes_append hk).symm⟩

theorem keyEndsInNul_iff (h : keyStart message ≤ endOfLine message) : KeyEndsInNul message ↔
    ∃ k, 0 ∉ k ∧ firstField (body message) = k ++ [0] := by
  rw [body_eq_takeWhile h, firstField, List.takeWhile_takeWhile]
  simp only [takeWhile_eq_iff, Bool.not_eq_true', Bool.decide_and, decide_eq_true_eq]
  constructor
  · rintro ⟨k, rest, hdrop, hk, hrest⟩
    refine ⟨k, fun hmem ↦ (hk 0 hmem).1 rfl, rest, by simpa using hdrop, ?_, ?_⟩
    · intro b hb
      rcases List.mem_append.mp hb with hb | hb
      · simp [(hk b hb).2]
      · rw [List.mem_singleton.mp hb]
        decide
    · intro b hb
      rcases hrest b hb with rfl | hbreak
      · rfl
      · simp [hbreak]
  · rintro ⟨k, hfree, rest, hdrop, hk, hrest⟩
    refine ⟨k, rest, by simpa using hdrop, ?_, ?_⟩
    · intro b hb
      have hb' := hk b (List.mem_append_left _ hb)
      refine ⟨fun h0 ↦ hfree (h0 ▸ hb), by simpa using hb'⟩
    · intro b hb
      have hb' := hrest b hb
      rcases Decidable.em (b = 47) with h47 | h47
      · exact Or.inl h47
      · exact Or.inr (by simpa [h47] using hb')

theorem jsonText_inj {key' : Bytes} : jsonText key value = jsonText key' value ↔ key = key' := by
  simp only [jsonText, List.append_assoc, List.append_cancel_left_eq]
  simp only [← List.append_assoc, List.append_cancel_right_eq]

theorem exists_port_iff (h : Keeps port (some c)) {outcome : Except Thrown (Option Bytes)} :
    (∃ port', actOnMessage port message = some ⟨port', outcome⟩) ↔
      ∃ e, c.act message = some (e, outcome) := by
  have hrel := actOnMessage_refines h message
  generalize actOnMessage port message = handled? at hrel
  generalize c.act message = ended? at hrel
  cases hrel with
  | none => simp
  | some hrefines =>
    rename_i handled ended
    constructor
    · rintro ⟨port', heq⟩
      obtain rfl := Option.some.inj heq
      exact ⟨ended.1, congrArg some (Prod.ext rfl hrefines.outcome.symm)⟩
    · rintro ⟨e, heq⟩
      obtain rfl := Option.some.inj heq
      obtain rfl : handled.outcome = outcome := hrefines.outcome
      exact ⟨handled.port, rfl⟩

/-- **The key of an answer** is the key that was looked up exactly when the key of the message ends
in its only `NUL`. There is an answer when the stored value has an end. -/
theorem get_answer_iff {s : State} (hs : Reachable s) {cache : CacheObj}
    (hport : s.port = some cache) {info1 info2 v : Bytes} {valSize : UInt32}
    (hparts : parts message = some ⟨ascii "GET", info1, info2⟩)
    (hhit : cache.reads (CStr.ofBytes info1) = some (some v, valSize)) :
    (info1 ≠ [] ∧ ∃ port', actOnMessage s.port message = some ⟨port', .ok (some
        (jsonText (CStr.ofBytes info1).bytes (v.takeWhile (· ≠ 0))))⟩) ↔
      KeyEndsInNul message ∧ 0 ∈ v := by
  obtain ⟨c, hc⟩ := hs.keeps
  have hstart : keyStart message ≤ endOfLine message := by
    have hsome : (parts message).isSome := by simp [hparts]
    exact (wellOrdered_iff.mp (parts_isSome_iff.mp hsome)).2.1
  obtain ⟨-, rfl, -⟩ := parts_eq_some hparts
  obtain ⟨w, hfind, rfl⟩ : ∃ w,
      Lru.find (CStr.ofBytes (firstField (body message))) c.entries = some w ∧ w.bytes = v := by
    rw [hport] at hc
    rw [hc.reads_eq, Option.some.injEq, Prod.mk.injEq] at hhit
    exact Option.map_eq_some_iff.mp hhit.1
  have hact : c.act message = c.get (firstField (body message)) := by
    rw [Contents.act, hparts]
    rfl
  rw [exists_port_iff hc, hact, Contents.get, hfind, keyEndsInNul_iff hstart,
    ← dropLast_eq_takeWhile_iff]
  simp only
  split_ifs with hok
  · simp [hok.1, hok.2, jsonText_inj, CStr.ofBytes]
  · refine iff_of_false (by simp) ?_
    rintro ⟨⟨hkey, -⟩, hv⟩
    exact hok ⟨hv, hkey⟩

theorem get_answer_iff_example : ∃ s port', Reachable s ∧
    actOnMessage s.port (ascii "GET /k") = some ⟨port', .ok (some
      (jsonText (ascii "k") (ascii "v")))⟩ := by
  obtain ⟨s, cache, hstep, hport, hhit⟩ : ∃ s cache,
      (start 100 (filled 0)).step (.stream [ascii "PUT /k/v" ++ [0]]) = some (s, .ok none) ∧
      s.port = some cache ∧ cache.reads (CStr.ofBytes (ascii "k" ++ [0]))
        = some (some (ascii "v" ++ [0]), 2) := ⟨_, _, rfl, rfl, rfl⟩
  have hreach : Reachable s := .step (.start 100 (filled 0)) hstep
  have hkey : KeyEndsInNul (ascii "GET /k") := by
    refine ⟨[107], [], rfl, ?_, by simp⟩
    intro b hb
    obtain rfl := List.mem_singleton.mp hb
    decide
  have hparts : parts (ascii "GET /k") = some ⟨ascii "GET", ascii "k" ++ [0], []⟩ := rfl
  obtain ⟨-, port', hact⟩ :=
    (get_answer_iff hreach hport hparts hhit).mpr ⟨hkey, by decide⟩
  exact ⟨s, port', hreach, hact⟩

/-- A slash behind the key takes the last letter off the key of the answer, and an empty key has no
last letter. -/
theorem get_answer_loses_letter :
    (∃ s cache port', Reachable s ∧ s.port = some cache ∧
      parts (ascii "GET /k/") = some ⟨ascii "GET", ascii "k", [0]⟩ ∧
      cache.reads (CStr.ofBytes (ascii "k")) = some (some (ascii "v" ++ [0]), 2) ∧
      actOnMessage s.port (ascii "GET /k/")
        = some ⟨port', .ok (some (jsonText [] (ascii "v")))⟩) ∧
    ∃ s cache, Reachable s ∧ s.port = some cache ∧
      parts (ascii "GET //") = some ⟨ascii "GET", [], [0]⟩ ∧
      cache.reads (CStr.ofBytes []) = some (some (ascii "v" ++ [0]), 2) ∧
      actOnMessage s.port (ascii "GET //") = none := by
  have hreach : ∀ {s piece}, (start 100 (filled 0)).step (.stream [piece]) = some (s, .ok none) →
      Reachable s := fun hstep ↦ .step (.start 100 (filled 0)) hstep
  constructor
  · obtain ⟨s, cache, port', hstep, hrest⟩ : ∃ s cache port',
        (start 100 (filled 0)).step (.stream [ascii "PUT /k/v" ++ [0]]) = some (s, .ok none) ∧
          s.port = some cache ∧
          parts (ascii "GET /k/") = some ⟨ascii "GET", ascii "k", [0]⟩ ∧
          cache.reads (CStr.ofBytes (ascii "k")) = some (some (ascii "v" ++ [0]), 2) ∧
          actOnMessage s.port (ascii "GET /k/")
            = some ⟨port', .ok (some (jsonText [] (ascii "v")))⟩ :=
      ⟨_, _, _, rfl, rfl, rfl, rfl, rfl⟩
    exact ⟨s, cache, port', hreach hstep, hrest⟩
  · obtain ⟨s, cache, hstep, hrest⟩ : ∃ s cache,
        (start 100 (filled 0)).step (.stream [ascii "PUT //v" ++ [0]]) = some (s, .ok none) ∧
          s.port = some cache ∧ parts (ascii "GET //") = some ⟨ascii "GET", [], [0]⟩ ∧
          cache.reads (CStr.ofBytes []) = some (some (ascii "v" ++ [0]), 2) ∧
          actOnMessage s.port (ascii "GET //") = none := ⟨_, _, rfl, rfl, rfl, rfl, rfl⟩
    exact ⟨s, cache, hreach hstep, hrest⟩

end Server

end NetCache
