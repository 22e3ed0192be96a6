import NetCache.Client.Calls
import NetCache.Text.JsonVendored

/-!
# Keys and values in a reply

The server puts the key and the value of a reply between quotes as they are, and the client reads
the reply with a JSON library. `roundTrip_iff` says which keys and values come back: those that need
no escapes, whatever the library makes of escapes.

## No accidents

There is no pair that comes back by accident, although an unescaped quote lets the server write
objects of any form. The client looks for the members by name. Suppose it gets back both the key and
the value. Each of them is then a member that was read, and it was read either from where it was
put, or from a string inside of the other one, which is shorter than what it is inside of. Both
cannot be shorter than each other, and if one was read from its place, so was the other
(`decode_of_mem`).

A string that is read from its place and stands for itself has no quotes and no backslashes, and the
library accepts it. That is what needing no escapes means.

## The vendored library

For the dialect of the library that the client is built with, the condition is on single bytes: no
quote, no backslash, and nothing below 16 (`roundTrips_vendored_iff`).
-/

namespace NetCache

open Text

namespace Client

variable {lib : JsonLib} {D : Dialect} {k v name s : Bytes}
variable {tsk tsv : List Token} {rawk rawv : Bytes} {members : List (Bytes × Option Bytes)}

/-! ## The tokens of a reply

The reply is a template with the key and the value between quotes. Scanning it gives the tokens
of the template, with those of the key and of the value in their places, where the last string of
each is still open when the template goes on. -/

/-- The text in front of the key. -/
def beforeKey : Bytes := ascii "\x7b \"key\": \""

/-- The text between the key and the value. -/
def beforeValue : Bytes := ascii "\" , \"value\": \""

/-- The text behind the value. -/
def behindValue : Bytes := ascii "\" \x7d "

/-- The tokens of a member whose value is scanned as `ts` and, at its end, `raw`. -/
def memberTokens (name : Bytes) (ts : List Token) (raw : Bytes) : List Token :=
  .str name :: .punct 58 :: (ts ++ [.str raw])

/-- The tokens of a reply. -/
def replyTokens (tsk : List Token) (rawk : Bytes) (tsv : List Token) (rawv : Bytes) : List Token :=
  .punct 123 :: (memberTokens (ascii "key") tsk rawk ++
    .punct 44 :: (memberTokens (ascii "value") tsv rawv ++ [.punct 125]))

theorem jsonText_eq (k v : Bytes) :
    Server.jsonText k v = beforeKey ++ (k ++ (beforeValue ++ (v ++ behindValue))) := by
  simp only [Server.jsonText, beforeKey, beforeValue, behindValue, List.append_assoc]

theorem scan_beforeKey :
    scan .out beforeKey = ([.punct 123, .str (ascii "key"), .punct 58], .str []) := by
  decide

theorem scan_beforeValue (raw : Bytes) : scan (.str raw) beforeValue
    = ([.str raw, .punct 44, .str (ascii "value"), .punct 58], .str []) := rfl

theorem scan_behindValue (raw : Bytes) :
    scan (.str raw) behindValue = ([.str raw, .punct 125], .out) := rfl

/-- If the key ends outside its string, the name of the value stands beside a string. -/
theorem scan_beforeValue_of_ne {m : Mode} (h : ∀ raw, m ≠ .str raw) : ∃ ts,
    scan m beforeValue = (ts ++ [.word (ascii "value"), .str (ascii ": ")], .out) := by
  cases m with
  | out => exact ⟨[.str (ascii " , ")], rfl⟩
  | word w => exact ⟨[.word w, .str (ascii " , ")], rfl⟩
  | str raw => exact absurd rfl (h raw)
  | esc raw => exact ⟨[.str (raw ++ [34] ++ [32] ++ [44] ++ [32])], rfl⟩

theorem finish_behindValue_of_ne {m : Mode} (h : ∀ raw, m ≠ .str raw) :
    (scan m behindValue).2.finish = none := by
  cases m with
  | out => rfl
  | word w => rfl
  | str raw => exact absurd rfl (h raw)
  | esc raw => rfl

theorem tokens_jsonText (hk : scan (.str []) k = (tsk, .str rawk))
    (hv : scan (.str []) v = (tsv, .str rawv)) :
    tokens (Server.jsonText k v) = some (replyTokens tsk rawk tsv rawv) := by
  rw [tokens, jsonText_eq]
  simp only [scan_append, scan_beforeKey, hk, scan_beforeValue, hv, scan_behindValue, Mode.finish,
    Option.map_some, replyTokens, memberTokens]
  simp

theorem filter_replyTokens (tsk : List Token) (rawk : Bytes) (tsv : List Token) (rawv : Bytes) :
    (replyTokens tsk rawk tsv rawv).filter D.reads
      = replyTokens (tsk.filter D.reads) rawk (tsv.filter D.reads) rawv := by
  simp [replyTokens, memberTokens, List.filter_cons]

/-- **What is accepted**: a reply that is a JSON text has its key and its value end in the strings
they begin. -/
theorem exists_scan_of_read (h : D.read (Server.jsonText k v) = some members) :
    ∃ tsk rawk tsv rawv r, scan (.str []) k = (tsk, .str rawk) ∧
      scan (.str []) v = (tsv, .str rawv) ∧
      Reader.start.steps D (replyTokens (tsk.filter D.reads) rawk (tsv.filter D.reads) rawv)
        = some r ∧ r.members = members := by
  rw [Dialect.read] at h
  obtain ⟨ts, hts, h⟩ := Option.bind_eq_some_iff.mp h
  obtain ⟨r, hsteps, h⟩ := Option.bind_eq_some_iff.mp h
  split_ifs at h
  have hmembers := Option.some.inj h
  rw [tokens, jsonText_eq] at hts
  rcases hk : scan (.str []) k with ⟨tsk, mk⟩
  rcases hv : scan (.str []) v with ⟨tsv, mv⟩
  simp only [scan_append, scan_beforeKey, hk] at hts
  by_cases hmk : ∃ raw, mk = .str raw
  · obtain ⟨rawk, rfl⟩ := hmk
    by_cases hmv : ∃ raw, mv = .str raw
    · obtain ⟨rawv, rfl⟩ := hmv
      have htokens := tokens_jsonText hk hv
      rw [tokens, jsonText_eq] at htokens
      simp only [scan_append, scan_beforeKey, hk] at htokens
      obtain rfl := Option.some.inj (htokens.symm.trans hts)
      rw [filter_replyTokens] at hsteps
      exact ⟨tsk, rawk, tsv, rawv, r, rfl, rfl, hsteps, hmembers⟩
    · -- the quote behind the value opens a string
      have hfinish := finish_behindValue_of_ne fun raw hraw ↦ hmv ⟨raw, hraw⟩
      simp only [scan_beforeValue, hv, hfinish, Option.map_none] at hts
      cases hts
  · -- the quotes around the name of the value close one string and open another
    obtain ⟨ts', hscan⟩ := scan_beforeValue_of_ne fun raw hraw ↦ hmk ⟨raw, hraw⟩
    simp only [hscan] at hts
    obtain ⟨rest, -, rfl⟩ := Option.map_eq_some_iff.mp hts
    have hvalue : D.blank (ascii "value") = false := D.blank_plain _ (by decide) (by decide)
    have hnone := steps_adjacent (D := D) (a := .word (ascii "value")) (b := .str (ascii ": "))
      trivial trivial .start ([.punct 123, .str (ascii "key"), .punct 58] ++
        (tsk.filter D.reads ++ ts'.filter D.reads))
      (((scan .out v).1 ++ ((scan (scan .out v).2 behindValue).1 ++ rest)).filter D.reads)
    simp only [List.filter_append, List.filter_cons, Dialect.reads_punct, Dialect.reads_str,
      Dialect.reads_word, hvalue, List.append_assoc, List.cons_append, List.nil_append,
      Bool.not_false, if_true] at hsteps hnone
    rw [hnone] at hsteps
    cases hsteps

/-! ## Where the strings come from

A member that was read is found among these tokens as a name, a colon and a string. Each of the
possible places is in the template, in the key, or in the value. -/

theorem not_hasMember_nil : ¬ HasMember D [] name s := by
  rintro ⟨p, raw, raw', q, h, -⟩
  simp at h

theorem hasMember_replyTokens (h : HasMember D (replyTokens tsk rawk tsv rawv) name s) :
    HasMember D (memberTokens (ascii "key") tsk rawk) name s ∨
      HasMember D (memberTokens (ascii "value") tsv rawv) name s := by
  have h : HasMember D ([] ++ replyTokens tsk rawk tsv rawv) name s := h
  rcases h.of_punct (by decide) with h | h
  · exact absurd h not_hasMember_nil
  · rcases h.of_punct (by decide) with h | h
    · exact Or.inl h
    · rcases h.of_punct (by decide) with h | h
      · exact Or.inr h
      · exact absurd h not_hasMember_nil

theorem decode_key : D.decode (ascii "key") = some (ascii "key") :=
  D.decode_plain _ (by decide)

theorem decode_value : D.decode (ascii "value") = some (ascii "value") :=
  D.decode_plain _ (by decide)

/-- The members within a key or a value: it is their only string, or they have shorter ones. -/
theorem hasMember_memberTokens {m text raw : Bytes} {ts : List Token} (hm : D.decode m = some m)
    (hscan : scan (.str []) text = (ts, .str raw))
    (h : HasMember D (memberTokens m (ts.filter D.reads) raw) name s) :
    (ts = [] ∧ m = name ∧ D.decode text = some s) ∨ (ts ≠ [] ∧ s.length < text.length) := by
  rcases h.of_scan hscan with ⟨hnil, hname, hs⟩ | hshort
  · exact Or.inl ⟨hnil, Option.some.inj (hm.symm.trans hname), hs⟩
  · exact Or.inr hshort

/-- **No accidents.** A string that is the key of a reply or its value without being read from the
right place is shorter than what it is read from, and not both can be. -/
theorem decode_of_mem (hread : D.read (Server.jsonText k v) = some members)
    (hkey : (ascii "key", some k) ∈ members) (hvalue : (ascii "value", some v) ∈ members) :
    D.decode k = some k ∧ D.decode v = some v := by
  have hne : ascii "key" ≠ ascii "value" := by decide
  obtain ⟨tsk, rawk, tsv, rawv, r, hk, hv, hsteps, rfl⟩ := exists_scan_of_read hread
  have hkeyCases : (tsk = [] ∧ D.decode k = some k) ∨ (tsv ≠ [] ∧ k.length < v.length) := by
    rcases hasMember_replyTokens (exists_member hsteps hkey) with h | h
    · rcases hasMember_memberTokens decode_key hk h with ⟨hnil, -, hdecode⟩ | ⟨-, hlt⟩
      · exact Or.inl ⟨hnil, hdecode⟩
      · exact absurd hlt (lt_irrefl _)
    · rcases hasMember_memberTokens decode_value hv h with ⟨-, hname, -⟩ | hshort
      · exact absurd hname.symm hne
      · exact Or.inr hshort
  have hvalueCases : (tsv = [] ∧ D.decode v = some v) ∨ (tsk ≠ [] ∧ v.length < k.length) := by
    rcases hasMember_replyTokens (exists_member hsteps hvalue) with h | h
    · rcases hasMember_memberTokens decode_key hk h with ⟨-, hname, -⟩ | hshort
      · exact absurd hname hne
      · exact Or.inr hshort
    · rcases hasMember_memberTokens decode_value hv h with ⟨hnil, -, hdecode⟩ | ⟨-, hlt⟩
      · exact Or.inl ⟨hnil, hdecode⟩
      · exact absurd hlt (lt_irrefl _)
  rcases hkeyCases with ⟨hknil, hk⟩ | ⟨hvcons, hlt⟩
  · rcases hvalueCases with ⟨-, hv⟩ | ⟨hkcons, -⟩
    · exact ⟨hk, hv⟩
    · exact absurd hknil hkcons
  · rcases hvalueCases with ⟨hvnil, -⟩ | ⟨-, hlt'⟩
    · exact absurd hvnil hvcons
    · exact absurd hlt (not_lt.mpr hlt'.le)

/-! ## Round trips -/

theorem read_jsonText (hk : D.decode k = some k) (hv : D.decode v = some v) :
    D.read (Server.jsonText k v) = some [(ascii "key", some k), (ascii "value", some v)] := by
  obtain ⟨hkquote, hkbackslash⟩ := D.decode_free k hk
  obtain ⟨hvquote, hvbackslash⟩ := D.decode_free v hv
  have htokens := tokens_jsonText (scan_free hkquote hkbackslash [])
    (scan_free hvquote hvbackslash [])
  have hopen : Reader.start.step D (.punct 123) = some ⟨[.object], .member, []⟩ := rfl
  have hcomma : ∀ members, Reader.step ⟨[.object], .next, members⟩ D (.punct 44)
      = some ⟨[.object], .name, members⟩ := fun _ ↦ rfl
  have hclose : ∀ members, Reader.steps D ⟨[.object], .next, members⟩ [.punct 125]
      = some ⟨[], .next, members⟩ := fun _ ↦ rfl
  rw [Dialect.read, htokens, Option.bind_eq_bind, Option.bind_some, filter_replyTokens]
  simp only [replyTokens, memberTokens, List.filter_nil, List.nil_append, List.cons_append]
  rw [steps_cons, hopen, Option.bind_some, steps_member (Or.inr rfl) decode_key hk, steps_cons,
    hcomma, Option.bind_some, steps_member (Or.inl rfl) decode_value hv, hclose]
  rfl

/-- What the decoder makes of the encoder's text. -/
theorem unpackJson_jsonText_iff (hlib : lib.Follows D) (hk : 0 ∉ k) (hv : 0 ∉ v) :
    unpackJson lib (Server.jsonText k v) = some (k, v) ↔ D.Unescaped k ∧ D.Unescaped v := by
  have hparse := hlib _ (nul_notMem_jsonText hk hv)
  rw [Dialect.unescaped_iff, Dialect.unescaped_iff]
  constructor
  · intro h
    obtain ⟨j, hj, h⟩ := Option.bind_eq_some_iff.mp h
    obtain ⟨jk, hjk, h⟩ := Option.bind_eq_some_iff.mp h
    obtain ⟨k', hk', h⟩ := Option.bind_eq_some_iff.mp h
    obtain ⟨jv, hjv, h⟩ := Option.bind_eq_some_iff.mp h
    obtain ⟨v', hv', h⟩ := Option.bind_eq_some_iff.mp h
    obtain ⟨rfl, rfl⟩ := Prod.mk.inj (Option.some.inj h)
    cases hread : D.read (Server.jsonText k' v') with
    | none =>
      rw [hread] at hparse
      rw [hparse] at hj
      cases hj
    | some members =>
      rw [hread] at hparse
      obtain ⟨j', hj', hshows⟩ := hparse
      obtain rfl := Option.some.inj (hj.symm.trans hj')
      exact decode_of_mem hread (hshows.sound _ _ (by rw [hjk, Option.bind_some, hk']))
        (hshows.sound _ _ (by rw [hjv, Option.bind_some, hv']))
  · rintro ⟨hk, hv⟩
    rw [read_jsonText hk hv] at hparse
    obtain ⟨j, hj, hshows⟩ := hparse
    have hnodup : (Lru.keys [(ascii "key", some k), (ascii "value", some v)]).Nodup := by
      have : [ascii "key", ascii "value"].Nodup := by decide
      exact this
    have hkey := hshows.complete hnodup (ascii "key") k List.mem_cons_self
    have hvalue := hshows.complete hnodup (ascii "value") v
      (List.mem_cons_of_mem _ List.mem_cons_self)
    obtain ⟨jk, hjk, hk'⟩ := Option.bind_eq_some_iff.mp hkey
    obtain ⟨jv, hjv, hv'⟩ := Option.bind_eq_some_iff.mp hvalue
    simp only [unpackJson, hj, hjk, hk', hjv, hv', Option.bind_eq_bind, Option.bind_some]

/-- The decoder of the client undoes the encoder of the server: what is unpacked is the key and the
value, and the answer is the value. -/
structure RoundTrips (lib : JsonLib) (key value : CStr) : Prop where
  /-- What is unpacked. -/
  unpacked : (Server.makeJson (key.bytes ++ [0]) value.bytes).bind (unpackJson lib)
    = some (key.bytes, value.bytes)
  /-- The answer of the call. -/
  answered : (Server.makeJson (key.bytes ++ [0]) value.bytes).bind (getAnswer lib key)
    = some (.text (some value) (UInt32.ofNat value.bytes.length))

theorem makeJson_concat (k v : Bytes) :
    Server.makeJson (k ++ [0]) v = some (Server.jsonText k v) := by
  rw [Server.makeJson, if_neg (by simp), List.dropLast_concat]
  rfl

theorem roundTrips_iff (lib : JsonLib) (key value : CStr) : RoundTrips lib key value ↔
    unpackJson lib (Server.jsonText key.bytes value.bytes) = some (key.bytes, value.bytes) := by
  constructor
  · intro h
    have hunpacked := h.unpacked
    rwa [makeJson_concat] at hunpacked
  · intro h
    refine ⟨by rwa [makeJson_concat], ?_⟩
    rw [makeJson_concat, Option.bind_some, getAnswer, if_neg (jsonText_ne_errstr _ _), h]
    simp [CStr.ofBytes_bytes]

/-- **Round trips**: with a library that follows the grammar of JSON, a key and a value come back
exactly when neither of them needs escapes. -/
theorem roundTrip_iff (hlib : lib.Follows D) (key value : CStr) :
    RoundTrips lib key value ↔ D.Unescaped key.bytes ∧ D.Unescaped value.bytes := by
  rw [roundTrips_iff, unpackJson_jsonText_iff hlib key.nul_free value.nul_free]

/-- **Round trips with the library the client is built with**: what comes back is what has no
quotes, no backslashes and no bytes below 16 in it. -/
theorem roundTrips_vendored_iff (key value : CStr) : RoundTrips vendored.library key value ↔
    key.bytes.all isOrdinary = true ∧ value.bytes.all isOrdinary = true := by
  rw [roundTrips_iff, unpackJson_jsonText_iff vendored.follows_library key.nul_free value.nul_free,
    vendored_unescaped_iff, vendored_unescaped_iff]

theorem roundTrip_iff_example :
    vendored.library.Follows vendored ∧
      (RoundTrips vendored.library (CStr.ofBytes (ascii "k")) (CStr.ofBytes (ascii "v")) ↔
        vendored.Unescaped (CStr.ofBytes (ascii "k")).bytes ∧
          vendored.Unescaped (CStr.ofBytes (ascii "v")).bytes) ∧
      RoundTrips vendored.library (CStr.ofBytes (ascii "k")) (CStr.ofBytes (ascii "v")) := by
  have hiff := roundTrip_iff vendored.follows_library (CStr.ofBytes (ascii "k"))
    (CStr.ofBytes (ascii "v"))
  refine ⟨vendored.follows_library, hiff, hiff.mpr ⟨?_, ?_⟩⟩
  · exact vendored_unescaped_iff.mpr (by decide)
  · exact vendored_unescaped_iff.mpr (by decide)

/-- A key with a quote in it does not come back, although nothing keeps a caller from using it. -/
theorem not_roundTrips_quote :
    ¬ RoundTrips vendored.library (CStr.ofBytes (ascii "a\"b")) (CStr.ofBytes (ascii "v")) ∧
      (Server.makeJson ((CStr.ofBytes (ascii "a\"b")).bytes ++ [0]) (ascii "v")).bind
        (unpackJson vendored.library) = none := by
  constructor
  · rw [roundTrips_vendored_iff]
    decide
  · decide

end Client

end NetCache
