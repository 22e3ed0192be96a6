import NetCache.Client.Calls
import NetCache.Server.Stored

/-!
# What the requests of the client mean to the server

The client puts keys, values and numbers into a request as they are, and the server takes the
request apart by looking for slashes, line breaks and the end. The main results say for which of
them the server gets back what the client was given.

## Limits

`create_cache` writes its limit as a decimal number of 64 bits without a sign, and the server reads
a signed one. From `2 ^ 63` on the number is out of range: the old cache has been destroyed by then,
and the server stops (`createCache_limit_iff`).

## Texts

A key and a text are handed over exactly if the format has room for them: no slash in the key, both
on one line, and no space or tab at the end of the text, as it would be stripped (`handsOver_iff`).
All this holds up to `2 ^ 31` bytes; in a longer request the index of `strip` wraps, and the `NUL`
of the request stays and becomes part of the text.

## Entries

Setting, getting and deleting a key use different requests, and each takes its key out of its own.
They should meet at one entry for one key, and at different entries for different keys.
`Distinguished` says when they do, for requests of any length, in terms of what stripping keeps; up
to `2 ^ 31` bytes it says that the text of the one key up to its first slash is not that of the
other key without its trailing whitespace (`sameEntry_iff_eq_iff`).
-/

namespace NetCache

open Text

namespace Client

variable {s : Server.State} {c : Server.Contents} {maxmem : UInt64} {pieces : List Bytes}

/-! ## Limits -/

theorem plainText_decimal (n : ℕ) : Server.PlainText (decimal n) where
  plain := by
    rw [List.all_eq_true]
    intro b hb
    have hdigit := isDigit_of_mem_decimal hb
    have hquote : b ≠ 34 := by rintro rfl; exact absurd hdigit (by decide)
    have hbackslash : b ≠ 92 := by rintro rfl; exact absurd hdigit (by decide)
    simp only [isDigit, isPlain, hquote, hbackslash, Bool.and_eq_true, decide_eq_true_eq,
      UInt8.le_iff_toNat_le, ne_eq, not_false_eq_true, and_true] at hdigit ⊢
    exact ⟨le_trans (by decide) hdigit.1, hdigit.2.trans (by decide)⟩
  last h := by
    have hdigit := isDigit_of_mem_decimal (List.mem_of_getLast? h)
    exact absurd hdigit (by decide)

theorem ofInt_toNat (maxmem : UInt64) : UInt64.ofInt (maxmem.toNat : ℤ) = maxmem := by
  have hlt := maxmem.toNat_lt
  have hmod : ((maxmem.toNat : ℤ) % 2 ^ 64).toNat = maxmem.toNat := by omega
  rw [UInt64.ofInt, hmod, UInt64.ofNat_toNat]

theorem act_createCache_eq (hpieces : pieces.flatten = createCache maxmem) :
    c.actOnStripped (strip (Server.readUntil [] pieces).1)
      = some (c.post (ascii "memsize") (decimal maxmem.toNat ++ [0])) := by
  have hplain := plainText_decimal maxmem.toNat
  have hlen := length_decimal_le (by decide : 0 < 20) (maxmem.toNat_lt.trans_le (by decide))
  set p := Server.textRequest (ascii "POST") (ascii "memsize") (decimal maxmem.toNat) with hp
  have hnul : 0 ∉ p :=
    Server.nul_notMem_textRequest (by decide) (by decide) hplain.nul_free
  have hstream : pieces.flatten = streamOf p := by
    rw [hpieces, createCache, request_of_ne_nil _ _ (decimal_ne_nil _)]
  -- the message is far too short for the index of `strip` to wrap
  have hstrip : strip (p ++ [0]) = some p := by
    have hpost : (ascii "POST").length = 4 := by decide
    have hmemsize : (ascii "memsize").length = 7 := by decide
    have hlength : p.length = _ := Server.length_textRequest _ _ _
    refine strip_of_solid (Server.solid_textRequest hplain) (by decide) ?_ (by omega)
    rw [List.length_append, List.length_singleton]
    omega
  rw [readUntil_stream hnul hstream, hstrip, Server.Contents.actOnStripped_some, hp,
    Server.act_post hplain.singleLine]

/-- What the request of `create_cache` does when no space is used: the number is read as a signed
one. -/
theorem act_createCache (hused : c.spaceUsed = 0) (hpieces : pieces.flatten = createCache maxmem) :
    c.actOnStripped (strip (Server.readUntil [] pieces).1) = some (if maxmem.toNat < 2 ^ 63
      then (some ⟨maxmem, []⟩, .ok none) else (none, .error (.conversion .outOfRange))) := by
  rw [act_createCache_eq hpieces, c.post_memsize (by decide), if_pos hused, stoll_decimal_eq rfl]
  split_ifs
  · simp only [ofInt_toNat]
  · rfl

theorem act_createCache_of_ne (hused : c.spaceUsed ≠ 0)
    (hpieces : pieces.flatten = createCache maxmem) :
    c.actOnStripped (strip (Server.readUntil [] pieces).1)
      = some (some c, .ok (some Server.errorText)) := by
  rw [act_createCache_eq hpieces, c.post_memsize (by decide), if_neg hused]

/-- **The limit of `create_cache`** is the one an empty server gets exactly when it is a signed
number. -/
theorem createCache_limit_iff (hs : Server.Reachable s) {cache : CacheObj}
    (hport : s.port = some cache) (hempty : cache.numElements = 0)
    (hpieces : pieces.flatten = createCache maxmem) :
    (∃ s' cache', s.step (.stream pieces) = some (s', .ok none) ∧ s'.port = some cache' ∧
      cache'.numElements = 0 ∧ cache'.maxmem = maxmem) ↔ maxmem.toNat < 2 ^ 63 := by
  obtain ⟨c, hc⟩ := hs.keeps
  have hused : c.spaceUsed = 0 := by
    obtain ⟨cache', l, hcache, hr, hl⟩ := hc
    obtain rfl := Option.some.inj (hport.symm.trans hcache)
    rw [hr.count, List.length_eq_zero_iff] at hempty
    rw [Server.Contents.spaceUsed, ← hl, hempty]
    rfl
  have hrel := Server.actOnStripped_refines hc (strip (Server.readUntil [] pieces).1)
  rw [act_createCache hused hpieces] at hrel
  rw [Server.step_stream]
  generalize Server.actOnStripped s.port _ = handled at hrel
  cases hrel with
  | some hrefines =>
    rename_i handled
    rw [Option.map_some, Server.Handled.after]
    split_ifs at hrefines with hmax
    · refine iff_of_true ?_ hmax
      obtain ⟨cache', l, hport', hr, hl⟩ := hrefines.port
      rw [List.map_eq_nil_iff] at hl
      refine ⟨_, cache', congrArg some (Prod.ext rfl hrefines.outcome), hport', ?_, hr.limit⟩
      rw [hr.count, hl, List.length_nil]
    · refine iff_of_false ?_ hmax
      rintro ⟨s', cache', heq, -⟩
      have hok := (Prod.mk.inj (Option.some.inj heq)).2
      rw [hrefines.outcome] at hok
      cases hok

theorem createCache_limit_iff_example : ∃ s' cache',
    (Server.start 100 (Server.filled 0)).step (.stream [createCache 5]) = some (s', .ok none) ∧
      s'.port = some cache' ∧ cache'.numElements = 0 ∧ cache'.maxmem = 5 :=
  (createCache_limit_iff (.start 100 (Server.filled 0)) rfl rfl List.flatten_singleton).mpr
    (by decide)

/-- A limit of `2 ^ 63` is out of range for `stoll`, and the server is gone. -/
theorem createCache_out_of_range :
    (Server.start 100 (Server.filled 0)).step (.stream [createCache 9223372036854775808])
      = some (⟨none, Server.filled 0⟩, .error (.conversion .outOfRange)) := by
  have hrange : ¬ (9223372036854775808 : UInt64).toNat < 2 ^ 63 := by decide
  have hact := act_createCache (c := ⟨100, []⟩) rfl
    (List.flatten_singleton (l := createCache 9223372036854775808))
  rw [if_neg hrange] at hact
  have hrel := Server.actOnStripped_refines (Server.keeps_createCache 100)
    (strip (Server.readUntil [] [createCache 9223372036854775808]).1)
  rw [hact] at hrel
  have hport : (Server.start 100 (Server.filled 0)).port
      = some (CacheObj.createCache 100 none) := rfl
  rw [Server.step_stream, hport]
  generalize Server.actOnStripped _ _ = handled at hrel
  cases hrel with
  | some hrefines =>
    rename_i handled
    obtain ⟨port, outcome⟩ := handled
    obtain rfl : port = none := hrefines.port
    obtain rfl : outcome = .error (.conversion .outOfRange) := hrefines.outcome
    rfl

/-! ## Texts

The condition is necessary because each part of it loses something that cannot come back: a slash
moves bytes from the key to the text, a line break cuts the text off, and trailing whitespace is
gone before the text is looked at. -/

/-- The keys and texts the format has room for. -/
structure InFormat (k v : Bytes) : Prop where
  /-- The key contains no slash. -/
  no_slash : 47 ∉ k
  /-- The key is on one line. -/
  key_line : Server.SingleLine k
  /-- The text is on one line. -/
  text_line : Server.SingleLine v
  /-- The text does not end in a space or a tab. -/
  last : ∀ b ∈ v.getLast?, b ≠ 32 ∧ b ≠ 9

/-- The cache is handed exactly the key, and the text followed by one `NUL`, if `strip` leaves a
message. -/
def HandsOver (stripped : Option Bytes) (key : CStr) (v : Bytes) : Prop :=
  ∃ w, stripped.bind Server.callOf = some (.set key w) ∧ w.bytes = v ++ [0]

theorem callOf_eq_set {message : Bytes} {key : CStr} {w : Value}
    (h : Server.callOf message = some (.set key w)) :
    Server.parts message = some ⟨ascii "PUT", Server.firstField (Server.body message),
      Server.text message⟩ ∧
      key = CStr.ofBytes (Server.firstField (Server.body message)) ∧
      w = Server.putValue (Server.text message) := by
  rw [Server.callOf] at h
  cases hparts : Server.parts message with
  | none => simp [hparts] at h
  | some p =>
    obtain ⟨fword, info1, info2⟩ := p
    obtain ⟨-, rfl, rfl⟩ := Server.parts_eq_some hparts
    rw [hparts] at h
    simp only at h
    split_ifs at h with hget hput hdelete
    · cases h
    · obtain ⟨hkey, hw⟩ := Lru.Call.set.inj (Option.some.inj h)
      exact ⟨by rw [hput], hkey.symm, hw.symm⟩
    · cases h

theorem body_eq_fields {message : Bytes} (h : Server.text message ≠ []) :
    Server.body message = Server.firstField (Server.body message) ++ 47 :: Server.text message := by
  rw [← Server.secondField_body] at h ⊢
  have hslash : 47 ∈ Server.body message := by
    by_contra hnot
    exact h (Server.takeWhile_noSlash hnot).2
  obtain ⟨p, q, hbody, hp⟩ := List.eq_append_cons_of_mem hslash
  rw [Server.firstField, Server.secondField, hbody, (Server.takeWhile_append_slash hp).1,
    (Server.takeWhile_append_slash hp).2]

/-- What a message that hands a key and a text over must hold. -/
theorem HandsOver.fits {message : Bytes} {key : CStr} {v : Bytes}
    (h : HandsOver (some message) key v) :
    47 ∉ key.bytes ∧ Server.SingleLine key.bytes ∧ Server.SingleLine v ∧
      Server.keyStart message + key.bytes.length + v.length + 1 ≤ message.length := by
  obtain ⟨w, hcall, hw⟩ := h
  obtain ⟨-, rfl, rfl⟩ := callOf_eq_set hcall
  have hpre : v ++ [0] <+: Server.text message := by
    rw [← hw, Server.putValue_text]
    exact List.take_prefix _ _
  have hne : Server.text message ≠ [] := by
    rintro hnil
    rw [hnil, List.prefix_nil] at hpre
    simp at hpre
  have hbody := body_eq_fields hne
  have hbody' : Server.body message ≠ [] := by
    rw [hbody]
    simp
  have hlength := Server.length_body_le hbody'
  have hname := Server.isName_firstField message
  have hkey : (CStr.ofBytes (Server.firstField (Server.body message))).bytes.length
      ≤ (Server.firstField (Server.body message)).length := (List.takeWhile_prefix _).length_le
  have htext : Server.text message ⊆ Server.body message := by
    rw [hbody]
    exact fun b hb ↦ List.mem_append_right _ (List.mem_cons_of_mem _ hb)
  refine ⟨hname.no_slash, hname.line, (Server.singleLine_body message).mono ?_, ?_⟩
  · exact fun b hb ↦ htext (hpre.subset (List.mem_append_left _ hb))
  · have hrest := hpre.length_le
    rw [hbody, List.length_append, List.length_cons] at hlength
    rw [List.length_append, List.length_singleton] at hrest
    omega

theorem not_handsOver_of_no_space {stripped : Option Bytes} {key : CStr} {v : Bytes}
    (h : ∀ message, stripped = some message → 32 ∉ message) : ¬ HandsOver stripped key v := by
  rintro ⟨w, hcall, -⟩
  obtain ⟨message, hmessage, hcall⟩ := Option.bind_eq_some_iff.mp hcall
  rw [Server.callOf, Server.parts_eq, Server.find_eq_none_iff.mpr (h message hmessage)] at hcall
  cases hcall

theorem not_handsOver_of_two_nul {key : CStr} {v : Bytes} (hslash : 47 ∉ key.bytes)
    (hkline : Server.SingleLine key.bytes) (hvline : Server.SingleLine v) :
    ¬ HandsOver (some (Server.textRequest (ascii "PUT") key.bytes (v ++ [0]))) key v := by
  rintro ⟨w, hcall, hw⟩
  have htline : Server.SingleLine (v ++ [0]) := hvline.append ⟨by decide, by decide⟩
  have hparts := Server.parts_textRequest (by decide : 32 ∉ ascii "PUT") ⟨by decide, by decide⟩
    hslash hkline htline
  obtain ⟨-, -, rfl⟩ := callOf_eq_set hcall
  obtain ⟨-, -, htext⟩ := Server.parts_eq_some hparts
  have hlen := congrArg List.length hw
  rw [Server.putValue_text, ← htext] at hlen
  simp only [List.length_take, List.length_append, List.length_singleton] at hlen
  omega

theorem put_stream (k : Bytes) {v : Bytes} (hne : v ≠ []) :
    request (ascii "PUT") k v ++ [0]
      = Server.keyRequest (ascii "PUT") (k ++ 47 :: (v ++ [0])) := by
  rw [request_of_ne_nil _ _ hne, Server.textRequest]
  simp [Server.keyRequest]

theorem nul_notMem_put {key : CStr} {v : Bytes} (hv : 0 ∉ v) (hne : v ≠ []) :
    0 ∉ request (ascii "PUT") key.bytes v := by
  rw [request_of_ne_nil _ _ hne]
  exact Server.nul_notMem_textRequest (by decide) key.nul_free hv

/-- Stripping does not reach the slash before the text. -/
theorem rstrip_put (k v : Bytes) : rstrip (k ++ 47 :: (v ++ [0])) = k ++ 47 :: rstrip v := by
  have hsolid : Solid (k ++ [47]) := ⟨k, 47, rfl, by decide⟩
  rw [List.append_cons, rstrip_solid_append hsolid, rstrip_concat_of_ws (by decide),
    List.append_assoc, List.singleton_append]

theorem rstrip_eq_self_iff_of_singleLine {v : Bytes} (hv : 0 ∉ v) (hline : Server.SingleLine v) :
    rstrip v = v ↔ ∀ b ∈ v.getLast?, b ≠ 32 ∧ b ≠ 9 := by
  rw [rstrip_eq_self_iff]
  constructor
  · intro h b hb
    have hws := h b hb
    simp only [isWhiteSpace, Bool.or_eq_false_iff, decide_eq_false_iff_not] at hws
    exact ⟨hws.1.1.1.2, hws.2⟩
  · intro h b hb
    have hmem : b ∈ v := List.mem_of_getLast? hb
    have h₀ : b ≠ 0 := fun h ↦ hv (h ▸ hmem)
    have h₁ : b ≠ 10 := fun h ↦ hline.1 (h ▸ hmem)
    have h₂ : b ≠ 13 := fun h ↦ hline.2 (h ▸ hmem)
    simp [isWhiteSpace, h₀, h₁, h₂, h b hb]

theorem length_putBody (k v : Bytes) :
    (k ++ 47 :: (v ++ [0])).length = k.length + v.length + 2 := by
  simp
  omega

theorem kept_set {k v : Bytes} (hlen : k.length + v.length + 7 ≤ 2 ^ 31) :
    Server.kept 5 (k ++ 47 :: (v ++ [0])) = some (k ++ 47 :: rstrip v) := by
  have hbody := length_putBody k v
  have hle := (rstrip_isPrefix v).length_le
  rw [Server.kept_of_le (by decide) (by omega) ?_, rstrip_put]
  rw [rstrip_put, List.length_append, List.length_cons]
  omega

theorem kept_delete {k : Bytes} (hlen : k.length + 9 ≤ 2 ^ 31) :
    Server.kept 8 (k ++ [0]) = some (rstrip k) := by
  have hle := (rstrip_isPrefix k).length_le
  have hws := rstrip_concat_of_ws (s := k) (by decide : isWhiteSpace 0 = true)
  rw [Server.kept_of_le (by decide) (by rw [List.length_append, List.length_singleton]; omega)
    (by rw [hws]; omega), hws]

theorem handsOver_of_inFormat {key : CStr} {v : Bytes} (hv : 0 ∉ v)
    (hformat : InFormat key.bytes v) (hshort : key.bytes.length + v.length + 7 ≤ 2 ^ 31) :
    HandsOver (strip (Server.keyRequest (ascii "PUT") (key.bytes ++ 47 :: (v ++ [0])))) key v := by
  obtain ⟨hslash, hkline, hvline, hlast⟩ := hformat
  have hput := Server.length_put
  have hlen := length_putBody key.bytes v
  have hkept : Server.kept ((ascii "PUT").length + 2) (key.bytes ++ 47 :: (v ++ [0]))
      = some (key.bytes ++ 47 :: v) := by
    rw [hput, kept_set hshort, (rstrip_eq_self_iff_of_singleLine hv hvline).mpr hlast]
  have hparts := Server.parts_textRequest (by decide : 32 ∉ ascii "PUT") ⟨by decide, by decide⟩
    hslash hkline hvline
  have hcall : Server.callOf (Server.textRequest (ascii "PUT") key.bytes v)
      = some (.set (CStr.ofBytes key.bytes) (Server.putValue (v ++ [0]))) := by
    rw [Server.callOf, hparts]
    rfl
  refine ⟨Server.putValue (v ++ [0]), ?_, ?_⟩
  · rw [CStr.ofBytes_bytes] at hcall
    rwa [Server.strip_keyRequest hkept, ← Server.textRequest, Option.bind_some]
  · rw [Server.putValue_eq (by simp; omega)]

theorem HandsOver.inFormat {key : CStr} {v : Bytes} (hv : 0 ∉ v) (h : HandsOver
      (strip (Server.keyRequest (ascii "PUT") (key.bytes ++ 47 :: (v ++ [0])))) key v) :
    InFormat key.bytes v ∧ key.bytes.length + v.length + 7 ≤ 2 ^ 31 := by
  have hput := Server.length_put
  have hverb : ascii "PUT" ∈ Server.entryVerbs := by decide
  have hlen := length_putBody key.bytes v
  cases hkept : Server.kept ((ascii "PUT").length + 2) (key.bytes ++ 47 :: (v ++ [0])) with
  | none =>
    exact absurd h (not_handsOver_of_no_space fun _ ↦ Server.space_notMem_strip hverb hkept)
  | some r =>
    rw [Server.strip_keyRequest hkept] at h
    obtain ⟨hslash, hkline, hvline, hfits⟩ := h.fits
    rw [Server.keyStart_keyRequest (by decide), Server.length_keyRequest, hput] at hfits
    by_cases hshort : key.bytes.length + v.length + 7 ≤ 2 ^ 31
    · rw [hput, kept_set hshort] at hkept
      obtain rfl := Option.some.inj hkept
      rw [List.length_append, List.length_cons] at hfits
      -- nothing of the text is lost, so it does not end in whitespace
      have hwhole : rstrip v = v := (rstrip_isPrefix v).eq_of_length_le (by omega)
      exact ⟨⟨hslash, hkline, hvline, (rstrip_eq_self_iff_of_singleLine hv hvline).mp hwhole⟩,
        hshort⟩
    · exfalso
      rw [Server.kept, hput, hlen] at hkept
      split_ifs at hkept with hzero hcut hfull
      · obtain rfl := Option.some.inj hkept
        exact not_handsOver_of_two_nul hslash hkline hvline h
      · -- the index of `strip` has wrapped, and most of the request is lost
        have hr : r.length ≤ stripBound (3 + 2 + (key.bytes.length + v.length + 2)) - 5 := by
          rw [← Option.some.inj hkept]
          exact (rstrip_isPrefix _).length_le.trans (List.length_take_le _ _)
        rw [stripBound_eq] at hr hzero
        split_ifs at hr hzero <;> omega

/-- What the server hands to the cache for a request of `cache_set`. -/
theorem handsOver_iff {key : CStr} {v : Bytes} (hv : 0 ∉ v) (hne : v ≠ [])
    (hpieces : pieces.flatten = streamOf (request (ascii "PUT") key.bytes v)) :
    HandsOver (strip (Server.readUntil [] pieces).1) key v ↔
      InFormat key.bytes v ∧ key.bytes.length + v.length + 7 ≤ 2 ^ 31 := by
  rw [readUntil_stream (nul_notMem_put hv hne) hpieces, put_stream _ hne]
  constructor
  · exact HandsOver.inFormat hv
  · rintro ⟨hformat, hshort⟩
    exact handsOver_of_inFormat hv hformat hshort

/-- A key of `n` letters. -/
def letters (n : ℕ) : CStr where
  bytes := List.replicate n 97
  nul_free h := absurd (List.eq_of_mem_replicate h) (by decide)

theorem length_letters (n : ℕ) : (letters n).bytes.length = n := List.length_replicate

theorem plainKey_letters (n : ℕ) : Server.PlainKey (letters n) where
  text := by
    constructor
    · rw [List.all_eq_true]
      intro b hb
      rw [List.eq_of_mem_replicate hb]
      decide
    · intro h
      exact absurd (List.eq_of_mem_replicate (List.mem_of_getLast? h)) (by decide)
  no_slash h := absurd (List.eq_of_mem_replicate h) (by decide)

/-- **The format of `cache_set`**: the server hands exactly the key and the text to the cache if and
only if the format has room for them, as long as the request has at most `2 ^ 31` bytes. -/
theorem handsOver_iff_inFormat_iff {key : CStr} {v : Bytes} (hv : 0 ∉ v) (hne : v ≠ [])
    (hpieces : pieces.flatten = streamOf (request (ascii "PUT") key.bytes v)) :
    (HandsOver (strip (Server.readUntil [] pieces).1) key v ↔ InFormat key.bytes v) ↔
      (InFormat key.bytes v → key.bytes.length + v.length + 7 ≤ 2 ^ 31) := by
  rw [handsOver_iff hv hne hpieces]
  constructor
  · exact fun h hformat ↦ (h.mpr hformat).2
  · exact fun h ↦ ⟨And.left, fun hformat ↦ ⟨hformat, h hformat⟩⟩

theorem handsOver_iff_inFormat_iff_example :
    HandsOver (strip (Server.readUntil [] [streamOf (request (ascii "PUT") (letters 1).bytes
      (ascii "v"))]).1) (letters 1) (ascii "v") ↔ InFormat (letters 1).bytes (ascii "v") :=
  (handsOver_iff_inFormat_iff (by decide) (by decide) List.flatten_singleton).mpr
    fun _ ↦ by decide

/-- The index of `strip` wraps, so the `NUL` of the request stays and becomes part of the text. -/
theorem longKey_not_handed_over : InFormat (letters (2 ^ 31)).bytes (ascii "v") ∧
    ¬ HandsOver (strip (Server.readUntil [] [streamOf (request (ascii "PUT")
      (letters (2 ^ 31)).bytes (ascii "v"))]).1) (letters (2 ^ 31)) (ascii "v") := by
  have hplain := plainKey_letters (2 ^ 31)
  have hlast : ∀ b ∈ (ascii "v").getLast?, b ≠ 32 ∧ b ≠ 9 := by
    intro b hb
    obtain rfl : 118 = b := Option.some.inj hb
    decide
  refine ⟨⟨hplain.no_slash, hplain.text.singleLine, ⟨by decide, by decide⟩, hlast⟩, ?_⟩
  rw [handsOver_iff (by decide) (by decide) List.flatten_singleton, length_letters]
  rintro ⟨-, hlen⟩
  omega

/-! ## Entries

The entry of a request is the key it is stored under, looked up or removed by; a request that is
not sent, or that stops the server, has none. -/

/-- The entry that the server writes for a `cache_set`, if it is sent. -/
def setEntry (key : CStr) (v : Value) (pieces : List Bytes) : Option CStr :=
  (cacheSet key v).bind fun _ ↦ (strip (Server.readUntil [] pieces).1).bind Server.addressed

/-- The entry that the server reads for a `cache_get`. -/
def getEntry (key : CStr) (recbuf : BufArr) : Option CStr :=
  (Server.receivedMessage (Server.receive recbuf (getRequest key))).join.bind Server.addressed

/-- The entry that the server removes for a `cache_delete`. -/
def deleteEntry (pieces : List Bytes) : Option CStr :=
  (strip (Server.readUntil [] pieces).1).bind Server.addressed

/-- There is an entry, and it is the same one. -/
def SameEntry (entry entry' : Option CStr) : Prop := ∃ key, entry = some key ∧ entry' = some key

theorem setEntry_eq {key : CStr} {v : Value} (hv : 0 ∉ v.bytes) (hne : v.bytes ≠ [])
    (hkline : Server.SingleLine key.bytes) (hvline : Server.SingleLine v.bytes)
    (hpieces : ∀ stream, cacheSet key v = some stream → pieces.flatten = stream) :
    setEntry key v pieces = if v.bytes.length ≤ bufsize then
      (Server.kept 5 (key.bytes ++ 47 :: (v.bytes ++ [0]))).map fun r ↦
        CStr.ofBytes (Server.firstField r)
    else none := by
  have hline : Server.SingleLine (key.bytes ++ 47 :: (v.bytes ++ [0])) := by
    rw [List.append_cons]
    exact (hkline.append ⟨by decide, by decide⟩).append (hvline.append ⟨by decide, by decide⟩)
  rw [setEntry]
  rw [cacheSet, Value.toNat_size] at hpieces ⊢
  split_ifs at hpieces ⊢ with hlong hfits
  · omega
  · rfl
  · rw [Option.bind_some, readUntil_stream (nul_notMem_put hv hne) (hpieces _ rfl),
      put_stream _ hne, Server.addressed_strip (by decide) hline]
    rfl
  · omega

theorem getEntry_eq {key : CStr} (hline : Server.SingleLine key.bytes) (recbuf : BufArr) :
    getEntry key recbuf = if key.bytes.length + 6 ≤ bufsize then
      some (CStr.ofBytes (Server.firstField (rstrip key.bytes))) else none := by
  rw [getEntry]
  split_ifs with hfits
  · rw [receivedMessage_getRequest (by omega), Option.join_some, Option.bind_some,
      Server.addressed_keyRequest (by decide) (hline.mono (rstrip_isPrefix _).subset)]
  · rw [receivedMessage_getRequest_of_le (by omega), Option.join_none, Option.bind_none]

theorem deleteEntry_eq {key : CStr} (hline : Server.SingleLine key.bytes)
    (hpieces : pieces.flatten = cacheDelete key) :
    deleteEntry pieces = (Server.kept 8 (key.bytes ++ [0])).map fun r ↦
      CStr.ofBytes (Server.firstField r) := by
  rw [deleteEntry, readUntil_delete hpieces, Server.keyRequest_append,
    Server.addressed_strip (by decide) (hline.append ⟨by decide, by decide⟩)]
  rfl

/-- When the requests of the two calls address the same entry exactly if they should. -/
def Distinguished (k k' : CStr) (v : Value) : Prop :=
  if k = k' then
    v.bytes.length ≤ bufsize ∧ k.bytes.length + 6 ≤ bufsize ∧
      (47 ∈ k.bytes ∨ rstrip k.bytes = k.bytes)
  else v.bytes.length ≤ bufsize → ∀ r r',
    Server.kept 5 (k.bytes ++ 47 :: (v.bytes ++ [0])) = some r →
      Server.kept 8 (k'.bytes ++ [0]) = some r' →
        CStr.ofBytes (Server.firstField r) ≠ CStr.ofBytes (Server.firstField r')

theorem firstField_append_slash (k t : Bytes) :
    Server.firstField (k ++ 47 :: t) = Server.firstField k := by
  by_cases hk : 47 ∈ k
  · exact Server.firstField_append_of_mem hk _
  · rw [Server.firstField_of_notMem hk]
    exact (Server.takeWhile_append_slash hk).1

theorem firstField_rstrip_eq_iff {s : Bytes} :
    Server.firstField (rstrip s) = Server.firstField s ↔ 47 ∈ s ∨ rstrip s = s := by
  by_cases hs : 47 ∈ s
  · refine iff_of_true ?_ (Or.inl hs)
    obtain ⟨p, q, rfl, -⟩ := List.eq_append_cons_of_mem hs
    have hsolid : Solid (p ++ [47]) := ⟨p, 47, rfl, by decide⟩
    rw [List.append_cons, rstrip_solid_append hsolid, List.append_assoc, List.append_assoc,
      List.singleton_append, List.singleton_append, firstField_append_slash,
      firstField_append_slash]
  · have hstrip : 47 ∉ rstrip s := fun hmem ↦ hs ((rstrip_isPrefix s).subset hmem)
    rw [Server.firstField_of_notMem hs, Server.firstField_of_notMem hstrip, or_iff_right hs]

theorem ofBytes_inj {s t : Bytes} (hs : 0 ∉ s) (ht : 0 ∉ t) :
    CStr.ofBytes s = CStr.ofBytes t ↔ s = t := by
  rw [CStr.ext_iff, CStr.bytes_ofBytes hs, CStr.bytes_ofBytes ht]

theorem sameEntry_some_iff {key key' : CStr} : SameEntry (some key) (some key') ↔ key = key' := by
  constructor
  · rintro ⟨_, h, h'⟩
    exact (Option.some.inj h).trans (Option.some.inj h').symm
  · rintro rfl
    exact ⟨key, rfl, rfl⟩

/-- A key is written and read under one name when stripping leaves its text up to the slash. -/
theorem firstField_set_eq_iff (k : CStr) (v : Bytes) :
    CStr.ofBytes (Server.firstField (k.bytes ++ 47 :: rstrip v))
      = CStr.ofBytes (Server.firstField (rstrip k.bytes)) ↔
        47 ∈ k.bytes ∨ rstrip k.bytes = k.bytes := by
  have hfree : 0 ∉ Server.firstField k.bytes := fun hmem ↦
    k.nul_free ((List.takeWhile_prefix _).subset hmem)
  have hfree' : 0 ∉ Server.firstField (rstrip k.bytes) := fun hmem ↦
    k.nul_free ((rstrip_isPrefix _).subset ((List.takeWhile_prefix _).subset hmem))
  rw [firstField_append_slash, ofBytes_inj hfree hfree', eq_comm, firstField_rstrip_eq_iff]

theorem distinguished_iff_of_short {k k' : CStr} {v : Value} (hne : k ≠ k')
    (hset : k.bytes.length + v.bytes.length + 7 ≤ 2 ^ 31) (hdelete : k'.bytes.length + 9 ≤ 2 ^ 31) :
    Distinguished k k' v ↔ v.bytes.length ≤ bufsize →
      Server.firstField k.bytes ≠ Server.firstField (rstrip k'.bytes) := by
  have hfree : 0 ∉ Server.firstField k.bytes := fun hmem ↦
    k.nul_free ((List.takeWhile_prefix _).subset hmem)
  have hfree' : 0 ∉ Server.firstField (rstrip k'.bytes) := fun hmem ↦
    k'.nul_free ((rstrip_isPrefix _).subset ((List.takeWhile_prefix _).subset hmem))
  rw [Distinguished, if_neg hne, kept_set hset, kept_delete hdelete]
  refine imp_congr_right fun _ ↦ ?_
  constructor
  · intro h hsame
    refine h _ _ rfl rfl ?_
    rw [firstField_append_slash, hsame]
  · rintro h r r' hr hr'
    rw [← Option.some.inj hr, ← Option.some.inj hr', firstField_append_slash, Ne,
      ofBytes_inj hfree hfree']
    exact h

/-- The requests of the two calls address the same entry exactly if they should. -/
theorem distinguished_iff {k k' : CStr} {v : Value} (hk : Server.SingleLine k.bytes)
    (hk' : Server.SingleLine k'.bytes) (hv : 0 ∉ v.bytes) (hne : v.bytes ≠ [])
    (hvline : Server.SingleLine v.bytes) {pieces pieces' : List Bytes}
    (hset : ∀ stream, cacheSet k v = some stream → pieces.flatten = stream)
    (hdelete : pieces'.flatten = cacheDelete k') (recbuf : BufArr) :
    Distinguished k k' v ↔
      (SameEntry (setEntry k v pieces) (getEntry k' recbuf) ↔ k = k') ∧
        (SameEntry (setEntry k v pieces) (deleteEntry pieces') ↔ k = k') := by
  have hbuf : bufsize = 65504 := rfl
  rw [setEntry_eq hv hne hk hvline hset, getEntry_eq hk' recbuf, deleteEntry_eq hk' hdelete,
    Distinguished]
  by_cases heq : k = k'
  · subst heq
    simp only [iff_true, if_true]
    -- only requests of ordinary length matter: a datagram that is too long is not acted on
    constructor
    · rintro ⟨hvfits, hkfits, hslash⟩
      rw [if_pos hvfits, if_pos hkfits, kept_set (by omega), kept_delete (by omega),
        Option.map_some, Option.map_some, sameEntry_some_iff]
      have hname := (firstField_set_eq_iff k v.bytes).mpr hslash
      exact ⟨hname, hname⟩
    · rintro ⟨⟨key, hwritten, hread⟩, -⟩
      split_ifs at hwritten hread with hvfits hkfits
      rw [kept_set (by omega), Option.map_some, Option.some.injEq] at hwritten
      rw [Option.some.injEq] at hread
      exact ⟨hvfits, hkfits, (firstField_set_eq_iff k _).mp (hwritten.trans hread.symm)⟩
  · simp only [heq, iff_false, if_false]
    constructor
    · intro hdistinct
      constructor
      · rintro ⟨key, hwritten, hread⟩
        split_ifs at hwritten hread with hvfits hkfits
        obtain ⟨r, hr, hrkey⟩ := Option.map_eq_some_iff.mp hwritten
        exact hdistinct hvfits r _ hr (kept_delete (by omega))
          (hrkey.trans (Option.some.inj hread).symm)
      · rintro ⟨key, hwritten, hremoved⟩
        split_ifs at hwritten with hvfits
        obtain ⟨r, hr, hrkey⟩ := Option.map_eq_some_iff.mp hwritten
        obtain ⟨r', hr', hrkey'⟩ := Option.map_eq_some_iff.mp hremoved
        exact hdistinct hvfits r r' hr hr' (hrkey.trans hrkey'.symm)
    · rintro ⟨-, hremoved⟩ hvfits r r' hr hr' hsame
      apply hremoved
      rw [if_pos hvfits, hr, hr', Option.map_some, Option.map_some, sameEntry_some_iff]
      exact hsame

/-- **The entry of a key** is written, read and removed under the same name, and no other key's
requests touch it, exactly when the keys are distinguished. For requests of up to `2 ^ 31` bytes
that says: the text of the one key up to its first slash differs from that of the other, which has
lost its trailing whitespace. -/
theorem sameEntry_iff_eq_iff {k k' : CStr} {v : Value} (hk : Server.SingleLine k.bytes)
    (hk' : Server.SingleLine k'.bytes) (hv : 0 ∉ v.bytes) (hne : v.bytes ≠ [])
    (hvline : Server.SingleLine v.bytes) {pieces pieces' : List Bytes}
    (hset : ∀ stream, cacheSet k v = some stream → pieces.flatten = stream)
    (hdelete : pieces'.flatten = cacheDelete k') (recbuf : BufArr) :
    (((SameEntry (setEntry k v pieces) (getEntry k' recbuf) ↔ k = k') ∧
      (SameEntry (setEntry k v pieces) (deleteEntry pieces') ↔ k = k')) ↔
      Distinguished k k' v) ∧
    (k ≠ k' → k.bytes.length + v.bytes.length + 7 ≤ 2 ^ 31 → k'.bytes.length + 9 ≤ 2 ^ 31 →
      (Distinguished k k' v ↔ v.bytes.length ≤ bufsize →
        Server.firstField k.bytes ≠ Server.firstField (rstrip k'.bytes))) :=
  ⟨(distinguished_iff hk hk' hv hne hvline hset hdelete recbuf).symm, distinguished_iff_of_short⟩

section Samples

/-- The value `v`. -/
def vValue : Value := ⟨ascii "v", by decide⟩

/-- The stream of `cache_set` for the value `v`. -/
def vStream (key : CStr) : Bytes := streamOf (request (ascii "PUT") key.bytes (ascii "v"))

theorem vStream_delivered (key : CStr) :
    ∀ stream, cacheSet key vValue = some stream → [vStream key].flatten = stream := by
  intro stream hstream
  rw [List.flatten_singleton]
  exact Option.some.inj hstream

theorem sameEntry_iff_eq_iff_example :
    SameEntry (setEntry (letters 1) vValue [vStream (letters 1)])
        (getEntry (letters 1) (Server.filled 0)) ∧
      SameEntry (setEntry (letters 1) vValue [vStream (letters 1)])
        (deleteEntry [cacheDelete (letters 1)]) := by
  have hline : Server.SingleLine (letters 1).bytes := ⟨by decide, by decide⟩
  have hdistinguished : Distinguished (letters 1) (letters 1) vValue := by
    rw [Distinguished, if_pos rfl]
    exact ⟨by decide, by decide, Or.inr (by decide)⟩
  have h := (sameEntry_iff_eq_iff hline hline (by decide) (by decide) ⟨by decide, by decide⟩
    (vStream_delivered _) List.flatten_singleton (Server.filled 0)).1.mpr hdistinguished
  exact ⟨h.1.mpr rfl, h.2.mpr rfl⟩

/-- A key that goes on behind a slash shares the entry of what is before it, and a key that ends in
a space is read under another name than it is written. -/
theorem keys_confused :
    SameEntry (setEntry ⟨ascii "a/b", by decide⟩ vValue [vStream ⟨ascii "a/b", by decide⟩])
        (getEntry ⟨ascii "a", by decide⟩ (Server.filled 0)) ∧
      ¬ SameEntry (setEntry ⟨ascii "a ", by decide⟩ vValue [vStream ⟨ascii "a ", by decide⟩])
        (getEntry ⟨ascii "a ", by decide⟩ (Server.filled 0)) := by
  rw [setEntry_eq (by decide) (by decide) ⟨by decide, by decide⟩ ⟨by decide, by decide⟩
      (vStream_delivered _),
    setEntry_eq (by decide) (by decide) ⟨by decide, by decide⟩ ⟨by decide, by decide⟩
      (vStream_delivered _),
    getEntry_eq ⟨by decide, by decide⟩, getEntry_eq ⟨by decide, by decide⟩, kept_set (by decide),
    kept_set (by decide)]
  simp only [Option.map_some]
  constructor
  · rw [if_pos (by decide), if_pos (by decide), sameEntry_some_iff]
    decide
  · rw [if_pos (by decide), if_pos (by decide), sameEntry_some_iff]
    decide

end Samples

end Client

end NetCache
