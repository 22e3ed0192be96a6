import NetCache.Client.Framing
import NetCache.Client.RoundTrip

/-!
# What a `cache_get` makes of a stored value

A value goes into a request with or without its `NUL`, is stored with one `NUL`, and comes back in a
reply that adds the key and 29 more bytes to it. `cache_set` compares only the size of the value
with the size of the buffers, so it lets values through which cannot come back.

## Stored values

`StoredBySet` is a state right after a `cache_set` that has stored its value, and `StillStored` any
later state in which the key reads the same. The results are about the latter.

## Replies that arrive

`hitArrives_iff` says which values come back at all: there is a text, the key has no trailing
whitespace, and the reply for the key and the text, with its `NUL`, fits the buffer of the client.
Otherwise the `cache_get` is a false miss, or never returns. The reply has to be the one for this
very key and its stored text. With a key that ends in a space, the server looks up the key without
it, and may find a value that was never meant.

## Sizes

`valSize_eq_iff` says for which values `cache_get` reports the size that was passed to `cache_set`.
The reported size is the length of the text without the `NUL`; a value that was passed with its
`NUL` is one byte longer. The equivalence covers keys of any length, including the few whose request
the server cannot read but the network still carries.
-/

namespace NetCache

open Text

namespace Client

variable {lib : JsonLib} {D : Dialect} {s : Server.State} {c : Server.Contents} {cache : CacheObj}
variable {key : CStr} {v : Value} {t : Bytes}

/-! ## The value that is stored

The states are reachable ones, and the server that handles the stream is any. That the entry is
the one which the `cache_set` has left is expressed by what the key reads as. -/

/-- `cache_set` lets the value through, a running server handles the stream, in whatever pieces it
comes, and has the key afterwards. -/
structure StoredBySet (key : CStr) (v : Value) (s : Server.State) (cache : CacheObj) : Prop where
  /-- The stream is handled. -/
  handled : ∃ before pieces, Server.Reachable before ∧ cacheSet key v = some pieces.flatten ∧
    (serve (some before) (.stream pieces)).1 = some s
  /-- What the handle refers to. -/
  port : s.port = some cache
  /-- The key is there. -/
  holds : cache.Holds key

/-- A state of the server in which it still has for the key what a `cache_set` stored. -/
structure StillStored (key : CStr) (v : Value) (s : Server.State) (cache : CacheObj) : Prop where
  /-- The server runs. -/
  reachable : Server.Reachable s
  /-- What the handle refers to. -/
  port : s.port = some cache
  /-- The key reads as it did after the `cache_set`. -/
  reads : ∃ before old, StoredBySet key v before old ∧ cache.reads key = old.reads key

theorem reachable_of_serve {s' : Server.State} {event : Server.Event} (hs : Server.Reachable s)
    (hserve : (serve (some s) event).1 = some s') : Server.Reachable s' := by
  rw [serve, Option.bind_some] at hserve
  split at hserve
  · rename_i hstep
    obtain rfl := Option.some.inj hserve
    exact .step hs hstep
  · cases hserve

theorem StoredBySet.isName (h : StoredBySet key v s cache) : Server.IsName key := by
  obtain ⟨before, pieces, hbefore, -, hserve⟩ := h.handled
  exact (reachable_of_serve hbefore hserve).isName h.port h.holds

/-- The entry of the key after its `cache_set`. -/
theorem StoredBySet.reads_eq (h : StoredBySet key v s cache) (hline : Server.SingleLine t)
    (ht : 0 ∉ t) (hv : Passes v t) (hfit : key.bytes.length + 6 ≤ bufsize)
    (hkey : v.bytes ≠ [] ∨ rstrip key.bytes = key.bytes) :
    cache.reads key = some (some (storedText v t), UInt32.ofNat (storedText v t).length) := by
  have hname := h.isName
  obtain ⟨before, pieces, hbefore, hsent, hserve⟩ := h.handled
  obtain ⟨c, hc⟩ := hbefore.keeps
  obtain ⟨s', hserve', hs'⟩ := serve_set hc hname hline ht hv hsent hfit hkey
  obtain rfl : s' = s := by
    rw [hserve'] at hserve
    exact Option.some.inj hserve
  rw [h.port] at hs'
  have hlen : (storedText v t).length < 2 ^ 32 := by
    have hbuf : bufsize = 65504 := rfl
    have hshort := (cacheSet_eq_some_iff.mp hsent).1
    have hle := (length_storedText_le v t).trans (Nat.succ_le_succ hv.length_le)
    omega
  have hfind : Lru.find key (c.put key.bytes (storedText v t)).entries
      = some (Server.putValue (storedText v t)) := by
    have hholds := hs'.holds_iff.mp h.holds
    rw [Server.Contents.put, CStr.ofBytes_bytes] at hholds ⊢
    exact Lru.find_put_of_mem hholds
  rw [hs'.reads_eq, hfind, Server.putValue_eq hlen]
  rfl

theorem exists_stillStored (maxmem : Int32) (hname : Server.IsName key)
    (hline : Server.SingleLine t) (ht : 0 ∉ t) (hv : Passes v t) (hsent : v.bytes.length ≤ bufsize)
    (hfit : key.bytes.length + 6 ≤ bufsize) (hkey : v.bytes ≠ [] ∨ rstrip key.bytes = key.bytes)
    (hadmits : (storedText v t).length ≤ maxmem.toInt64.toUInt64.toNat) :
    ∃ s cache, StillStored key v s cache := by
  have hset : cacheSet key v
      = some [streamOf (request (ascii "PUT") key.bytes v.bytes)].flatten :=
    cacheSet_eq_some_iff.mpr ⟨hsent, List.flatten_singleton⟩
  obtain ⟨s, hserve, hs⟩ := serve_set (s := Server.start maxmem (Server.filled 0))
    (Server.keeps_createCache _) hname hline ht hv hset hfit hkey
  have hreach := reachable_of_serve (.start maxmem _) (congrArg Prod.fst hserve)
  obtain ⟨cache, hport⟩ := Option.ne_none_iff_exists'.mp hs.ne_none
  have hword : (Lru.word (κ := CStr) Value.size maxmem.toInt64.toUInt64).admits
      (Server.putValue (storedText v t)) = true := by
    rw [Lru.word_admits_iff, UInt64.le_iff_toNat_le, UInt32.toNat_toUInt64, Value.toNat_size,
      Server.putValue, Value.bytes_ofBuffer, UInt32.toNat_ofNat']
    exact (List.length_take_le _ _).trans ((Nat.mod_le _ _).trans hadmits)
  have hholds : cache.Holds key := by
    rw [hport] at hs
    rw [hs.holds_iff, Server.Contents.put, CStr.ofBytes_bytes, Lru.put, if_pos hword]
    exact List.mem_cons_self
  have hstored : StoredBySet key v s cache :=
    ⟨⟨_, _, .start maxmem _, hset, congrArg Prod.fst hserve⟩, hport, hholds⟩
  exact ⟨s, cache, hreach, hport, s, cache, hstored, rfl⟩

section Samples

theorem isName_letters (n : ℕ) : Server.IsName (letters n) :=
  ⟨(plainKey_letters n).no_slash, (plainKey_letters n).text.singleLine⟩

theorem rstrip_letters (n : ℕ) : rstrip (letters n).bytes = (letters n).bytes :=
  (plainKey_letters n).text.rstrip_eq

theorem plainText_v : Server.PlainText (ascii "v") := ⟨by decide, by decide⟩

/-- The value `v` with its `NUL`. -/
def vTerminated : Value := ⟨ascii "v" ++ [0], by decide⟩

theorem exists_stillStored_v (hv : Passes v (ascii "v")) (hsent : v.bytes.length ≤ bufsize) :
    ∃ s cache, StillStored (letters 1) v s cache := by
  refine exists_stillStored 100 (isName_letters 1) plainText_v.singleLine plainText_v.nul_free hv
    hsent (by decide) (Or.inr (rstrip_letters 1)) ?_
  exact (length_storedText_le v _).trans (by decide)

end Samples

/-! ## The reply to `cache_get` -/

/-- The reply to a `cache_get` that reads an entry, undefined when its value has no `NUL`. -/
def replyOf (name : Bytes) : Option Bytes → Option Bytes
  | none => some Server.errorText
  | some w => if 0 ∈ w then some (Server.jsonText name (w.takeWhile (· ≠ 0))) else none

/-- The server reads the key without its trailing whitespace. -/
theorem serve_get (hs : Server.Reachable s) (hport : s.port = some cache)
    (hname : Server.IsName key) (hfit : key.bytes.length + 6 ≤ bufsize) {entry : Option Bytes}
    {size : UInt32} (hread : cache.reads (CStr.ofBytes (rstrip key.bytes)) = some (entry, size)) :
    (serve (some s) (.datagram (getRequest key))).2 = replyOf (rstrip key.bytes) entry := by
  obtain ⟨c, hc⟩ := hs.keeps
  have hc' := hc
  rw [hport] at hc'
  rw [hc'.reads_eq, Option.some.injEq, Prod.mk.injEq] at hread
  have hpre := rstrip_isPrefix key.bytes
  have hlen : 5 + key.bytes.length < bufsize := by omega
  have hd := receivedMessage_getRequest hlen s.recbuf
  have hact := Server.act_get (c := c) (fun hmem ↦ hname.no_slash (hpre.subset hmem))
    (hname.line.mono hpre.subset)
  rw [Server.Contents.get_concat] at hact
  rw [← hread.1]
  cases hfind : Lru.find (CStr.ofBytes (rstrip key.bytes)) c.entries with
  | none =>
    rw [hfind] at hact
    obtain ⟨s', hserve, -⟩ := serve_datagram hc hd hact
    rw [hserve]
    rfl
  | some w =>
    rw [hfind] at hact
    rw [Option.map_some, replyOf]
    simp only at hact
    by_cases hnul : 0 ∈ w.bytes
    · rw [if_pos hnul] at hact
      obtain ⟨s', hserve, -⟩ := serve_datagram hc hd hact
      rw [hserve, if_pos hnul]
    · rw [if_neg hnul] at hact
      rw [serve_datagram_undefined hc hd hact, if_neg hnul]

theorem serve_get_of_lt (hlong : bufsize < key.bytes.length + 6) :
    serve (some s) (.datagram (getRequest key))
      = (some ⟨s.port, Server.receive s.recbuf (getRequest key)⟩, some Server.errorText) :=
  serve_datagram_none (receivedMessage_getRequest_of_le (by omega) s.recbuf)

/-- A reply whose `NUL` does not fit the buffer of the client is taken for `ERROR`. -/
theorem getMessage_receive_of_le {p : Bytes} (hp : 0 ∉ p) (hlong : bufsize ≤ p.length)
    (buffer : BufArr) : getMessage (Server.receive buffer (Server.datagramOf p)) = errstr := by
  have hbytes : (Server.receive buffer (Server.datagramOf p)).bytes = p.take bufsize := by
    have hdrop : buffer.bytes.length ≤ (p ++ [0]).length := by
      rw [buffer.length_eq, List.length_append]
      omega
    rw [Server.receive_bytes, Server.datagramOf, List.take_append_of_le_length hlong,
      List.drop_of_length_le hdrop, List.append_nil]
  have hnone : findInBuf (Server.receive buffer (Server.datagramOf p)) 0 = none := by
    rw [findInBuf, hbytes]
    exact findIdx?_eq_none fun hmem ↦ hp (List.mem_of_mem_take hmem)
  rw [getMessage, hnone]

/-! ## Replies that arrive

A `cache_get` of a key that is there should not miss: the server builds the reply for the key and
its text, the datagram fits the buffer of the client, and the client finds the `NUL` at its end.
-/

/-- The request for a stored key is sent, its reply is the one for the key and its text, fits the
buffer of the client together with its `NUL`, and is read as it was sent. -/
def HitArrives (s : Server.State) (cache : CacheObj) (key : CStr) : Prop :=
  ∃ w size, cache.reads key = some (some w, size) ∧ (getRequest key).length ≤ maxDatagram ∧
    ∃ reply, reply = Server.jsonText key.bytes (w.takeWhile (· ≠ 0)) ∧
      (serve (some s) (.datagram (getRequest key))).2 = some reply ∧
      (Server.datagramOf reply).length ≤ bufsize ∧
      ∀ buffer, getMessage (Server.receive buffer (Server.datagramOf reply)) = reply

theorem length_datagramOf_jsonText (k t : Bytes) :
    (Server.datagramOf (Server.jsonText k t)).length = 29 + k.length + t.length := by
  rw [Server.datagramOf, List.length_append, length_jsonText, List.length_singleton]
  omega

/-- A reply for a key without its trailing whitespace is not one for the key. -/
theorem jsonText_rstrip_ne {k : Bytes} (hk : rstrip k ≠ k) (t t' : Bytes) :
    Server.jsonText (rstrip k) t ≠ Server.jsonText k t' := by
  obtain ⟨w, hw, hall⟩ := exists_rstrip_append k
  intro h
  rw [Server.jsonText, Server.jsonText, List.append_assoc, List.append_assoc, List.append_assoc,
    List.append_assoc, List.append_assoc, List.append_assoc, List.append_cancel_left_eq] at h
  conv_rhs at h => rw [hw, List.append_assoc]
  -- where the key ends, one reply goes on with a quote and the other one with whitespace
  cases w with
  | nil => exact hk (hw.trans (List.append_nil _)).symm
  | cons b w =>
    have hb : isWhiteSpace b = true := (List.all_eq_true.mp hall) b List.mem_cons_self
    have hquote := (List.cons.inj (List.append_cancel_left h)).1
    rw [← hquote] at hb
    exact absurd hb (by decide)

theorem StillStored.isName (h : StillStored key v s cache) : Server.IsName key := by
  obtain ⟨before, old, hstored, -⟩ := h.reads
  exact hstored.isName

theorem StillStored.reads_eq (h : StillStored key v s cache) (hline : Server.SingleLine t)
    (ht : 0 ∉ t) (hv : Passes v t) (hfit : key.bytes.length + 6 ≤ bufsize)
    (hkey : v.bytes ≠ [] ∨ rstrip key.bytes = key.bytes) :
    cache.reads key = some (some (storedText v t), UInt32.ofNat (storedText v t).length) := by
  obtain ⟨before, old, hstored, hread⟩ := h.reads
  rw [hread, hstored.reads_eq hline ht hv hfit hkey]

theorem takeWhile_storedText (ht : 0 ∉ t) (hne : v.bytes ≠ []) :
    (storedText v t).takeWhile (· ≠ 0) = rstrip t := by
  have hstrip : 0 ∉ rstrip t := fun hmem ↦ ht ((rstrip_isPrefix t).subset hmem)
  rw [storedText, if_neg hne]
  exact CStr.bytes_ofBytes_append hstrip

theorem nul_mem_storedText : 0 ∈ storedText v t ↔ v.bytes ≠ [] := by
  rw [storedText]
  split_ifs with hne <;> simp [hne]

theorem serve_get_stored (hline : Server.SingleLine t) (ht : 0 ∉ t) (hv : Passes v t)
    (h : StillStored key v s cache) (hkey : rstrip key.bytes = key.bytes)
    (hfit : key.bytes.length + 6 ≤ bufsize) :
    (serve (some s) (.datagram (getRequest key))).2
      = if v.bytes = [] then none else some (Server.jsonText key.bytes (rstrip t)) := by
  have hread : cache.reads (CStr.ofBytes (rstrip key.bytes))
      = some (some (storedText v t), UInt32.ofNat (storedText v t).length) := by
    rw [hkey, CStr.ofBytes_bytes]
    exact h.reads_eq hline ht hv hfit (Or.inr hkey)
  rw [serve_get h.reachable h.port h.isName hfit hread, replyOf, hkey]
  by_cases hne : v.bytes = []
  · rw [if_pos hne, if_neg (nul_mem_storedText.not.mpr (not_not_intro hne))]
  · rw [if_neg hne, if_pos (nul_mem_storedText.mpr hne), takeWhile_storedText ht hne]

/-- A key that does not fit a request, or ends in whitespace, is not read. -/
theorem HitArrives.key_eq (hs : Server.Reachable s) (hport : s.port = some cache)
    (hname : Server.IsName key) (h : HitArrives s cache key) :
    key.bytes.length + 6 ≤ bufsize ∧ rstrip key.bytes = key.bytes := by
  obtain ⟨w, size, -, -, _, rfl, hreply, -, -⟩ := h
  have hfit : key.bytes.length + 6 ≤ bufsize := by
    by_contra hlong
    rw [serve_get_of_lt (Nat.not_le.mp hlong)] at hreply
    exact jsonText_ne_errstr _ _ (Option.some.inj hreply).symm
  refine ⟨hfit, ?_⟩
  by_contra hkey
  obtain ⟨c, hc⟩ := hs.keeps
  rw [hport] at hc
  rw [serve_get hs hport hname hfit (hc.reads_eq _)] at hreply
  cases hfind : Lru.find (CStr.ofBytes (rstrip key.bytes)) c.entries with
  | none =>
    rw [hfind] at hreply
    exact jsonText_ne_errstr _ _ (Option.some.inj hreply).symm
  | some v =>
    rw [hfind, Option.map_some, replyOf] at hreply
    split_ifs at hreply
    exact jsonText_rstrip_ne hkey _ _ (Option.some.inj hreply)

/-- **No false misses**: the reply for a value that `cache_set` let through and the server still
has arrives exactly when there is a text, the key is read as it is written, and the buffer has room
for the reply. -/
theorem hitArrives_iff (hline : Server.SingleLine t) (ht : 0 ∉ t) (hv : Passes v t)
    (h : StillStored key v s cache) :
    HitArrives s cache key ↔ v.bytes ≠ [] ∧ rstrip key.bytes = key.bytes ∧
      29 + key.bytes.length + (rstrip t).length ≤ bufsize := by
  constructor
  · intro harrives
    obtain ⟨hfit, hkey⟩ := harrives.key_eq h.reachable h.port h.isName
    obtain ⟨w, size, hread, -, _, rfl, hreply, hshort, -⟩ := harrives
    rw [h.reads_eq hline ht hv hfit (Or.inr hkey)] at hread
    obtain rfl : storedText v t = w := by simpa using (Prod.mk.inj (Option.some.inj hread)).1
    rw [serve_get_stored hline ht hv h hkey hfit] at hreply
    split_ifs at hreply with hne
    rw [length_datagramOf_jsonText, takeWhile_storedText ht hne] at hshort
    exact ⟨hne, hkey, hshort⟩
  · rintro ⟨hne, hkey, hshort⟩
    have hbuf : bufsize = 65504 := rfl
    have hmax : maxDatagram = 65507 := rfl
    have hfit : key.bytes.length + 6 ≤ bufsize := by omega
    have hserve := serve_get_stored hline ht hv h hkey hfit
    rw [if_neg hne] at hserve
    have hnul := nul_notMem_jsonText key.nul_free fun hmem ↦ ht ((rstrip_isPrefix t).subset hmem)
    have hlen := length_jsonText key.bytes (rstrip t)
    refine ⟨_, _, h.reads_eq hline ht hv hfit (Or.inr hkey), by rw [length_getRequest]; omega, _,
      by rw [takeWhile_storedText ht hne], hserve, ?_, getMessage_receive hnul (by omega)⟩
    rwa [length_datagramOf_jsonText]

theorem hitArrives_iff_example : ∃ s cache, StillStored (letters 1) vValue s cache ∧
    HitArrives s cache (letters 1) := by
  have hpasses : Passes vValue (ascii "v") := Or.inl rfl
  obtain ⟨s, cache, h⟩ := exists_stillStored_v hpasses (by decide)
  have hiff := hitArrives_iff plainText_v.singleLine plainText_v.nul_free hpasses h
  exact ⟨s, cache, h, hiff.mpr ⟨by decide, rstrip_letters 1, by decide⟩⟩

/-- The shortest value under a key of one letter whose reply does not fit. -/
def longValue : Value := ⟨(letters 65475).bytes, by rw [length_letters]; decide⟩

/-- A value that `cache_set` lets through and the server stores is read as missing. -/
theorem longValue_missed : longValue.size.toNat ≤ bufsize ∧
    Server.SingleLine longValue.bytes ∧ 0 ∉ longValue.bytes ∧
    ∃ s cache, StillStored (letters 1) longValue s cache ∧ ¬ HitArrives s cache (letters 1) := by
  have hplain := (plainKey_letters 65475).text
  have hlen : longValue.bytes.length = 65475 := length_letters 65475
  have hlen' : (letters 65475).bytes.length = 65475 := hlen
  have hbuf : bufsize = 65504 := rfl
  have hmaxmem : (100000 : Int32).toInt64.toUInt64.toNat = 100000 := by decide
  have hstored := length_storedText_le longValue (letters 65475).bytes
  refine ⟨by rw [Value.toNat_size]; omega, hplain.singleLine, hplain.nul_free, ?_⟩
  obtain ⟨s, cache, h⟩ : ∃ s cache, StillStored (letters 1) longValue s cache :=
    exists_stillStored 100000 (isName_letters 1) hplain.singleLine hplain.nul_free (Or.inl rfl)
      (by omega) (by decide) (Or.inr (rstrip_letters 1)) (by omega)
  refine ⟨s, cache, h, ?_⟩
  rw [hitArrives_iff hplain.singleLine hplain.nul_free (Or.inl rfl) h, rstrip_letters,
    rstrip_letters, length_letters, hlen']
  omega

/-! ## Sizes that are reported

A miss reports zero. It agrees with the size of an empty value, so for these the condition is
about whether the call returns at all. -/

theorem unescaped_of_plain (ht : t.all isPlain = true) : D.Unescaped t :=
  D.unescaped_iff.mpr (D.decode_plain t ht)

/-- What a `cache_get` makes of a reply, if the reply can be sent. -/
theorem receiveAnswer_jsonText (hlib : lib.Follows D) (hk : Server.PlainKey key)
    (ht : Server.PlainText t) (buffer : BufArr) :
    receiveAnswer lib key buffer (Server.jsonText key.bytes t)
      = if 29 + key.bytes.length + t.length ≤ bufsize
          then some (.text (some (CStr.ofBytes t)) (UInt32.ofNat t.length))
        else if 29 + key.bytes.length + t.length ≤ maxDatagram then some (.text none 0)
        else none := by
  have hbuf : bufsize = 65504 := rfl
  have hmax : maxDatagram = 65507 := rfl
  have hlen := length_jsonText key.bytes t
  have hdatagram := length_datagramOf_jsonText key.bytes t
  have hnul := nul_notMem_jsonText key.nul_free ht.nul_free
  split_ifs with hfits hsent
  · have hunpack := (unpackJson_jsonText_iff hlib key.nul_free ht.nul_free).mpr
      ⟨unescaped_of_plain hk.text.plain, unescaped_of_plain ht.plain⟩
    rw [receiveAnswer_eq lib key buffer (by omega), getMessage_receive hnul (by omega), getAnswer,
      if_neg (jsonText_ne_errstr _ _), hunpack]
    exact if_neg (not_not_intro rfl)
  · rw [receiveAnswer_eq lib key buffer (by omega), getMessage_receive_of_le hnul (by omega),
      getAnswer, if_pos rfl]
  · rw [receiveAnswer, sendDatagram_of_lt (by omega)]
    rfl

theorem perform_get_stored (hlib : lib.Follows D) (hk : Server.PlainKey key)
    (ht : Server.PlainText t) (hv : Passes v t) (h : StillStored key v s cache)
    (hfit : key.bytes.length + 6 ≤ bufsize) (d : Delivery) :
    (perform lib (some s) d (.get key)).2 = if v.bytes = [] then none
      else if 29 + key.bytes.length + t.length ≤ bufsize
        then some (.text (some (CStr.ofBytes t)) (UInt32.ofNat t.length))
      else if 29 + key.bytes.length + t.length ≤ maxDatagram then some (.text none 0)
      else none := by
  have hsent : (getRequest key).length ≤ maxDatagram := by
    rw [length_getRequest]
    exact hfit.trans (by decide)
  rw [perform_get_eq lib (some s) d hsent, serve_get_stored ht.singleLine ht.nul_free hv h
    hk.text.rstrip_eq hfit]
  split_ifs with hne
  · rfl
  all_goals
    rw [Option.bind_some, ht.rstrip_eq, receiveAnswer_jsonText hlib hk ht]
    simp [*]

/-- An answer with a size. -/
def Reports (answer : Option Answer) (size : UInt32) : Prop :=
  ∃ val, answer = some (.text val size)

theorem reports_text {val : Option CStr} {size size' : UInt32} :
    Reports (some (.text val size')) size ↔ size' = size := by
  constructor
  · rintro ⟨val', h⟩
    exact (Answer.text.inj (Option.some.inj h)).2
  · rintro rfl
    exact ⟨val, rfl⟩

theorem zero_eq_size_iff : 0 = v.size ↔ v.bytes = [] := by
  rw [← UInt32.toNat_inj, Value.toNat_size, ← List.length_eq_zero_iff, eq_comm]
  rfl

theorem Passes.eq_nil_iff (hv : Passes v t) : v.bytes = [] ↔ v.bytes = t ∧ t = [] := by
  rcases hv with hv | hv
  · rw [hv, and_iff_right rfl]
  · simp [hv]

theorem Passes.ofNat_length_eq_size_iff (hv : Passes v t) :
    UInt32.ofNat t.length = v.size ↔ v.bytes = t := by
  have hlt := hv.length_le.trans_lt v.length_lt
  rw [← UInt32.toNat_inj, Value.toNat_size, UInt32.toNat_ofNat', Nat.mod_eq_of_lt hlt]
  rcases hv with hv | hv <;> simp [hv]

/-- **The size that is reported** is the one that was passed exactly when the `NUL` was not passed
and the reply has room for the text, or there is no text and the request, which is sent, has no
room for the key. In the process it always is. -/
theorem valSize_eq_iff (hlib : lib.Follows D) (hk : Server.PlainKey key) (ht : Server.PlainText t)
    (hv : Passes v t) (h : StillStored key v s cache) (d : Delivery) :
    (Reports (perform lib (some s) d (.get key)).2 v.size ↔
      v.bytes = t ∧ (t ≠ [] ∧ 29 + key.bytes.length + t.length ≤ bufsize ∨
        t = [] ∧ bufsize < key.bytes.length + 6 ∧ key.bytes.length + 6 ≤ maxDatagram)) ∧
    ∀ maxmem hFn calls old answers new,
      (CacheObj.createCache maxmem hFn).run calls = some (old, answers) →
        old.cacheSet key v.bytes v.size = some new → new.Holds key →
          new.reads key = some (some v.bytes, v.size) := by
  refine ⟨?_, fun _ _ _ _ _ _ hrun hset hholds ↦ CacheObj.reads_of_cacheSet hrun hset hholds⟩
  have hbuf : bufsize = 65504 := rfl
  by_cases hfit : key.bytes.length + 6 ≤ bufsize
  · rw [perform_get_stored hlib hk ht hv h hfit d, or_iff_left fun hlong ↦ by omega]
    by_cases hne : v.bytes = []
    · rw [if_pos hne]
      refine iff_of_false (by simp [Reports]) ?_
      rintro ⟨heq, htext, -⟩
      exact htext (heq ▸ hne)
    · rw [if_neg hne]
      split_ifs with hfits hsent
      · rw [reports_text, hv.ofNat_length_eq_size_iff]
        simp only [hfits, and_true]
        refine ⟨fun heq ↦ ⟨heq, ?_⟩, And.left⟩
        exact fun htext ↦ hne (heq.trans htext)
      · rw [reports_text, zero_eq_size_iff]
        exact iff_of_false hne fun hcond ↦ hfits hcond.2.2
      · exact iff_of_false (by simp [Reports]) fun hcond ↦ hfits hcond.2.2
  · have hlong := Nat.not_le.mp hfit
    have hlen := length_getRequest key
    by_cases hsent : key.bytes.length + 6 ≤ maxDatagram
    · -- the answer is a miss, whatever is stored
      rw [perform_get_of_error (hlen.trans_le hsent) (serve_get_of_lt hlong), reports_text,
        zero_eq_size_iff, hv.eq_nil_iff]
      refine and_congr_right fun _ ↦ ?_
      constructor
      · exact fun htext ↦ Or.inr ⟨htext, hlong, hsent⟩
      · rintro (⟨-, hfits⟩ | ⟨htext, -⟩)
        · omega
        · exact htext
    · -- the request is not sent
      rw [perform_get_of_lt lib _ d (hlen ▸ Nat.not_le.mp hsent)]
      refine iff_of_false (by simp [Reports]) ?_
      rintro ⟨-, ⟨-, hfits⟩ | ⟨-, -, hshort⟩⟩
      · omega
      · exact hsent hshort

theorem valSize_eq_iff_example : ∃ s cache, StillStored (letters 1) vValue s cache ∧
    Reports (perform vendored.library (some s) ⟨[], Server.filled 0⟩ (.get (letters 1))).2
      vValue.size := by
  obtain ⟨s, cache, h⟩ := exists_stillStored_v (v := vValue) (Or.inl rfl) (by decide)
  have hiff := valSize_eq_iff vendored.follows_library (plainKey_letters 1) plainText_v
    (Or.inl rfl) h ⟨[], Server.filled 0⟩
  exact ⟨s, cache, h, hiff.1.mpr ⟨rfl, Or.inl ⟨by decide, by decide⟩⟩⟩

/-- A size of two with the `NUL` is reported as one. -/
theorem valSize_of_terminated : vTerminated.size = 2 ∧
    ∃ s cache, StillStored (letters 1) vTerminated s cache ∧
      (perform vendored.library (some s) ⟨[], Server.filled 0⟩ (.get (letters 1))).2
        = some (.text (some (CStr.ofBytes (ascii "v"))) 1) ∧
      ¬ Reports (perform vendored.library (some s) ⟨[], Server.filled 0⟩ (.get (letters 1))).2
        vTerminated.size := by
  have hpasses : Passes vTerminated (ascii "v") := Or.inr rfl
  obtain ⟨s, cache, h⟩ := exists_stillStored_v hpasses (by decide)
  have hget := perform_get_stored vendored.follows_library (plainKey_letters 1) plainText_v hpasses
    h (by decide) ⟨[], Server.filled 0⟩
  rw [if_neg (by decide), if_pos (by decide)] at hget
  refine ⟨rfl, s, cache, h, hget, ?_⟩
  rw [hget, reports_text]
  decide

end Client

end NetCache
