import NetCache.Client.Source
import NetCache.Server.Frames
import NetCache.Server.Stored

/-!
# Calls over the network

For plain keys and NUL-terminated plain texts the frames of the client, both receive paths of the
server, and the encoding and decoding of the reply compose to one call of the LRU store.

## The way of a call

A request is framed, cut into pieces or sent as a datagram, received, stripped, taken apart and
handled; a reply is encoded, sent, received into a buffer with old contents, and decoded. Each of
these steps has its lemma in an earlier module, and `perform_eq` puts them together for any call:
the answer is that of the store, and the server that is left keeps the contents which the store has.
The domain of the calls is `InDomain`. A limit on the lengths keeps the replies within the buffer of
the client, and the texts bring their own `NUL`, since that is what comes back.

## The exception

A `cache_delete` of a key of about `2 ^ 32` bytes, or of `2 ^ 32 + 2 ^ 31` bytes, does not do what
it should. `strip` keeps the index of the last byte in an `int`; it cuts the request off within its
first word, or overflows its index, and the server stops. `CutOff` says for which keys, by their
length and one of their bytes. The datagram of a `cache_get` of such a key is too long to be sent,
and a program of the domain that sets anything has no such key.

## Beyond the domain

`serve_set` is about all single-line texts: what of them is stored, whether or not they bring their
own `NUL`.
-/

namespace NetCache

open Text

namespace Client

variable {lib : JsonLib} {s : Server.State} {c : Server.Contents} {key : CStr} {t : Bytes}
variable {v : Value} {pieces : List Bytes}

/-! ## Serving a message

A running server and an event, where the server refines its contents. An event whose handler
throws, or is undefined, leaves no server. -/

theorem serve_stream (hs : Server.Keeps s.port (some c)) {pieces : List Bytes}
    {e : Option Server.Contents} {reply : Option Bytes}
    (hact : c.actOnStripped (strip (Server.readUntil [] pieces).1) = some (e, .ok reply)) :
    ∃ s', serve (some s) (.stream pieces) = (some s', reply) ∧ Server.Keeps s'.port e := by
  obtain ⟨s', hstep, hs'⟩ := Server.step_stream_of_act hs hact
  exact ⟨s', by rw [serve, Option.bind_some, hstep], hs'⟩

theorem serve_stream_error (hs : Server.Keeps s.port (some c)) {pieces : List Bytes}
    {e : Option Server.Contents} {thrown : Server.Thrown}
    (hact : c.actOnStripped (strip (Server.readUntil [] pieces).1) = some (e, .error thrown)) :
    serve (some s) (.stream pieces) = (none, none) := by
  obtain ⟨s', hstep, -⟩ := Server.step_stream_of_act hs hact
  rw [serve, Option.bind_some, hstep]

theorem serve_datagram (hs : Server.Keeps s.port (some c)) {d message : Bytes}
    {e : Option Server.Contents} {reply : Option Bytes}
    (hd : Server.receivedMessage (Server.receive s.recbuf d) = some (some message))
    (hact : c.act message = some (e, .ok reply)) :
    ∃ s', serve (some s) (.datagram d) = (some s', reply) ∧ Server.Keeps s'.port e := by
  have hrel := Server.actOnMessage_refines hs message
  rw [hact] at hrel
  generalize hhandled : Server.actOnMessage s.port _ = handled at hrel
  cases hrel with
  | some hrefines =>
    rename_i handled
    refine ⟨⟨handled.port, Server.receive s.recbuf d⟩, ?_, hrefines.port⟩
    rw [serve, Option.bind_some, Server.step_datagram, Server.handleReceive, hd]
    simp only [Server.actOnStripped, hhandled, Option.map_some, Server.Handled.after,
      hrefines.outcome]

/-- Nothing is answered when the handler is undefined. -/
theorem serve_datagram_undefined (hs : Server.Keeps s.port (some c)) {d message : Bytes}
    (hd : Server.receivedMessage (Server.receive s.recbuf d) = some (some message))
    (hact : c.act message = none) : serve (some s) (.datagram d) = (none, none) := by
  have hrel := Server.actOnMessage_refines hs message
  rw [hact] at hrel
  generalize hhandled : Server.actOnMessage s.port _ = handled at hrel
  cases hrel with
  | none =>
    rw [serve, Option.bind_some, Server.step_datagram, Server.handleReceive, hd]
    simp only [Server.actOnStripped, hhandled, Option.map_none]

theorem serve_datagram_none {d : Bytes}
    (hd : Server.receivedMessage (Server.receive s.recbuf d) = none) :
    serve (some s) (.datagram d)
      = (some ⟨s.port, Server.receive s.recbuf d⟩, some Server.errorText) := by
  rw [serve, Option.bind_some, Server.step_datagram, Server.handleReceive, hd]
  rfl

/-! ## Messages -/

theorem request_nil (head word1 : Bytes) :
    request head word1 [] = Server.keyRequest head word1 := by
  have hsep : ascii " /" = [32, 47] := by decide
  simp [request, Server.keyRequest, hsep]

theorem request_of_ne_nil (head word1 : Bytes) (ht : t ≠ []) :
    request head word1 t = Server.textRequest head word1 t := by
  have hsep : ascii " /" = [32, 47] := by decide
  have hslash : ascii "/" = [47] := by decide
  simp [request, Server.textRequest, Server.keyRequest, hsep, hslash, ht]

theorem request_concat (head word1 t : Bytes) :
    request head word1 (t ++ [0]) = Server.textRequest head word1 t ++ [0] := by
  rw [request_of_ne_nil head word1 (List.append_ne_nil_of_right_ne_nil t (List.cons_ne_nil _ _))]
  simp [Server.textRequest, Server.keyRequest]

theorem getMessage_receive {p : Bytes} (hp : 0 ∉ p) (h : p.length < bufsize) (buf : BufArr) :
    getMessage (Server.receive buf (Server.datagramOf p)) = p := by
  obtain ⟨t, ht⟩ := Server.exists_receive_eq buf h []
  rw [Server.datagramOf, getMessage, findInBuf, ht, findIdx?_append_cons hp]
  exact List.take_left

theorem length_jsonText (k t : Bytes) :
    (Server.jsonText k t).length = 28 + k.length + t.length := by
  have h₁ : (ascii "\x7b \"key\": \"").length = 10 := by decide
  have h₂ : (ascii "\" , \"value\": \"").length = 14 := by decide
  have h₃ : (ascii "\" \x7d ").length = 4 := by decide
  simp only [Server.jsonText, List.length_append, h₁, h₂, h₃]
  omega

theorem nul_notMem_jsonText {k : Bytes} (hk : 0 ∉ k) (ht : 0 ∉ t) : 0 ∉ Server.jsonText k t := by
  have h₁ : 0 ∉ ascii "\x7b \"key\": \"" := by decide
  have h₂ : 0 ∉ ascii "\" , \"value\": \"" := by decide
  have h₃ : 0 ∉ ascii "\" \x7d " := by decide
  simp [Server.jsonText, h₁, h₂, h₃, hk, ht]

theorem jsonText_ne_errstr (k t : Bytes) : Server.jsonText k t ≠ errstr := by
  intro h
  have hlen := congrArg List.length h
  have herrstr : errstr.length = 5 := by decide
  rw [length_jsonText, herrstr] at hlen
  omega

/-- A member of the reply. -/
def replyMember (name value : Bytes) (h : (name ++ value).all isPlain = true) : JsonMember where
  before := [32]
  name := name
  afterName := []
  beforeValue := [32]
  value := value
  after := [32]
  spaces := by decide
  plain := h

theorem unpackJson_jsonText (hlib : lib.Conforming) {k : Bytes} (hk : k.all isPlain = true)
    (ht : t.all isPlain = true) : unpackJson lib (Server.jsonText k t) = some (k, t) := by
  let m₁ := replyMember (ascii "key") k (by rw [List.all_append, hk]; decide)
  let m₂ := replyMember (ascii "value") t (by rw [List.all_append, ht]; decide)
  have h₁ : ascii "\x7b \"key\": \"" = 123 :: 32 :: 34 :: (ascii "key" ++ [34, 58, 32, 34]) := by
    decide
  have h₂ : ascii "\" , \"value\": \""
      = 34 :: 32 :: 44 :: 32 :: 34 :: (ascii "value" ++ [34, 58, 32, 34]) := by decide
  have h₃ : ascii "\" \x7d " = [34, 32, 125, 32] := by decide
  have htext : Server.jsonText k t = objectText [] m₁ [m₂] [32] := by
    simp [Server.jsonText, objectText, membersText, JsonMember.text, m₁, m₂, replyMember, h₁, h₂,
      h₃]
  have hnames : ([m₁, m₂].map JsonMember.name).Nodup := by
    have : [ascii "key", ascii "value"].Nodup := by decide
    exact this
  obtain ⟨j, hparse, hmembers⟩ := hlib [] m₁ [m₂] [32] (by decide) (by decide) hnames
  obtain ⟨v₁, hindex₁, hstring₁⟩ := hmembers m₁ List.mem_cons_self
  obtain ⟨v₂, hindex₂, hstring₂⟩ := hmembers m₂ (List.mem_cons_of_mem _ List.mem_cons_self)
  replace hindex₁ : lib.index j (ascii "key") = some v₁ := hindex₁
  replace hindex₂ : lib.index j (ascii "value") = some v₂ := hindex₂
  replace hstring₁ : lib.string v₁ = some k := hstring₁
  replace hstring₂ : lib.string v₂ = some t := hstring₂
  simp only [unpackJson, htext, hparse, hindex₁, hindex₂, hstring₁, hstring₂, Option.bind_eq_bind,
    Option.bind_some]

theorem getAnswer_jsonText (hlib : lib.Conforming) {k : Bytes} (hk : k.all isPlain = true)
    (ht : t.all isPlain = true) : getAnswer lib key (Server.jsonText k t)
      = some (if key.bytes = k then .text (some (CStr.ofBytes t)) (UInt32.ofNat t.length)
          else .text none 0) := by
  rw [getAnswer, if_neg (jsonText_ne_errstr _ _), unpackJson_jsonText hlib hk ht]
  by_cases hkey : key.bytes = k
  · rw [if_pos hkey]
    exact if_neg (not_not_intro hkey)
  · rw [if_neg hkey]
    exact if_pos hkey

theorem receiveAnswer_errorText (lib : JsonLib) (key : CStr) (buffer : BufArr) :
    receiveAnswer lib key buffer Server.errorText = some (.text none 0) := by
  have herror : getMessage (Server.receive buffer (Server.datagramOf Server.errorText)) = errstr :=
    getMessage_receive (by decide) (by decide) buffer
  rw [receiveAnswer_eq lib key buffer (by decide), herror, getAnswer, if_pos rfl]

theorem receiveAnswer_text (hlib : lib.Conforming) {k : CStr} (hk : Server.PlainText k.bytes)
    (ht : Server.PlainText t) (hfits : 29 + k.bytes.length + t.length ≤ bufsize) (key : CStr)
    (buffer : BufArr) : receiveAnswer lib key buffer (Server.jsonText k.bytes t)
      = some (if key.bytes = k.bytes then .text (some (CStr.ofBytes t)) (UInt32.ofNat t.length)
          else .text none 0) := by
  have hjson := nul_notMem_jsonText k.nul_free ht.nul_free
  have hlen := length_jsonText k.bytes t
  have hbuf : bufsize = 65504 := rfl
  have hmax : maxDatagram = 65507 := rfl
  have hsent : (Server.datagramOf (Server.jsonText k.bytes t)).length ≤ maxDatagram := by
    rw [Server.datagramOf, List.length_append, List.length_singleton]
    omega
  rw [receiveAnswer_eq lib key buffer hsent, getMessage_receive hjson (by omega),
    getAnswer_jsonText hlib hk.plain ht.plain]

/-! ## The stream of a `cache_set`

The `NUL` behind the request may come in the same read as the end of the text, and then it is
stripped with whatever whitespace the text ends in. The slash before the text is never whitespace
and stops the loop. -/

theorem readUntil_stream {p : Bytes} (hp : 0 ∉ p) (hpieces : pieces.flatten = streamOf p) :
    (Server.readUntil [] pieces).1 = p ++ [0] := by
  obtain ⟨j, -, hread⟩ := Server.exists_readUntil_eq hp List.not_mem_nil
    (show [] ++ pieces.flatten = p ++ 0 :: [] from hpieces)
  rw [hread, List.take_nil]

/-- What is stored for the text of a value. -/
def storedText (v : Value) (t : Bytes) : Bytes := if v.bytes = [] then [] else rstrip t ++ [0]

theorem length_storedText_le (v : Value) (t : Bytes) : (storedText v t).length ≤ t.length + 1 := by
  have hstrip := (rstrip_isPrefix t).length_le
  rw [storedText]
  split_ifs
  · exact Nat.zero_le _
  · rw [List.length_append, List.length_singleton]
    omega

/-- A value is passed without its `NUL`, or with it. -/
def Passes (v : Value) (t : Bytes) : Prop := v.bytes = t ∨ v.bytes = t ++ [0]

theorem Passes.length_le (hv : Passes v t) : t.length ≤ v.bytes.length := by
  rcases hv with hv | hv <;> simp [hv]

theorem cacheSet_eq_some_iff {stream : Bytes} : cacheSet key v = some stream ↔
    v.bytes.length ≤ bufsize ∧ stream = streamOf (request (ascii "PUT") key.bytes v.bytes) := by
  rw [cacheSet, Value.toNat_size]
  split_ifs with hlong
  · exact iff_of_false (by simp) fun h ↦ absurd h.1 (Nat.not_le.mpr hlong)
  · rw [Option.some.injEq, eq_comm, and_iff_right (Nat.not_lt.mp hlong)]

/-- Stripping takes the whitespace off the text and leaves the slash before it. -/
theorem strip_textRequest {verb k w : Bytes} (hw : w.all isWhiteSpace = true)
    (hlen : (Server.textRequest verb k t ++ w).length ≤ 2 ^ 31)
    (hshort : (Server.textRequest verb k t).length < 2 ^ 31) :
    strip (Server.textRequest verb k t ++ w) = some (Server.textRequest verb k (rstrip t)) := by
  have hslash : Solid (verb ++ 32 :: 47 :: (k ++ [47])) :=
    ⟨verb ++ 32 :: 47 :: k, 47, by simp, by decide⟩
  have hsplit : ∀ u, Server.textRequest verb k u = (verb ++ 32 :: 47 :: (k ++ [47])) ++ u := by
    simp [Server.textRequest, Server.keyRequest]
  have hrstrip : rstrip (Server.textRequest verb k t ++ w)
      = Server.textRequest verb k (rstrip t) := by
    rw [hsplit, List.append_assoc, rstrip_solid_append hslash, rstrip_append hw, ← hsplit]
  have hle := (rstrip_isPrefix t).length_le
  rw [Server.length_textRequest] at hshort
  rw [strip_of_not_all hlen ?_ ?_, hrstrip]
  · rw [hrstrip, Server.length_textRequest]
    omega
  · rw [hsplit, List.append_assoc]
    exact hslash.not_all _

theorem strip_readUntil_text (ht : 0 ∉ t) (hv : Passes v t) (hne : v.bytes ≠ [])
    (hpieces : pieces.flatten = streamOf (request (ascii "PUT") key.bytes v.bytes))
    (hlen : key.bytes.length + t.length + 8 ≤ 2 ^ 31) :
    strip (Server.readUntil [] pieces).1
      = some (Server.textRequest (ascii "PUT") key.bytes (rstrip t)) := by
  have hnul : 0 ∉ Server.textRequest (ascii "PUT") key.bytes t :=
    Server.nul_notMem_textRequest (by decide) key.nul_free ht
  -- a `NUL` of its own is the first one, and then the one behind it need not have arrived
  obtain ⟨rest, hrest, hws, hflat⟩ : ∃ rest : Bytes, rest.length ≤ 1 ∧
      rest.all isWhiteSpace = true ∧
      [] ++ pieces.flatten = Server.textRequest (ascii "PUT") key.bytes t ++ 0 :: rest := by
    rcases hv with hv | hv
    · refine ⟨[], Nat.zero_le _, rfl, ?_⟩
      rw [hpieces, request_of_ne_nil _ _ hne, hv]
      rfl
    · refine ⟨[0], le_rfl, rfl, ?_⟩
      rw [hpieces, hv, request_concat, streamOf, List.nil_append, List.append_assoc,
        List.singleton_append]
  obtain ⟨j, -, hread⟩ := Server.exists_readUntil_eq hnul List.not_mem_nil hflat
  rw [hread]
  refine strip_textRequest ?_ ?_ ?_
  · rw [List.all_cons, Bool.and_eq_true]
    refine ⟨rfl, List.all_eq_true.mpr fun b hb ↦ ?_⟩
    exact List.all_eq_true.mp hws b (List.mem_of_mem_take hb)
  · have htake := (List.take_sublist j rest).length_le
    rw [List.length_append, List.length_cons, Server.length_textRequest, Server.length_put]
    omega
  · rw [Server.length_textRequest, Server.length_put]
    omega

theorem strip_readUntil_key
    (hpieces : pieces.flatten = streamOf (request (ascii "PUT") key.bytes []))
    (hlen : key.bytes.length + 6 ≤ 2 ^ 31) :
    strip (Server.readUntil [] pieces).1
      = some (Server.keyRequest (ascii "PUT") (rstrip key.bytes)) := by
  have hnul : 0 ∉ Server.keyRequest (ascii "PUT") key.bytes :=
    Server.nul_notMem_keyRequest (by decide) key.nul_free
  have hkept : Server.kept ((ascii "PUT").length + 2) (key.bytes ++ [0])
      = some (rstrip key.bytes) := by
    have hle := (rstrip_isPrefix key.bytes).length_le
    have hws := rstrip_concat_of_ws (s := key.bytes) (by decide : isWhiteSpace 0 = true)
    rw [Server.length_put, Server.kept_of_le (by omega)
      (by rw [List.length_append, List.length_singleton]; omega) (by rw [hws]; omega), hws]
  rw [request_nil] at hpieces
  rw [readUntil_stream hnul hpieces, Server.keyRequest_append, Server.strip_keyRequest hkept]

/-- **What a `cache_set` stores**: the key as it is, unless there is no text to keep its trailing
whitespace from being stripped. -/
theorem serve_set (hs : Server.Keeps s.port (some c)) (hname : Server.IsName key)
    (hline : Server.SingleLine t) (ht : 0 ∉ t) (hv : Passes v t)
    (hsent : cacheSet key v = some pieces.flatten) (hfit : key.bytes.length + 6 ≤ bufsize)
    (hkey : v.bytes ≠ [] ∨ rstrip key.bytes = key.bytes) :
    ∃ s', serve (some s) (.stream pieces) = (some s', none) ∧
      Server.Keeps s'.port (some (c.put key.bytes (storedText v t))) := by
  have hbuf : bufsize = 65504 := rfl
  obtain ⟨hshort, hpieces⟩ := cacheSet_eq_some_iff.mp hsent
  refine serve_stream hs ?_
  by_cases hne : v.bytes = []
  · have hput : c.put key.bytes [] = c.put (key.bytes ++ [0]) [] := by
      rw [Server.Contents.put, Server.Contents.put, CStr.ofBytes_bytes, CStr.ofBytes_append]
    rw [hne] at hpieces
    rw [strip_readUntil_key hpieces (by omega), hkey.resolve_left (not_not_intro hne),
      Server.Contents.actOnStripped_some, Server.act_put_key hname.no_slash hname.line, storedText,
      if_pos hne, hput]
  · have hlen := hv.length_le
    rw [strip_readUntil_text ht hv hne hpieces (by omega), storedText, if_neg hne,
      Server.Contents.actOnStripped_some,
      Server.act_put hname.no_slash hname.line (hline.mono (rstrip_isPrefix t).subset)]

/-! ## One call -/

/-- What a caller of the client sees of a reply of the store. -/
def Answer.ofReply : Lru.Reply Value → Answer
  | .done => .void
  | .miss => .text none 0
  | .hit v => .text (some (CStr.ofBytes v.bytes))
      (UInt32.ofNat (CStr.ofBytes v.bytes).bytes.length)

variable {d : Delivery}

/-- **`cache_set`** over the network, whichever way its two `NUL`s are read. -/
theorem perform_set (hs : Server.Keeps s.port (some c)) (hk : Server.PlainKey key)
    (ht : Server.PlainText t) (hv : v.bytes = t ++ [0])
    (hfits : 29 + key.bytes.length + t.length ≤ bufsize) (hd : d.Complete (.set key v)) :
    ∃ s', perform lib (some s) d (.set key v) = (some s', some .void) ∧
      Server.Keeps s'.port (some (c.apply (.set key v))) := by
  have hne : v.bytes ≠ [] := by simp [hv]
  have hsent : v.bytes.length ≤ bufsize := by
    rw [hv, List.length_append, List.length_singleton]
    omega
  have hset : cacheSet key v = some d.pieces.flatten :=
    cacheSet_eq_some_iff.mpr ⟨hsent, hd.stream _ (cacheSet_eq_some_iff.mpr ⟨hsent, rfl⟩)⟩
  obtain ⟨s', hserve, hs'⟩ := serve_set hs ⟨hk.no_slash, hk.text.singleLine⟩ ht.singleLine
    ht.nul_free (Or.inr hv) hset (by omega) (Or.inl hne)
  have hput : c.put key.bytes (storedText v t) = c.apply (.set key v) := by
    have hvalue : Server.putValue (storedText v t) = v := by
      rw [storedText, if_neg hne, ht.rstrip_eq, ← hv, Server.putValue_eq v.length_lt]
    rw [Server.Contents.put, hvalue, CStr.ofBytes_bytes]
    rfl
  refine ⟨s', ?_, hput ▸ hs'⟩
  rw [perform, hset]
  simp only [hserve, Option.map_some]

theorem getRequest_eq (key : CStr) :
    getRequest key = Server.keyRequest (ascii "GET") key.bytes ++ 0 :: [] := by
  rw [getRequest, request_nil]
  rfl

theorem length_getRequest (key : CStr) : (getRequest key).length = key.bytes.length + 6 := by
  rw [getRequest_eq, List.length_append, Server.length_keyRequest, Server.length_get,
    List.length_singleton]
  omega

theorem length_getMessage (k : Bytes) :
    (Server.keyRequest (ascii "GET") k).length = 5 + k.length := by
  rw [Server.length_keyRequest, Server.length_get]

theorem nul_notMem_getMessage (key : CStr) :
    0 ∉ Server.keyRequest (ascii "GET") key.bytes :=
  Server.nul_notMem_keyRequest (by decide) key.nul_free

/-- The datagram of a `cache_get` that fits the buffer of the server is received as it was meant,
but for trailing whitespace. -/
theorem receivedMessage_getRequest (hfit : 5 + key.bytes.length < bufsize) (recbuf : BufArr) :
    Server.receivedMessage (Server.receive recbuf (getRequest key))
      = some (some (Server.keyRequest (ascii "GET") (rstrip key.bytes))) := by
  have hle := (rstrip_isPrefix key.bytes).length_le
  have hbuf : bufsize = 65504 := rfl
  have hlen := length_getMessage key.bytes
  have hkept : Server.kept ((ascii "GET").length + 2) key.bytes = some (rstrip key.bytes) :=
    Server.kept_of_le (by omega) (by rw [Server.length_get]; omega)
      (by rw [Server.length_get]; omega)
  rw [getRequest_eq, Server.receivedMessage_receive (nul_notMem_getMessage key) (by omega),
    Server.strip_keyRequest hkept]

theorem receivedMessage_getRequest_of_le (hlong : bufsize ≤ 5 + key.bytes.length)
    (recbuf : BufArr) : Server.receivedMessage (Server.receive recbuf (getRequest key)) = none := by
  have hlen := length_getMessage key.bytes
  apply Server.receivedMessage_of_notMem
  rw [Server.receive_bytes, getRequest_eq, List.take_append_of_le_length (by omega),
    List.drop_of_length_le (by rw [recbuf.length_eq, List.length_append]; omega), List.append_nil]
  intro h
  exact nul_notMem_getMessage key (List.mem_of_mem_take h)

theorem perform_get_of_error {server server' : Option Server.State}
    (hsent : (getRequest key).length ≤ maxDatagram)
    (hserve : serve server (.datagram (getRequest key)) = (server', some Server.errorText)) :
    perform lib server d (.get key) = (server', some (.text none 0)) := by
  rw [perform_get_eq lib server d hsent, hserve, Option.bind_some, receiveAnswer_errorText]

/-- The server has nothing for the key. A request that does not fit its buffer is answered like
this too, as it should be, since nothing is stored for its key. -/
theorem serve_get_miss (hs : Server.Keeps s.port (some c)) (hk : Server.PlainKey key)
    (hfind : Lru.find key c.entries = none) :
    ∃ s', serve (some s) (.datagram (getRequest key)) = (some s', some Server.errorText) ∧
      Server.Keeps s'.port (some c) := by
  by_cases hfit : 5 + key.bytes.length < bufsize
  · have hact : c.act (Server.keyRequest (ascii "GET") (rstrip key.bytes))
        = some (some c, .ok (some Server.errorText)) := by
      rw [hk.text.rstrip_eq, Server.act_get hk.no_slash hk.text.singleLine,
        Server.Contents.get_concat, CStr.ofBytes_bytes, hfind]
    exact serve_datagram hs (receivedMessage_getRequest hfit _) hact
  · have hnone := receivedMessage_getRequest_of_le (Nat.not_lt.mp hfit) s.recbuf
    exact ⟨_, serve_datagram_none hnone, hs⟩

theorem serve_get_hit (hs : Server.Keeps s.port (some c)) (hk : Server.PlainKey key)
    (ht : Server.PlainText t) (hv : v.bytes = t ++ [0])
    (hfits : 29 + key.bytes.length + t.length ≤ bufsize)
    (hfind : Lru.find key c.entries = some v) :
    ∃ s', serve (some s) (.datagram (getRequest key))
        = (some s', some (Server.jsonText key.bytes t)) ∧
      Server.Keeps s'.port (some { c with entries := Lru.touch key c.entries }) := by
  have hstring : v.bytes.takeWhile (· ≠ 0) = t := by
    rw [hv]
    exact CStr.bytes_ofBytes_append (t := []) ht.nul_free
  have hend : 0 ∈ v.bytes := by simp [hv]
  have hact : c.act (Server.keyRequest (ascii "GET") (rstrip key.bytes))
      = some (some { c with entries := Lru.touch key c.entries },
        .ok (some (Server.jsonText key.bytes t))) := by
    rw [hk.text.rstrip_eq, Server.act_get hk.no_slash hk.text.singleLine,
      Server.Contents.get_concat, CStr.ofBytes_bytes, hfind]
    simp only [hstring, if_pos hend]
  exact serve_datagram hs (receivedMessage_getRequest (by omega) _) hact

/-- **A `cache_get` that misses.** -/
theorem perform_get_miss (hs : Server.Keeps s.port (some c)) (hk : Server.PlainKey key)
    (hsent : (getRequest key).length ≤ maxDatagram)
    (hfind : Lru.find key c.entries = none) :
    ∃ s', perform lib (some s) d (.get key) = (some s', some (.text none 0)) ∧
      Server.Keeps s'.port (some c) := by
  obtain ⟨s', hserve, hs'⟩ := serve_get_miss hs hk hfind
  exact ⟨s', perform_get_of_error hsent hserve, hs'⟩

/-- **A `cache_get` that hits.** -/
theorem perform_get_hit (hlib : lib.Conforming) (hs : Server.Keeps s.port (some c))
    (hk : Server.PlainKey key) (hsent : (getRequest key).length ≤ maxDatagram)
    (ht : Server.PlainText t) (hv : v.bytes = t ++ [0])
    (hfits : 29 + key.bytes.length + t.length ≤ bufsize)
    (hfind : Lru.find key c.entries = some v) :
    ∃ s', perform lib (some s) d (.get key)
        = (some s', some (.text (some (CStr.ofBytes t)) (UInt32.ofNat t.length))) ∧
      Server.Keeps s'.port (some { c with entries := Lru.touch key c.entries }) := by
  obtain ⟨s', hserve, hs'⟩ := serve_get_hit hs hk ht hv hfits hfind
  refine ⟨s', ?_, hs'⟩
  rw [perform_get_eq lib (some s) d hsent, hserve, Option.bind_some,
    receiveAnswer_text hlib hk.text ht hfits, if_pos rfl]

/-- **`cache_get`** over the network. -/
theorem perform_get (hlib : lib.Conforming) (hs : Server.Keeps s.port (some c))
    (hk : Server.PlainKey key) (hsent : (getRequest key).length ≤ maxDatagram)
    (hstored : ∀ v, Lru.find key c.entries = some v → ∃ t, Server.PlainText t ∧
      v.bytes = t ++ [0] ∧ 29 + key.bytes.length + t.length ≤ bufsize) :
    ∃ s', perform lib (some s) d (.get key) = (some s', some (Answer.ofReply
        (Lru.step (Lru.word Value.size c.limit) c.entries (.get key)).2)) ∧
      Server.Keeps s'.port (some (c.apply (.get key))) := by
  rw [Server.Contents.apply, Lru.step_get]
  cases hfind : Lru.find key c.entries with
  | none =>
    rw [Lru.touch_of_none hfind]
    exact perform_get_miss hs hk hsent hfind
  | some v =>
    obtain ⟨t, ht, hv, hfits⟩ := hstored v hfind
    have hbytes : CStr.ofBytes v.bytes = CStr.ofBytes t := by
      ext1
      rw [hv, CStr.bytes_ofBytes_append ht.nul_free, CStr.bytes_ofBytes ht.nul_free]
    rw [Option.elim_some, Answer.ofReply, hbytes, CStr.bytes_ofBytes ht.nul_free]
    exact perform_get_hit hlib hs hk hsent ht hv hfits hfind

/-- A request of `cache_delete` that `strip` cuts off within its first word, or throws on. -/
def CutOff (key : CStr) : Prop :=
  (key.bytes.length + 8) % 2 ^ 32 ≤ 6 ∨ (key.bytes.length + 8) % 2 ^ 32 = 2 ^ 31 - 1 ∧
    ∃ b ∈ key.bytes[2 ^ 31 - 9]?, isWhiteSpace b = false

instance : DecidablePred CutOff := fun _ ↦ inferInstanceAs (Decidable (_ ∨ _ ∧ _))

theorem exists_getElem?_concat_nul (k : Bytes) (n : ℕ) :
    (∃ b ∈ (k ++ [0])[n]?, isWhiteSpace b = false) ↔ ∃ b ∈ k[n]?, isWhiteSpace b = false := by
  rcases Nat.lt_or_ge n k.length with hlt | hge
  · rw [List.getElem?_append_left hlt]
  · rw [List.getElem?_eq_none hge]
    refine iff_of_false ?_ (by simp)
    rintro ⟨b, hb, hws⟩
    rw [List.getElem?_append_right hge] at hb
    obtain rfl := List.mem_singleton.mp (List.mem_of_getElem? hb)
    cases hws

/-- Nothing is left of the text behind the slash. -/
theorem cutOff_iff : CutOff key ↔ Server.kept 8 (key.bytes ++ [0]) = none := by
  have hlen : 8 + (key.bytes ++ [0]).length = key.bytes.length + 9 := by
    rw [List.length_append, List.length_singleton]
    omega
  rw [CutOff, Server.kept_eq_none_iff (by decide) (by decide), exists_getElem?_concat_nul, hlen,
    stripBound_eq, if_neg (Nat.succ_ne_zero _), Nat.add_sub_assoc (by decide)]
  refine or_congr ?_ (and_congr_left' (by omega))
  split_ifs <;> omega

theorem length_deleteRequest (k : Bytes) :
    (Server.keyRequest (ascii "DELETE") k).length = 8 + k.length := by
  rw [Server.length_keyRequest, Server.length_delete]

/-- What is left of a request that is cut off has no space. -/
theorem act_delete_cutOff (hcut : CutOff key) : ∃ thrown,
    c.actOnStripped (strip (Server.keyRequest (ascii "DELETE") key.bytes ++ [0]))
      = some (some c, .error thrown) := by
  rw [Server.keyRequest_append]
  cases hstrip : strip (Server.keyRequest (ascii "DELETE") (key.bytes ++ [0])) with
  | none => exact ⟨_, rfl⟩
  | some message =>
    have hkept : Server.kept ((ascii "DELETE").length + 2) (key.bytes ++ [0]) = none := by
      rw [Server.length_delete]
      exact cutOff_iff.mp hcut
    have hspace := Server.space_notMem_strip (by decide) hkept hstrip
    refine ⟨.lengthError, ?_⟩
    rw [Server.Contents.actOnStripped_some, Server.Contents.act, Server.parts_eq,
      Server.find_eq_none_iff.mpr hspace]
    rfl

theorem strip_deleteRequest (hcut : ¬ CutOff key) :
    ∃ u, strip (Server.keyRequest (ascii "DELETE") key.bytes ++ [0])
        = some (Server.keyRequest (ascii "DELETE") u) ∧ ∀ b ∈ u, b ∈ key.bytes ++ [0] := by
  obtain ⟨u, hu⟩ := Option.ne_none_iff_exists'.mp fun h ↦ hcut (cutOff_iff.mpr h)
  refine ⟨u, ?_, (Server.kept_isPrefix hu).subset⟩
  rw [Server.keyRequest_append]
  exact Server.strip_keyRequest (by rwa [Server.length_delete])

/-- A request that is not cut off deletes its key, or some key when the length of its own does not
fit an `int`. -/
theorem act_delete_of_not_cutOff (hk : Server.PlainKey key) (hcut : ¬ CutOff key)
    (hshort : key.bytes.length < 2 ^ 31 - 8 ∨ c.entries = []) :
    c.actOnStripped (strip (Server.keyRequest (ascii "DELETE") key.bytes ++ [0]))
      = some (some (c.apply (.delete key)), .ok none) := by
  rcases hshort with hshort | hempty
  · have hlen := length_deleteRequest key.bytes
    rw [strip_of_solid (Server.solid_keyRequest hk.text) rfl
      (by rw [List.length_append, List.length_singleton]; omega) (by omega),
      Server.Contents.actOnStripped_some, Server.act_delete hk.no_slash hk.text.singleLine,
      Server.Contents.delete, CStr.ofBytes_append]
    rfl
  · -- whatever key is left of the request is not stored
    obtain ⟨u, hstrip, hu⟩ := strip_deleteRequest hcut
    have hnot : ∀ b, b ≠ 0 → b ∉ key.bytes → b ∉ u := by
      intro b hb hkey hmem
      simpa [hb, hkey] using hu b hmem
    have hline : Server.SingleLine u :=
      ⟨hnot _ (by decide) hk.text.singleLine.1, hnot _ (by decide) hk.text.singleLine.2⟩
    rw [hstrip, Server.Contents.actOnStripped_some,
      Server.act_delete (hnot _ (by decide) hk.no_slash) hline, Server.Contents.delete,
      Server.Contents.apply, hempty]
    rfl

theorem readUntil_delete (hpieces : pieces.flatten = cacheDelete key) :
    (Server.readUntil [] pieces).1 = Server.keyRequest (ascii "DELETE") key.bytes ++ [0] := by
  rw [cacheDelete, request_nil] at hpieces
  exact readUntil_stream (Server.nul_notMem_keyRequest (by decide) key.nul_free) hpieces

/-- **`cache_delete`** over the network, of a key that is not too long. -/
theorem perform_delete (hs : Server.Keeps s.port (some c)) (hk : Server.PlainKey key)
    (hcut : ¬ CutOff key) (hshort : key.bytes.length < 2 ^ 31 - 8 ∨ c.entries = [])
    (hd : d.Complete (.delete key)) :
    ∃ s', perform lib (some s) d (.delete key) = (some s', some .void) ∧
      Server.Keeps s'.port (some (c.apply (.delete key))) := by
  have hact := act_delete_of_not_cutOff (c := c) hk hcut hshort
  rw [← readUntil_delete (hd.stream _ rfl)] at hact
  obtain ⟨s', hserve, hs'⟩ := serve_stream hs hact
  refine ⟨s', ?_, hs'⟩
  rw [perform]
  simp only [hserve, Option.map_some]

theorem perform_delete_cutOff (hs : Server.Keeps s.port (some c)) (hcut : CutOff key)
    (hd : d.Complete (.delete key)) :
    perform lib (some s) d (.delete key) = (none, some .void) := by
  obtain ⟨thrown, hact⟩ := act_delete_cutOff (c := c) hcut
  rw [← readUntil_delete (hd.stream _ rfl)] at hact
  have hserve := serve_stream_error hs hact
  rw [perform]
  simp only [hserve, Option.map_some]

/-! ## Any call

That the replies fit is asked of all pairs of a key and a text in the program, as any of them may
be what a `cache_get` finds. -/

/-- What the calls of a program may be: the keys are plain, the values are plain texts with their
`NUL`, and a reply with any of the keys and any of the texts fits the buffer of the client. -/
structure InDomain (calls : List (Lru.Call CStr Value)) : Prop where
  /-- The keys are plain. -/
  key : ∀ call ∈ calls, Server.PlainKey call.key
  /-- The values are plain texts with their `NUL`. -/
  value : ∀ key v, .set key v ∈ calls → ∃ t, Server.PlainText t ∧ v.bytes = t ++ [0]
  /-- The replies fit. -/
  fits : ∀ call ∈ calls, ∀ key v, .set key v ∈ calls → ∀ t, v.bytes = t ++ [0] →
    29 + call.key.bytes.length + t.length ≤ bufsize

/-- What is stored was stored by one of the calls. -/
def StoredBy (calls : List (Lru.Call CStr Value)) (entries : List (CStr × Value)) : Prop :=
  ∀ e ∈ entries, .set e.1 e.2 ∈ calls

variable {calls : List (Lru.Call CStr Value)} {call : Lru.Call CStr Value}

theorem StoredBy.step {C : Lru.Capacity CStr Value} {l : List (CStr × Value)}
    (hst : StoredBy calls l) (hmem : call ∈ calls) : StoredBy calls (Lru.step C l call).1 := by
  intro e he
  rcases Lru.mem_of_mem_step he with he | rfl
  · exact hst e he
  · exact hmem

/-- **One call over the network** is one call of the store: its effect and its answer. -/
theorem perform_eq (hlib : lib.Conforming) (hdom : InDomain calls)
    (hs : Server.Keeps s.port (some c)) (hst : StoredBy calls c.entries) (hmem : call ∈ calls)
    (hd : d.Complete call) (hcut : ∀ key, call = .delete key → ¬ CutOff key) :
    ∃ s', perform lib (some s) d call = (some s', some (Answer.ofReply
        (Lru.step (Lru.word Value.size c.limit) c.entries call).2)) ∧
      Server.Keeps s'.port (some (c.apply call)) := by
  have hk := hdom.key call hmem
  cases call with
  | set key v =>
    obtain ⟨t, ht, hv⟩ := hdom.value key v hmem
    exact perform_set hs hk ht hv (hdom.fits _ hmem _ _ hmem t hv) hd
  | get key =>
    refine perform_get hlib hs hk (hd.datagram key rfl) ?_
    intro v hfind
    have hset := hst _ (Lru.mem_of_find hfind)
    obtain ⟨t, ht, hv⟩ := hdom.value _ _ hset
    exact ⟨t, ht, hv, hdom.fits _ hmem _ _ hset t hv⟩
  | delete key =>
    refine perform_delete hs hk (hcut key rfl) ?_ hd
    rcases List.eq_nil_or_concat c.entries with hempty | ⟨_, e, hentries⟩
    · exact Or.inr hempty
    · have hset := hst e (by simp [hentries])
      obtain ⟨t, -, hv⟩ := hdom.value _ _ hset
      have hfits : 29 + key.bytes.length + t.length ≤ bufsize :=
        hdom.fits _ hmem _ _ hset t hv
      have hbuf : bufsize = 65504 := rfl
      exact Or.inl (by omega)

end Client

end NetCache
