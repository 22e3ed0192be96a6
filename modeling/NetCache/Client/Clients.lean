import NetCache.Client.ProgramOrder
import NetCache.Server.Life
import NetCache.Service.Network

/-!
# Many clients

Any number of processes use the server through `client.cpp`: they create caches, set, get and delete
keys, and destroy their caches, which stops the server for all of them.

## The server as a service

The clients and the network are those of `Service.Net`, for which nothing is particular to caches. A
command is a post, written to a connection that is read in any pieces; a `cache_get` is a query.
`create_cache` may ask for any limit at any time.

## The specification

The sequential specification is the contents of a server, or nothing when it is gone (`store`). It
includes what the clients do to each other: a limit is taken only when no space is used, and read as
a signed number; `destroy_cache` ends the service, and so does a `cache_delete` that is cut off. On
the domain the server refines this specification (`refines_store`).

## What the clients see

So one order of the requests explains what all the clients see (`clients_serialised`). It leads the
store to the contents of the server, has no post more often than it was sent, and respects real
time. Where replies arrive only in the socket that their query was sent from, a `cache_get` returns
what the store has for its key at one place between the call and the return.

`destroyCache_exits` is about the end: after a `destroy_cache`, in any state of the server, its
process has exited with empty heaps.
-/

namespace NetCache

open Text

namespace Client

/-! ## The server as a service -/

/-- What a client sends over a connection. -/
inductive Command
  /-- `create_cache` -/
  | create (maxmem : UInt64)
  /-- `cache_set` -/
  | set (key : CStr) (v : Value)
  /-- `cache_delete` -/
  | delete (key : CStr)
  /-- `destroy_cache` -/
  | destroy

/-- The stream of a command, `none` when nothing is sent. -/
def Command.stream : Command → Option Bytes
  | create maxmem => some (createCache maxmem)
  | set key v => cacheSet key v
  | delete key => some (cacheDelete key)
  | destroy => some destroyCache

/-- The server. The stream of a command is read in any pieces, and a datagram may end without a
reply. -/
def handler : Service.Handler (Option Server.State) Command CStr (Option Bytes) where
  post server command server' := ∃ s stream pieces, server = some s ∧
    command.stream = some stream ∧ pieces.flatten = stream ∧
    server' = (serve (some s) (.stream pieces)).1
  query server key server' reply := ∃ s, server = some s ∧
    serve (some s) (.datagram (getRequest key)) = (server', reply)

/-- What a `cache_get` may make of a reply that could be sent, whatever is in its buffer before. -/
def Reads (lib : JsonLib) (key : CStr) (reply : Option Bytes) (answer : Option Answer) : Prop :=
  ∃ message buffer, reply = some message ∧
    (Server.datagramOf message).length ≤ maxDatagram ∧
    receiveAnswer lib key buffer message = answer

/-- The clients, the network and the server. -/
abbrev Clients (ι : Type*) :=
  Service.Net ι (Option Server.State) Command CStr (Option Bytes) (Option Answer)

/-- The clients make calls among those listed, and create and destroy caches as they like. -/
def Allowed (calls : List (Lru.Call CStr Value)) : Service.Request Command CStr → Prop
  | .post (.create _) => True
  | .post (.set key v) => .set key v ∈ calls
  | .post (.delete key) => .delete key ∈ calls
  | .post .destroy => True
  -- a longer datagram is not sent: the call throws
  | .query key => .get key ∈ calls ∧ (getRequest key).length ≤ maxDatagram

/-! ## The store as its specification

The contents after a history are computed without any network. `Changes` lists what a request can
do to contents that are left, for the invariants of histories. -/

/-- What a command leaves of the contents of a server, `none` if it stops the server. A limit is
only taken by a server that uses no space, and is read as a signed number. -/
def obey (c : Server.Contents) : Command → Option Server.Contents
  | .create maxmem =>
    if c.spaceUsed ≠ 0 then some c
    else if maxmem.toNat < 2 ^ 63 then some ⟨maxmem, []⟩
    else none
  | .set key v => some (c.apply (.set key v))
  | .delete key => if CutOff key then none else some (c.apply (.delete key))
  | .destroy => none

/-- The store, `none` when the server is gone. -/
def store :
    Service.Spec (Option Server.Contents) Command CStr (Option (Lru.Reply Value)) where
  post c command := c.bind fun c ↦ obey c command
  query c key := (c.map fun c ↦ c.apply (.get key),
    c.map fun c ↦ (Lru.step (Lru.word Value.size c.limit) c.entries (.get key)).2)

/-- The store after a history of a server that was started with a limit. -/
def after (maxmem : Int32) (history : List (Service.Request Command CStr)) :
    Option Server.Contents := store.run (some ⟨maxmem.toInt64.toUInt64, []⟩) history

/-- The request of a call. -/
def requestOf : Lru.Call CStr Value → Service.Request Command CStr
  | .set key v => .post (.set key v)
  | .get key => .query key
  | .delete key => .post (.delete key)

/-- What a request can do to contents that are left. -/
inductive Changes (c : Server.Contents) : Service.Request Command CStr → Server.Contents → Prop
  /-- A limit is refused. -/
  | refused (maxmem : UInt64) (hused : c.spaceUsed ≠ 0) : Changes c (.post (.create maxmem)) c
  /-- A limit is taken. -/
  | created (maxmem : UInt64) (hused : c.spaceUsed = 0) (hmax : maxmem.toNat < 2 ^ 63) :
    Changes c (.post (.create maxmem)) ⟨maxmem, []⟩
  /-- A call is made. -/
  | call (call : Lru.Call CStr Value) : Changes c (requestOf call) (c.apply call)

theorem changes_of_next {t : Option Server.Contents} {r : Service.Request Command CStr}
    {c' : Server.Contents} (h : store.next t r = some c') : ∃ c, t = some c ∧ Changes c r c' := by
  cases r with
  | post command =>
    obtain ⟨c, hc, hobey⟩ := Option.bind_eq_some_iff.mp h
    refine ⟨c, hc, ?_⟩
    cases command with
    | create maxmem =>
      rw [obey] at hobey
      split_ifs at hobey with hused hmax
      · obtain rfl := Option.some.inj hobey
        exact .refused maxmem hused
      · obtain rfl := Option.some.inj hobey
        exact .created maxmem (not_not.mp hused) hmax
    | set key v =>
      obtain rfl := Option.some.inj hobey
      exact .call (.set key v)
    | delete key =>
      rw [obey] at hobey
      split_ifs at hobey with hcut
      obtain rfl := Option.some.inj hobey
      exact .call (.delete key)
    | destroy => cases hobey
  | query key =>
    obtain ⟨c, hc, rfl⟩ := Option.map_eq_some_iff.mp h
    exact ⟨c, hc, .call (.get key)⟩

/-- A server has the contents, which come from the calls. -/
def Mirrors (calls : List (Lru.Call CStr Value)) (server : Option Server.State) :
    Option Server.Contents → Prop
  | none => server = none
  | some c => ∃ s, server = some s ∧ Server.Keeps s.port (some c) ∧ StoredBy calls c.entries

/-- A reply tells the client that asked the result of the store, and any other client nothing. -/
def Tells (lib : JsonLib) (key : CStr) (reply : Option Bytes) (result : Option (Lru.Reply Value)) :
    Prop :=
  ∃ message r, reply = some message ∧ result = some r ∧ ∀ key' buffer,
    receiveAnswer lib key' buffer message
      = some (if key' = key then Answer.ofReply r else .text none 0)

variable {lib : JsonLib} {calls : List (Lru.Call CStr Value)} {s : Server.State}
  {c : Server.Contents} {pieces : List Bytes} {key : CStr}

theorem act_destroyCache (c : Server.Contents) (hpieces : pieces.flatten = destroyCache) :
    c.actOnStripped (strip (Server.readUntil [] pieces).1)
      = some (some c, .error .exitException) := by
  have hnul : 0 ∉ request (ascii "POST") (ascii "shutdown") [] := by decide
  have hstrip : strip (request (ascii "POST") (ascii "shutdown") [] ++ [0])
      = some (ascii "POST /shutdown") := by decide
  have hparts : Server.parts (ascii "POST /shutdown")
      = some ⟨ascii "POST", ascii "shutdown" ++ [0], []⟩ := by decide
  rw [readUntil_stream hnul hpieces, hstrip, Server.Contents.actOnStripped_some,
    Server.Contents.act, hparts]
  rfl

theorem serve_destroyCache (hs : Server.Keeps s.port (some c))
    (hpieces : pieces.flatten = destroyCache) :
    serve (some s) (.stream pieces) = (none, none) :=
  serve_stream_error hs (act_destroyCache c hpieces)

/-- `create_cache` sets the limit of a server that uses no space. -/
theorem serve_create (hs : Server.Keeps s.port (some c)) (hst : StoredBy calls c.entries)
    {maxmem : UInt64} (hpieces : pieces.flatten = createCache maxmem) :
    Mirrors calls (serve (some s) (.stream pieces)).1 (obey c (.create maxmem)) := by
  by_cases hused : c.spaceUsed = 0
  · have hact := act_createCache hused hpieces
    rw [obey, if_neg (not_not_intro hused)]
    split_ifs at hact ⊢ with hmax
    · obtain ⟨s', hserve, hs'⟩ := serve_stream hs hact
      exact ⟨s', by rw [hserve], hs', by simp [StoredBy]⟩
    · exact congrArg Prod.fst (serve_stream_error hs hact)
  · obtain ⟨s', hserve, hs'⟩ := serve_stream hs (act_createCache_of_ne hused hpieces)
    rw [obey, if_pos hused]
    exact ⟨s', by rw [hserve], hs', hst⟩

theorem serve_call (hlib : lib.Conforming) (hdom : InDomain calls)
    (hs : Server.Keeps s.port (some c)) (hst : StoredBy calls c.entries)
    {call : Lru.Call CStr Value} (hmem : call ∈ calls) {stream : Bytes}
    (hstream : streamOfCall call = some stream) (hpieces : pieces.flatten = stream)
    (hcut : ∀ key, call = .delete key → ¬ CutOff key) :
    Mirrors calls (serve (some s) (.stream pieces)).1 (some (c.apply call)) := by
  have hd : Delivery.Complete ⟨pieces, Server.filled 0⟩ call := by
    refine ⟨fun stream' hstream' ↦ ?_, fun key hget ↦ absurd hget (ne_get_of_stream hstream key)⟩
    rw [hstream] at hstream'
    exact hpieces.trans (Option.some.inj hstream')
  obtain ⟨s', hperform, hs'⟩ := perform_eq hlib hdom hs hst hmem hd hcut
  rw [perform_of_stream hstream] at hperform
  exact ⟨s', congrArg Prod.fst hperform, hs', hst.step hmem⟩

theorem serve_delete_cutOff (hs : Server.Keeps s.port (some c)) (hcut : CutOff key)
    (hpieces : pieces.flatten = cacheDelete key) :
    serve (some s) (.stream pieces) = (none, none) := by
  obtain ⟨thrown, hact⟩ := act_delete_cutOff (c := c) hcut
  rw [← readUntil_delete hpieces] at hact
  exact serve_stream_error hs hact

theorem serve_command (hlib : lib.Conforming) (hdom : InDomain calls)
    (hs : Server.Keeps s.port (some c)) (hst : StoredBy calls c.entries) {command : Command}
    (hallowed : Allowed calls (.post command)) {stream : Bytes}
    (hstream : command.stream = some stream) (hpieces : pieces.flatten = stream) :
    Mirrors calls (serve (some s) (.stream pieces)).1 (obey c command) := by
  cases command with
  | create maxmem =>
    obtain rfl := Option.some.inj hstream
    exact serve_create hs hst hpieces
  | set key v => exact serve_call hlib hdom hs hst hallowed hstream hpieces fun _ h ↦ by cases h
  | delete key =>
    rw [obey]
    split_ifs with hcut
    · obtain rfl := Option.some.inj hstream
      exact congrArg Prod.fst (serve_delete_cutOff hs hcut hpieces)
    · exact serve_call hlib hdom hs hst hallowed hstream hpieces fun _ h ↦
        Lru.Call.delete.inj h ▸ hcut
  | destroy =>
    obtain rfl := Option.some.inj hstream
    exact congrArg Prod.fst (serve_destroyCache hs hpieces)

theorem serve_query (hlib : lib.Conforming) (hdom : InDomain calls)
    (hs : Server.Keeps s.port (some c)) (hst : StoredBy calls c.entries)
    (hmem : .get key ∈ calls) :
    ∃ s' reply, serve (some s) (.datagram (getRequest key)) = (some s', reply) ∧
      Server.Keeps s'.port (some (c.apply (.get key))) ∧
      Tells lib key reply
        (some (Lru.step (Lru.word Value.size c.limit) c.entries (.get key)).2) := by
  have hk : Server.PlainKey key := hdom.key _ hmem
  rw [Server.Contents.apply, Lru.step_get]
  cases hfind : Lru.find key c.entries with
  | none =>
    obtain ⟨s', hserve, hs'⟩ := serve_get_miss hs hk hfind
    rw [Lru.touch_of_none hfind]
    refine ⟨s', _, hserve, hs', _, _, rfl, rfl, fun key' buffer ↦ ?_⟩
    rw [receiveAnswer_errorText, Option.elim_none, Answer.ofReply, ite_self]
  | some v =>
    have hset := hst _ (Lru.mem_of_find hfind)
    obtain ⟨t, ht, hv⟩ := hdom.value _ _ hset
    have hfits : 29 + key.bytes.length + t.length ≤ bufsize := hdom.fits _ hmem _ _ hset t hv
    have hbytes : CStr.ofBytes v.bytes = CStr.ofBytes t := by
      ext1
      rw [hv, CStr.bytes_ofBytes_append ht.nul_free, CStr.bytes_ofBytes ht.nul_free]
    obtain ⟨s', hserve, hs'⟩ := serve_get_hit hs hk ht hv hfits hfind
    refine ⟨s', _, hserve, hs', _, _, rfl, rfl, fun key' buffer ↦ ?_⟩
    rw [receiveAnswer_text hlib hk.text ht hfits, Option.elim_some, Answer.ofReply, hbytes,
      CStr.bytes_ofBytes ht.nul_free]
    simp only [CStr.ext_iff]

/-- **The server refines the store** on the domain of single calls. -/
theorem refines_store (hlib : lib.Conforming) (hdom : InDomain calls) :
    Service.Refines handler store (Mirrors calls) (Allowed calls) (Tells lib) where
  post {server server' contents command} hmirrors hallowed hpost := by
    obtain ⟨s, stream, pieces, rfl, hstream, hpieces, rfl⟩ := hpost
    cases contents with
    | none => cases hmirrors
    | some c =>
      obtain ⟨s', hs', hkeeps, hst⟩ := hmirrors
      obtain rfl := Option.some.inj hs'
      exact serve_command hlib hdom hkeeps hst hallowed hstream hpieces
  query {server server' contents key reply} hmirrors hallowed hquery := by
    obtain ⟨s, rfl, hserve⟩ := hquery
    cases contents with
    | none => cases hmirrors
    | some c =>
      obtain ⟨s₀, hs₀, hkeeps, hst⟩ := hmirrors
      obtain rfl := Option.some.inj hs₀
      obtain ⟨s', reply', hserve', hkeeps', htells⟩ := serve_query hlib hdom hkeeps hst hallowed.1
      obtain ⟨rfl, rfl⟩ := Prod.mk.inj (hserve.symm.trans hserve')
      exact ⟨⟨s', rfl, hkeeps', hst.step hallowed.1⟩, htells⟩

/-! ## The end of the server -/

/-- **`destroy_cache` ends the server** in any state that it can be in, and with nothing of its
memory left: `main` returns, and what arrives later is not handled. -/
theorem destroyCache_exits {maxmem : Int32} {recbuf : BufArr} {events : List Server.Event}
    (hloop : (Server.start maxmem recbuf).loop events = some (.waits s))
    (hpieces : pieces.flatten = destroyCache) (later : List Server.Event) :
    ∃ links keys infos, Server.main maxmem recbuf (events ++ .stream pieces :: later)
        = some (.exited links keys infos) ∧
      links.live = ∅ ∧ keys.live = ∅ ∧ infos.live = ∅ := by
  have howns : Server.Owns s.port := Server.Owns.loop (Server.owns_createCache _) hloop
  obtain ⟨-, c, -, hkeeps, -⟩ := howns
  obtain ⟨s', hstep, -⟩ := Server.step_stream_of_act hkeeps (act_destroyCache c hpieces)
  exact Server.exits_of_step hloop hstep later

theorem destroyCache_exits_example : ∃ links keys infos,
    Server.main 100 (Server.filled 0) ([.stream [ascii "PUT /k/v" ++ [0]]] ++
        .stream [destroyCache] :: [.datagram (ascii "GET /k" ++ [0])])
        = some (.exited links keys infos) ∧
      links.live = ∅ ∧ keys.live = ∅ ∧ infos.live = ∅ := by
  obtain ⟨s, hloop⟩ : ∃ s, (Server.start 100 (Server.filled 0)).loop
      [.stream [ascii "PUT /k/v" ++ [0]]] = some (.waits s) := ⟨_, rfl⟩
  exact destroyCache_exits hloop List.flatten_singleton _

/-! ## Runs

The places in the history are bounded by what had been handled when the query was sent and when
its reply was received. That is how real time enters. -/

variable {ι : Type*} {Port : ℕ → ℕ → Prop} {maxmem : Int32} {recbuf : BufArr} {net : Clients ι}

/-- The states that are reached from the start of a server. -/
abbrev Runs [DecidableEq ι] (lib : JsonLib) (calls : List (Lru.Call CStr Value))
    (Port : ℕ → ℕ → Prop) (maxmem : Int32) (recbuf : BufArr) : Clients ι → Prop :=
  Service.Reaches handler (Allowed calls) Port (Reads lib)
    (.start (some (Server.start maxmem recbuf)))

/-- What an answer is made of: the query whose reply was received was handled by a server that still
ran. -/
theorem answer_of_explains {m k : ℕ} {reply : Option Bytes} {answer : Option Answer}
    (hexp : net.Explains store (some ⟨maxmem.toInt64.toUInt64, []⟩) (Tells lib) m k reply)
    (hreads : Reads lib key reply answer) :
    ∃ a c, net.asked[m]? = some a ∧ a.since ≤ k ∧ net.history[k]? = some (.query a.query) ∧
      after maxmem (net.history.take k) = some c ∧
      answer = some (if key = a.query then Answer.ofReply
        (Lru.step (Lru.word Value.size c.limit) c.entries (.get a.query)).2 else .text none 0) := by
  obtain ⟨a, ha, hsince, hk, message, r, rfl, hresult, htells⟩ := hexp
  obtain ⟨message', buffer, hmessage, -, hanswer⟩ := hreads
  obtain rfl := Option.some.inj hmessage
  obtain ⟨c, hc, hr⟩ := Option.map_eq_some_iff.mp hresult
  refine ⟨a, c, ha, hsince, hk, hc, ?_⟩
  rw [← hanswer, htells, hr]

/-- Where replies arrive only in the socket they were sent to, a `cache_get` returns what the store
has for its own key. -/
theorem answer_of_serialised
    (h : net.Serialised store (some ⟨maxmem.toInt64.toUInt64, []⟩) (Mirrors calls) (Allowed calls)
      (Tells lib) Eq (Reads lib)) {i : ι} {x : Service.Returned (Option Answer)}
    (hx : x ∈ net.returned i) : ∃ a k c, net.asked[x.socket]? = some a ∧
      a.since ≤ k ∧ k < x.before ∧ net.history[k]? = some (.query a.query) ∧
      after maxmem (net.history.take k) = some c ∧
      x.answer = some (Answer.ofReply
        (Lru.step (Lru.word Value.size c.limit) c.entries (.get a.query)).2) := by
  obtain ⟨a, m, k, reply, ha, rfl, hlt, hexp, hreads⟩ := h.answers i x hx
  obtain ⟨b, c, hb, hsince, hk, hc, hanswer⟩ := answer_of_explains hexp hreads
  obtain rfl := Option.some.inj (ha.symm.trans hb)
  rw [if_pos rfl] at hanswer
  exact ⟨a, k, c, ha, hsince, hlt, hk, hc, hanswer⟩

variable [DecidableEq ι]

theorem Runs.serialised (hlib : lib.Conforming) (hdom : InDomain calls)
    (hruns : Runs lib calls Port maxmem recbuf net) :
    net.Serialised store (some ⟨maxmem.toInt64.toUInt64, []⟩) (Mirrors calls) (Allowed calls)
      (Tells lib) Port (Reads lib) :=
  Service.Reaches.serialised (refines_store hlib hdom)
    ⟨_, rfl, Server.keeps_createCache _, by simp [StoredBy]⟩ hruns

section Samples

/-- The calls of a client that sets a key and of one that gets it. -/
def sharedCalls : List (Lru.Call CStr Value) := [.set CacheObj.aKey hiText, .get CacheObj.aKey]

theorem inDomain_sharedCalls : InDomain sharedCalls := by
  refine inDomain_of_hiText ?_ (by simp [sharedCalls])
  have hlen : CacheObj.aKey.bytes.length = 1 := rfl
  simp [sharedCalls, Lru.Call.key, plainKey_aKey, hlen]

theorem allowed_sharedGet : Allowed sharedCalls (.query CacheObj.aKey) := by
  refine ⟨List.mem_cons_of_mem _ List.mem_cons_self, ?_⟩
  rw [length_getRequest]
  decide

theorem exists_runs (hport : Port 0 0) (hmax : 3 ≤ maxmem.toInt64.toUInt64) (recbuf : BufArr) :
    ∃ net : Clients Bool, Runs plainJson sharedCalls Port maxmem recbuf net ∧
      net.asked = [⟨CacheObj.aKey, 1⟩] ∧
      net.history = [.post (.set CacheObj.aKey hiText), .query CacheObj.aKey] ∧
      net.returned true = [⟨0, 2, some (Answer.ofReply (.hit hiText))⟩] := by
  have hadmits : (Lru.word (κ := CStr) Value.size maxmem.toInt64.toUInt64).admits hiText = true :=
    Lru.word_admits_iff.mpr hmax
  obtain ⟨stream, hstream⟩ : ∃ stream, cacheSet CacheObj.aKey hiText = some stream :=
    ⟨_, cacheSet_eq_some_iff.mpr ⟨by decide, rfl⟩⟩
  have hset : Allowed sharedCalls (.post (.set CacheObj.aKey hiText)) := List.mem_cons_self
  have hget := allowed_sharedGet
  have hstart : Server.Keeps (Server.start maxmem recbuf).port
      (some ⟨maxmem.toInt64.toUInt64, []⟩) := Server.keeps_createCache _
  -- the server handles the set, and then the datagram
  obtain ⟨s, hs, hkeeps, hst⟩ := serve_command conforming_plainJson inDomain_sharedCalls hstart
    (by simp [StoredBy]) hset hstream List.flatten_singleton
  obtain ⟨s', reply, hserve, -, message, r, rfl, hr, htells⟩ :=
    serve_query conforming_plainJson inDomain_sharedCalls hkeeps hst hget.1
  rw [Lru.step_get, Server.Contents.apply, Lru.step, Lru.find_put_self hadmits] at hr
  obtain rfl : .hit hiText = r := Option.some.inj hr
  have hpost : handler.post (some (Server.start maxmem recbuf)) (.set CacheObj.aKey hiText)
      (some s) := ⟨_, stream, [stream], rfl, hstream, List.flatten_singleton, hs.symm⟩
  have hquery : handler.query (some s) CacheObj.aKey (some s') (some message) := ⟨s, rfl, hserve⟩
  have hreads : Reads plainJson CacheObj.aKey (some message)
      (some (Answer.ofReply (.hit hiText))) := by
    have hread := htells CacheObj.aKey (Server.filled 0)
    rw [if_pos rfl] at hread
    exact ⟨message, Server.filled 0, rfl, length_le_of_receiveAnswer hread, hread⟩
  have h₀ : Runs plainJson sharedCalls Port maxmem recbuf
      (.start (some (Server.start maxmem recbuf)) : Clients Bool) := .refl
  have h₁ := h₀.tail (.post false rfl hset)
  have h₂ := h₁.tail (.handlePost (List.nil_append _).symm hpost)
  have h₃ := h₂.tail (.ask true rfl hget)
  have h₄ := h₃.tail (.handleQuery (n := 0) (a := ⟨CacheObj.aKey, 1⟩) (List.nil_append _).symm rfl
    hquery)
  have h₅ := h₄.tail (.receive (i := true) (n := 0) (a := ⟨CacheObj.aKey, 1⟩) rfl rfl
    (List.nil_append _).symm hport hreads)
  exact ⟨_, h₅, rfl, rfl, rfl⟩

end Samples

/-- **One order of the requests** explains what any number of clients see, though posts are handled
in any order and datagrams are lost, repeated and reordered: it leads the store to the contents of
the server, it has every command at most once and none that was not sent, and every `cache_get`
returns what the store has for its key at one place between the call and the return. -/
theorem clients_serialised (hlib : lib.Conforming) (hdom : InDomain calls)
    (hruns : Runs lib calls Eq maxmem recbuf net) :
    Mirrors calls net.service (after maxmem net.history) ∧
    (Service.posted net.history ++ net.posts).Perm net.sent ∧
    ∀ i, ∀ x ∈ net.returned i, ∃ a k c, net.asked[x.socket]? = some a ∧
      a.since ≤ k ∧ k < x.before ∧ net.history[k]? = some (.query a.query) ∧
      after maxmem (net.history.take k) = some c ∧
      x.answer = some (Answer.ofReply
        (Lru.step (Lru.word Value.size c.limit) c.entries (.get a.query)).2) := by
  have h := Runs.serialised hlib hdom hruns
  exact ⟨h.state, h.updates, fun i x hx ↦ answer_of_serialised h hx⟩

theorem clients_serialised_example : ∃ net : Clients Bool,
    net.returned true = [⟨0, 2, some (Answer.ofReply (.hit hiText))⟩] ∧
    Mirrors sharedCalls net.service (after 100 net.history) ∧
    (Service.posted net.history ++ net.posts).Perm net.sent ∧
    ∀ i, ∀ x ∈ net.returned i, ∃ a k c, net.asked[x.socket]? = some a ∧
      a.since ≤ k ∧ k < x.before ∧ net.history[k]? = some (.query a.query) ∧
      after 100 (net.history.take k) = some c ∧
      x.answer = some (Answer.ofReply
        (Lru.step (Lru.word Value.size c.limit) c.entries (.get a.query)).2) := by
  obtain ⟨net, hruns, -, -, hreturned⟩ :=
    exists_runs rfl (by decide : 3 ≤ (100 : Int32).toInt64.toUInt64) (Server.filled 0)
  exact ⟨net, hreturned, clients_serialised conforming_plainJson inDomain_sharedCalls hruns⟩

end Client

end NetCache
