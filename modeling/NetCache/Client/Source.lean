import NetCache.Server.Source
import NetCache.Text.Json

/-!
# The client

`client.cpp`. Each `cache_set`, `cache_delete`, `create_cache` and `destroy_cache` opens a
connection of its own, sends one message and returns without waiting; `cache_get` sends a datagram
and waits for the reply.

## What a caller passes

A key is a C string, and a value is a buffer with its size. The value goes into the request as a
string of that size, so a caller may pass it with its `NUL` or without. Only the size of a value is
compared with the size of the buffers, and nothing is said to a caller whose value is not sent.

## What a caller gets back

`cache_get` misses when the reply is `ERROR`, when there is no `NUL` in its buffer, or when the key
in the reply is not the one that was asked for. The library that parses the reply is a parameter;
there is no answer if it throws. There is none either when the datagram or the reply is too long for
UDP: `send` throws in the client, while the server drops the reply and the client waits.

## One call at a time

`perform` is a call that the server has handled before the next one is made, and `run` a program of
such calls. What the network decides, the pieces of a stream and the old contents of the receive
buffer, comes with each call (`Delivery`).
-/

namespace NetCache

open Text

namespace Client

/-- `finstr`, what `send_message_tcp` and `send_message_udp` send. -/
def request (head word1 word2 : Bytes) : Bytes :=
  head ++ ascii " /" ++ word1 ++ (if word2.length = 0 then [] else ascii "/" ++ word2)

/-- `tcp_connection::write_message` -/
def streamOf (st : Bytes) : Bytes := st ++ [0]

/-- What `udp_connection::write_message` sends. -/
def datagramOf (s : Bytes) : Bytes := s ++ [0]

/-- The stream of `create_cache`. -/
def createCache (maxmem : UInt64) : Bytes :=
  streamOf (request (ascii "POST") (ascii "memsize") (decimal maxmem.toNat))

/-- The stream of `cache_set`, `none` when the value is not sent. -/
def cacheSet (key : CStr) (v : Value) : Option Bytes :=
  if bufsize < v.size.toNat then none
  else some (streamOf (request (ascii "PUT") key.bytes v.bytes))

/-- The stream of `cache_delete`. -/
def cacheDelete (key : CStr) : Bytes := streamOf (request (ascii "DELETE") key.bytes [])

/-- The stream of `destroy_cache`. -/
def destroyCache : Bytes := streamOf (request (ascii "POST") (ascii "shutdown") [])

/-- The datagram of `cache_get`. -/
def getRequest (key : CStr) : Bytes := datagramOf (request (ascii "GET") key.bytes [])

/-- `errstr` -/
def errstr : Bytes := ascii "ERROR"

/-- `udp_connection::get_message`, with the buffer after the datagram was received into it. -/
def getMessage (buf : BufArr) : Bytes :=
  match findInBuf buf 0 with
  | none => errstr
  | some loc => buf.bytes.take loc

/-- `unpack_json` -/
def unpackJson (lib : JsonLib) (jsonStr : Bytes) : Option (Bytes × Bytes) := do
  let j ← lib.parse jsonStr
  let key ← lib.string (← lib.index j (ascii "key"))
  let value ← lib.string (← lib.index j (ascii "value"))
  some (key, value)

/-- What a caller gets back. -/
inductive Answer
  /-- The call returns nothing. -/
  | void
  /-- The C string that is returned, `none` for `NULL`, and `*val_size`. -/
  | text (val : Option CStr) (valSize : UInt32)

/-- The second half of `cache_get`. -/
def getAnswer (lib : JsonLib) (key : CStr) (retval : Bytes) : Option Answer :=
  if retval = errstr then some (.text none 0)
  else do
    let (retkeystr, valstr) ← unpackJson lib retval
    if key.bytes ≠ retkeystr then some (.text none 0)
    else some (.text (some (CStr.ofBytes valstr)) (UInt32.ofNat valstr.length))

/-! ## Calls over the network

A server that is gone stays gone: connections to it are refused, and no reply comes. A call that
returns nothing cannot tell. -/

/-- What the network does with one call: the pieces in which its stream is read, and what the
buffer of the client holds before the reply to its datagram is received. -/
structure Delivery where
  /-- The pieces of the stream. -/
  pieces : List Bytes
  /-- The uninitialised buffer. -/
  buffer : BufArr

/-- The stream of a call, if it sends one. -/
def streamOfCall : Lru.Call CStr Value → Option Bytes
  | .set key v => cacheSet key v
  | .get _ => none
  | .delete key => some (cacheDelete key)

/-- The request of the call is delivered complete. -/
structure Delivery.Complete (d : Delivery) (call : Lru.Call CStr Value) : Prop where
  /-- All of its stream arrives. -/
  stream : ∀ stream, streamOfCall call = some stream → d.pieces.flatten = stream
  /-- Its datagram is not too long to be sent. -/
  datagram : ∀ key, call = .get key → (getRequest key).length ≤ maxDatagram

/-- A running server and an event: the server if it still runs, and its answer. -/
def serve (server : Option Server.State) (event : Server.Event) :
    Option Server.State × Option Bytes :=
  match server.bind fun s ↦ s.step event with
  | some (s, .ok reply) => (some s, reply)
  | _ => (none, none)

/-- What a `cache_get` makes of the reply to its datagram, received into `buffer`; it blocks when
the reply is too long to be sent. -/
def receiveAnswer (lib : JsonLib) (key : CStr) (buffer : BufArr) (reply : Bytes) :
    Option Answer := do
  let d ← sendDatagram (Server.datagramOf reply)
  getAnswer lib key (getMessage (Server.receive buffer d))

/-- One call, handled by the server before the next one is made. There is no answer from a server
that is gone, where a connection is refused and a reply never comes, and none to a `cache_get` whose
datagram is too long: `send` throws. -/
def perform (lib : JsonLib) (server : Option Server.State) (d : Delivery) :
    Lru.Call CStr Value → Option Server.State × Option Answer
  | .set key v =>
    match cacheSet key v with
    | none => (server, some .void)
    | some _ => ((serve server (.stream d.pieces)).1, server.map fun _ ↦ .void)
  | .delete _ => ((serve server (.stream d.pieces)).1, server.map fun _ ↦ .void)
  | .get key =>
    match sendDatagram (getRequest key) with
    | none => (server, none)
    | some datagram =>
      let (server, reply) := serve server (.datagram datagram)
      (server, reply.bind (receiveAnswer lib key d.buffer))

/-- A sequence of calls, delivered in program order. -/
def run (lib : JsonLib) (server : Option Server.State) :
    List (Lru.Call CStr Value × Delivery) → Option Server.State × List (Option Answer)
  | [] => (server, [])
  | (call, d) :: calls =>
    let (server, answer) := perform lib server d call
    let (server, answers) := run lib server calls
    (server, answer :: answers)

theorem perform_get_eq (lib : JsonLib) (server : Option Server.State) (d : Delivery) {key : CStr}
    (hsent : (getRequest key).length ≤ maxDatagram) :
    perform lib server d (.get key) = ((serve server (.datagram (getRequest key))).1,
      (serve server (.datagram (getRequest key))).2.bind (receiveAnswer lib key d.buffer)) := by
  rw [perform, sendDatagram_of_le hsent]

theorem perform_get_of_lt (lib : JsonLib) (server : Option Server.State) (d : Delivery)
    {key : CStr} (hlong : maxDatagram < (getRequest key).length) :
    perform lib server d (.get key) = (server, none) := by
  rw [perform, sendDatagram_of_lt hlong]

theorem perform_get_none (lib : JsonLib) (d : Delivery) (key : CStr) :
    perform lib none d (.get key) = (none, none) := by
  rw [perform]
  cases sendDatagram (getRequest key) <;> rfl

theorem receiveAnswer_eq (lib : JsonLib) (key : CStr) (buffer : BufArr) {reply : Bytes}
    (hsent : (Server.datagramOf reply).length ≤ maxDatagram) :
    receiveAnswer lib key buffer reply
      = getAnswer lib key (getMessage (Server.receive buffer (Server.datagramOf reply))) := by
  rw [receiveAnswer, sendDatagram_of_le hsent, Option.bind_eq_bind, Option.bind_some]

theorem length_le_of_receiveAnswer {lib : JsonLib} {key : CStr} {buffer : BufArr} {reply : Bytes}
    {a : Answer} (h : receiveAnswer lib key buffer reply = some a) :
    (Server.datagramOf reply).length ≤ maxDatagram := by
  obtain ⟨d, hd, -⟩ := Option.bind_eq_some_iff.mp h
  by_contra hlong
  rw [sendDatagram_of_lt (Nat.lt_of_not_le hlong)] at hd
  cases hd

theorem run_cons {lib : JsonLib} {sent : List (Lru.Call CStr Value × Delivery)}
    (server : Option Server.State) (call : Lru.Call CStr Value) (d : Delivery) :
    run lib server ((call, d) :: sent) = ((run lib (perform lib server d call).1 sent).1,
      (perform lib server d call).2 :: (run lib (perform lib server d call).1 sent).2) := rfl

end Client

end NetCache
