import NetCache.Cache.Source
import NetCache.Text.Strings

/-!
# The server

`server.cpp`, with the receive buffer and `strip` of `user_con.hpp`.

## How a handler ends

Handling a message ends in one of three ways: it returns, perhaps after writing an answer; it
throws, and nothing catches it before the server is gone; or it is undefined (`none`), as when the
handle of the cache dangles or a string is read past its end. The handle that is left is kept also
when something is thrown, because after an `ExitException` the destructor of `safe_cache` destroys
what it refers to.

`POST memsize` destroys the cache before it reads the number, and the new cache lives in the heaps
that are left. A number that cannot be read leaves a handle to nothing.

## The library

Of the library that moves the bytes only a few facts are used. `async_read_until` calls its handler
as soon as the bytes read contain the delimiter, or with an error when the connection ends before. A
datagram overwrites the beginning of the receive buffer, and what does not fit is dropped. A
datagram over IPv4 carries at most 65507 bytes, and a longer one is not sent at all
(`sendDatagram`); the server does not learn of that.

## Runs

An event is a connection with the pieces in which it is read, or a datagram. A state of a running
server is one that events have led to of which none has thrown.
-/

namespace NetCache

open Text

/-- `bufsize` -/
def bufsize : ℕ := 2 ^ 16 - 32

/-- `bufarr` -/
structure BufArr where
  /-- The contents. -/
  bytes : Bytes
  /-- The array has a fixed size. -/
  length_eq : bytes.length = bufsize

/-- `find_in_buf` -/
def findInBuf (buf : BufArr) (c : UInt8) : Option ℕ := buf.bytes.findIdx? (· = c)

/-- The most bytes that a UDP datagram over IPv4 carries. -/
def maxDatagram : ℕ := 65507

/-- What becomes of a datagram that is sent, `none` when it is too long: then the `socket.send` of
the client throws, and the `async_send_to` of the server completes with an error that `handle_send`
does not look at. -/
def sendDatagram (d : Bytes) : Option Bytes := if d.length ≤ maxDatagram then some d else none

theorem sendDatagram_of_le {d : Bytes} (h : d.length ≤ maxDatagram) : sendDatagram d = some d :=
  if_pos h

theorem sendDatagram_of_lt {d : Bytes} (h : maxDatagram < d.length) : sendDatagram d = none :=
  if_neg (Nat.not_le.mpr h)

namespace Server

/-- What the handling of a message throws. -/
inductive Thrown
  /-- `ExitException` -/
  | exitException
  /-- `runtime_error("bad message")` -/
  | badMessage
  /-- `runtime_error("bad POST message")` -/
  | badPostMessage
  /-- `std::length_error`, from a substring whose range is not ordered. -/
  | lengthError
  /-- `std::length_error`, from the `resize` of `strip`. -/
  | resizeError
  /-- What `stoll` throws. -/
  | conversion (e : ConversionError)
  deriving DecidableEq

/-- How the handling of a message ends. -/
structure Handled where
  /-- `safe_cache::impl`, `none` when it refers to a destroyed cache. -/
  port : Option CacheObj
  /-- What is thrown, or the argument of the `write_message` that answers, if there is an answer. -/
  outcome : Except Thrown (Option Bytes)

/-- The argument of `return_error`'s `write_message`. -/
def errorText : Bytes := ascii "ERROR"

/-- `make_json`. It is undefined to take the last byte off an empty key. -/
def makeJson (key value : Bytes) : Option Bytes :=
  if key = [] then none
  else some (ascii "\x7b \"key\": \"" ++ key.dropLast ++ ascii "\" , \"value\": \"" ++ value ++
    ascii "\" \x7d ")

/-- `string((char *)v)`, undefined when no `NUL` stops the reading within the buffer. -/
def cString (v : Bytes) : Option Bytes := if 0 ∈ v then some (v.takeWhile (· ≠ 0)) else none

/-! ## Requests

The handlers and the function that chooses among them. The key and the value reach the cache as C
strings, so a key ends at its first `NUL`; the size of a value is the length of the string,
narrowed to 32 bits. -/

/-- `get` -/
def get (port : Option CacheObj) (key : Bytes) : Option Handled := do
  let cache ← port
  let (cache, v, _) ← cache.cacheGet (CStr.ofBytes key)
  match v with
  | some v =>
    let value ← cString v
    let output ← makeJson key value
    some ⟨some cache, .ok (some output)⟩
  | none => some ⟨some cache, .ok (some errorText)⟩

/-- `put`. The buffer is that of `value.c_str()`, and the size is narrowed to `uint32_t`. -/
def put (port : Option CacheObj) (key value : Bytes) : Option Handled := do
  let cache ← port
  let cache ← cache.cacheSet (CStr.ofBytes key) (value ++ [0]) (UInt32.ofNat value.length)
  some ⟨some cache, .ok none⟩

/-- `delete_` -/
def delete_ (port : Option CacheObj) (key : Bytes) : Option Handled := do
  let cache ← port
  let cache ← cache.cacheDelete (CStr.ofBytes key)
  some ⟨some cache, .ok none⟩

/-- `head` -/
def head (port : Option CacheObj) : Option Handled := some ⟨port, .ok none⟩

/-- `post`. The old cache is destroyed before the number is read, and the new one is created in the
heaps that it leaves. -/
def post (port : Option CacheObj) (postType extraInfo : Bytes) : Option Handled :=
  match strip postType with
  | none => some ⟨port, .error .resizeError⟩
  | some postType =>
    if postType = ascii "shutdown" then some ⟨port, .error .exitException⟩
    else if postType = ascii "memsize" then do
      let cache ← port
      if cache.cacheSpaceUsed = 0 then
        let (links, keys, infos) ← cache.destroyCache
        match stoll extraInfo with
        | .ok n => some ⟨some (CacheObj.createCacheIn links keys infos (UInt64.ofInt n) none),
            .ok none⟩
        | .error e => some ⟨none, .error (.conversion e)⟩
      else some ⟨some cache, .ok (some errorText)⟩
    else some ⟨port, .error .badPostMessage⟩

/-- The three substrings of a message. -/
structure Parts where
  /-- The word before the first space. -/
  fword : Bytes
  /-- The text between the slashes. -/
  info1 : Bytes
  /-- The text after the second slash. -/
  info2 : Bytes
  deriving DecidableEq

/-- `end_of_line`, one past the end when there is no line break. -/
def endOfLine (message : Bytes) : ℕ :=
  min (min ((find message 10 0).getD (message.length + 1))
    ((find message 13 0).getD (message.length + 1))) (message.length + 1)

/-- The substrings `act_on_message` builds; `none` when one of them throws. The range up to
`begin + npos` ends before it starts. -/
def parts (message : Bytes) : Option Parts := do
  let firstSpace := find message 32 0
  let firstSlash := find message 47 (afterPos firstSpace)
  let secondSlash := find message 47 (afterPos firstSlash)
  let fword ← firstSpace.bind (substring message 0)
  let info1 ← substring message (afterPos firstSlash)
    (min (secondSlash.getD (endOfLine message)) (endOfLine message))
  let info2 ← match secondSlash with
    | none => some []
    | some i => substring message (i + 1) (endOfLine message)
  some ⟨fword, info1, info2⟩

/-- `act_on_message` -/
def actOnMessage (port : Option CacheObj) (message : Bytes) : Option Handled :=
  match parts message with
  | none => some ⟨port, .error .lengthError⟩
  | some ⟨fword, info1, info2⟩ =>
    if fword = ascii "GET" then get port info1
    else if fword = ascii "PUT" then put port info1 info2
    else if fword = ascii "DELETE" then delete_ port info1
    else if fword = ascii "HEAD" then head port
    else if fword = ascii "POST" then post port info1 info2
    else some ⟨port, .error .badMessage⟩

/-! ## Connections

The stream buffer is a string that grows with each read. Neither the error nor the number of
bytes up to the delimiter, both arguments of the handler, is looked at. -/

/-- The stream buffer when the handler of `async_read_until` is called, and whether it is called
with an error: the pieces arrive one by one until there is a `NUL` or the connection ends. -/
def readUntil : Bytes → List Bytes → Bytes × Bool
  | b, [] => (b, true)
  | b, piece :: pieces =>
    if 0 ∈ b ++ piece then (b ++ piece, false) else readUntil (b ++ piece) pieces

/-- The message `tcp_con::handle_read` acts on: the whole stream buffer, stripped; `none` when that
throws. Neither the error nor the number of bytes up to the delimiter is looked at. -/
def readMessage (b : Bytes) (_error : Bool) (_bytesWritten : ℕ) : Option Bytes := strip b

/-- `act_on_message` on what `strip` has left, if it has not thrown. -/
def actOnStripped (port : Option CacheObj) : Option Bytes → Option Handled
  | none => some ⟨port, .error .resizeError⟩
  | some message => actOnMessage port message

/-- `tcp_con::handle_read` -/
def handleRead (port : Option CacheObj) (b : Bytes) (error : Bool) (bytesWritten : ℕ) :
    Option Handled := actOnStripped port (readMessage b error bytesWritten)

/-! ## Datagrams

One buffer serves all datagrams and is not cleared between them. The search for the end of a
message goes through the whole buffer. -/

/-- The receive buffer after a datagram. -/
def receive (recbuf : BufArr) (datagram : Bytes) : BufArr where
  bytes := datagram.take bufsize ++ recbuf.bytes.drop datagram.length
  length_eq := by
    rw [List.length_append, List.length_take, List.length_drop, recbuf.length_eq]
    omega

/-- The message `udp_server::handle_receive` acts on, `none` when it answers `ERROR` instead, with
`none` inside when `strip` throws. -/
def receivedMessage (recbuf : BufArr) : Option (Option Bytes) :=
  (findInBuf recbuf 0).map fun endloc ↦ strip (recbuf.bytes.take endloc)

/-- `udp_server::handle_receive`, without a receive error. -/
def handleReceive (port : Option CacheObj) (recbuf : BufArr) : Option Handled :=
  match receivedMessage recbuf with
  | some stripped => actOnStripped port stripped
  | none => some ⟨port, .ok (some errorText)⟩

/-- The datagram of `udp_server::write_message`: the string with its terminator. -/
def datagramOf (s : Bytes) : Bytes := s ++ [0]

/-! ## Runs -/

/-- The state of the server between two events. -/
structure State where
  /-- `safe_cache::impl` -/
  port : Option CacheObj
  /-- `udp_server::recbuf` -/
  recbuf : BufArr

/-- What reaches the server. -/
inductive Event
  /-- A connection: the pieces in which its bytes are read, until it ends or the handler runs. -/
  | stream (pieces : List Bytes)
  /-- A datagram. -/
  | datagram (d : Bytes)

/-- `run_server`, before its first event; the limit is an `int`, and the receive buffer is not
initialised. -/
def start (maxmem : Int32) (recbuf : BufArr) : State where
  port := some (CacheObj.createCache maxmem.toInt64.toUInt64 none)
  recbuf := recbuf

/-- One event, with what its handler throws or answers. -/
def State.step (s : State) : Event → Option (State × Except Thrown (Option Bytes))
  | .stream pieces => do
    let (b, error) := readUntil [] pieces
    let handled ← handleRead s.port b error
      (if error then 0 else (b.takeWhile (· ≠ 0)).length + 1)
    some (⟨handled.port, s.recbuf⟩, handled.outcome)
  | .datagram d => do
    let recbuf := receive s.recbuf d
    let handled ← handleReceive s.port recbuf
    some (⟨handled.port, recbuf⟩, handled.outcome)

/-- The states of a running server. An exception ends the run. -/
inductive Reachable : State → Prop
  /-- The server starts. -/
  | start (maxmem : Int32) (recbuf : BufArr) : Reachable (start maxmem recbuf)
  /-- A handler returns. -/
  | step {s s' : State} {event : Event} {reply : Option Bytes} :
    Reachable s → s.step event = some (s', .ok reply) → Reachable s'

end Server

end NetCache
