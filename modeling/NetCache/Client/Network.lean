import NetCache.Client.Source

/-!
# One client and a network that reorders

`cache_set` and `cache_delete` return as soon as their stream is written, `cache_get` waits for its
reply. So several streams and one datagram may be in flight, and the server handles them in any
order.

## The steps

The client sends a stream and goes on; it skips a `cache_set` of a value that is too large; it sends
a datagram, if that is not too long, and waits. The server handles one of the streams in flight,
read in any pieces, or the datagram. The client receives the reply, if the server could send it.

## What may overtake

`May server older call` is a parameter of the steps: whether the network may hand the request of
`call` to the server before those of the calls in `older`. With `AnyOrder` nothing is excluded. A
smaller relation describes a kinder network, and results about it say what the order of delivery has
to do with the answers.

## Program order

A run of `Client.run`, where each call is handled before the next one is made, is one of the orders
(`reaches_run`), whatever may overtake, as it never does. `reaches_overtaking` is the shortest run
in which a datagram overtakes a stream.
-/

namespace NetCache

open Text

namespace Client

/-- What the client waits for. -/
inductive Waiting
  /-- The client makes its next call. -/
  | nothing
  /-- The datagram of a `cache_get` is on its way to the server. -/
  | request (key : CStr)
  /-- The reply is on its way back. -/
  | reply (key : CStr) (message : Bytes)

/-- The call that waits. -/
def Waiting.call : Waiting → List (Lru.Call CStr Value)
  | nothing => []
  | request key => [.get key]
  | reply key _ => [.get key]

/-- The call that waits, when the server has handled it. -/
def Waiting.handled : Waiting → List (Lru.Call CStr Value)
  | nothing => []
  | request _ => []
  | reply key _ => [.get key]

/-- A client, the network, and a server. -/
structure Net where
  /-- The calls that are not made yet. -/
  todo : List (Lru.Call CStr Value)
  /-- The calls whose streams are not handled yet, oldest first. -/
  inFlight : List (Lru.Call CStr Value)
  /-- What the client waits for. -/
  waiting : Waiting
  /-- The server, if it still runs. -/
  server : Option Server.State
  /-- The answers to the calls that have returned. -/
  answers : List (Option Answer)

/-- A program is about to run. -/
def Net.start (s : Server.State) (program : List (Lru.Call CStr Value)) : Net where
  todo := program
  inFlight := []
  waiting := .nothing
  server := some s
  answers := []

/-- One step. `May server older call` is what the network may do: hand the request of `call` to the
server before those of the `older` calls. -/
inductive Step (lib : JsonLib)
    (May : Option Server.State → List (Lru.Call CStr Value) → Lru.Call CStr Value → Prop) :
    Net → Net → Prop
  /-- A `cache_set` or a `cache_delete` writes its stream to a connection of its own. -/
  | send {net : Net} {s : Server.State} {call : Lru.Call CStr Value}
      {calls : List (Lru.Call CStr Value)} {stream : Bytes} (hidle : net.waiting = .nothing)
      (hserver : net.server = some s) (htodo : net.todo = call :: calls)
      (hstream : streamOfCall call = some stream) :
      Step lib May net { net with
        todo := calls
        inFlight := net.inFlight ++ [call]
        answers := net.answers ++ [some .void] }
  /-- A `cache_set` of a value that is too large sends nothing. -/
  | skip {net : Net} {key : CStr} {v : Value} {calls : List (Lru.Call CStr Value)}
      (hidle : net.waiting = .nothing) (htodo : net.todo = .set key v :: calls)
      (hnone : cacheSet key v = none) :
      Step lib May net { net with todo := calls, answers := net.answers ++ [some .void] }
  /-- A `cache_get` sends its datagram, if that is not too long. -/
  | ask {net : Net} {key : CStr} {calls : List (Lru.Call CStr Value)}
      (hidle : net.waiting = .nothing) (htodo : net.todo = .get key :: calls)
      (hsent : (getRequest key).length ≤ maxDatagram) :
      Step lib May net { net with todo := calls, waiting := .request key }
  /-- The server handles a stream. -/
  | handleStream {net : Net} {older newer : List (Lru.Call CStr Value)}
      {call : Lru.Call CStr Value} {d : Delivery}
      (hinFlight : net.inFlight = older ++ call :: newer) (hd : d.Complete call)
      (hmay : May net.server older call) :
      Step lib May net { net with
        inFlight := older ++ newer
        server := (serve net.server (.stream d.pieces)).1 }
  /-- The server handles the datagram. -/
  | handleDatagram {net : Net} {key : CStr} {message : Bytes} (hasked : net.waiting = .request key)
      (hmay : May net.server net.inFlight (.get key))
      (hreply : (serve net.server (.datagram (getRequest key))).2 = some message) :
      Step lib May net { net with
        waiting := .reply key message
        server := (serve net.server (.datagram (getRequest key))).1 }
  /-- The client receives the reply, if the server could send it. -/
  | receive {net : Net} {key : CStr} {message : Bytes} (buffer : BufArr)
      (hreplied : net.waiting = .reply key message)
      (hsent : (Server.datagramOf message).length ≤ maxDatagram) :
      Step lib May net { net with
        waiting := .nothing
        answers := net.answers ++ [receiveAnswer lib key buffer message] }

/-- The states the network reaches. -/
abbrev Reaches (lib : JsonLib)
    (May : Option Server.State → List (Lru.Call CStr Value) → Lru.Call CStr Value → Prop) :
    Net → Net → Prop := Relation.ReflTransGen (Step lib May)

/-- Any request may overtake any other. -/
def AnyOrder (_server : Option Server.State) (_older : List (Lru.Call CStr Value))
    (_call : Lru.Call CStr Value) : Prop := True

/-! ## Program order as one of the orders -/

variable {lib : JsonLib} {sent : List (Lru.Call CStr Value × Delivery)} {call : Lru.Call CStr Value}
  {May : Option Server.State → List (Lru.Call CStr Value) → Lru.Call CStr Value → Prop}

theorem ne_get_of_stream {stream : Bytes} (h : streamOfCall call = some stream) :
    ∀ key, call ≠ .get key := by
  rintro key rfl
  exact absurd h (by simp [streamOfCall])

theorem perform_of_stream {server : Option Server.State} {d : Delivery} {stream : Bytes}
    (h : streamOfCall call = some stream) :
    perform lib server d call
      = ((serve server (.stream d.pieces)).1, server.map fun _ ↦ .void) := by
  cases call with
  | set key v =>
    rw [streamOfCall] at h
    rw [perform, h]
  | get key => exact absurd rfl (ne_get_of_stream h key)
  | delete key => rfl

section Reaches

variable (hmay : ∀ server call, May server [] call) {server server' : Option Server.State}
  {a : Answer} {d : Delivery}
include hmay

theorem step_handleStream (hd : d.Complete call) {todo : List (Lru.Call CStr Value)}
    {waiting : Waiting} {answers : List (Option Answer)} :
    Step lib May ⟨todo, [call], waiting, server, answers⟩
      ⟨todo, [] ++ [], waiting, (serve server (.stream d.pieces)).1, answers⟩ :=
  .handleStream (List.nil_append [call]) hd (hmay server call)

theorem reaches_perform (hd : d.Complete call)
    (hperform : perform lib server d call = (server', some a))
    (rest : List (Lru.Call CStr Value)) (answers : List (Option Answer)) :
    Reaches lib May ⟨call :: rest, [], .nothing, server, answers⟩
      ⟨rest, [], .nothing, server', answers ++ [some a]⟩ := by
  cases hstream : streamOfCall call with
  | some stream =>
    rw [perform_of_stream hstream] at hperform
    obtain ⟨rfl, hanswer⟩ := Prod.mk.inj hperform
    obtain ⟨s, hserver, rfl⟩ := Option.map_eq_some_iff.mp hanswer
    refine Relation.ReflTransGen.head (.send rfl hserver rfl hstream) ?_
    exact Relation.ReflTransGen.single (step_handleStream hmay hd)
  | none =>
    cases call with
    | set key v =>
      rw [streamOfCall] at hstream
      rw [perform, hstream] at hperform
      obtain ⟨rfl, hanswer⟩ := Prod.mk.inj hperform
      obtain rfl := Option.some.inj hanswer
      exact Relation.ReflTransGen.single (.skip rfl rfl hstream)
    | get key =>
      have hsent := hd.datagram key rfl
      rw [perform_get_eq lib server d hsent] at hperform
      obtain ⟨rfl, hanswer⟩ := Prod.mk.inj hperform
      obtain ⟨message, hreply, hreceive⟩ := Option.bind_eq_some_iff.mp hanswer
      rw [← hreceive]
      refine Relation.ReflTransGen.head (.ask rfl rfl hsent) ?_
      refine Relation.ReflTransGen.head (.handleDatagram rfl (hmay server _) hreply) ?_
      exact Relation.ReflTransGen.single
        (.receive d.buffer rfl (length_le_of_receiveAnswer hreceive))
    | delete key => exact absurd hstream (by simp [streamOfCall])

/-- A `cache_get` whose datagram overtakes the stream of the `cache_delete` before it. -/
theorem reaches_overtaking {s : Server.State} {key k : CStr} {d' : Delivery}
    (hget : May (some s) [.delete key] (.get k)) (hd : d.Complete (.delete key))
    (hd' : d'.Complete (.get k))
    (hperform : perform lib (some s) d' (.get k) = (server', some a))
    (rest : List (Lru.Call CStr Value)) (answers : List (Option Answer)) :
    Reaches lib May ⟨.delete key :: .get k :: rest, [], .nothing, some s, answers⟩
      ⟨rest, [], .nothing, (serve server' (.stream d.pieces)).1,
        answers ++ [some .void] ++ [some a]⟩ := by
  have hsent := hd'.datagram k rfl
  rw [perform_get_eq lib (some s) d' hsent] at hperform
  obtain ⟨rfl, hanswer⟩ := Prod.mk.inj hperform
  obtain ⟨message, hreply, hreceive⟩ := Option.bind_eq_some_iff.mp hanswer
  rw [← hreceive]
  refine Relation.ReflTransGen.head (.send rfl rfl rfl rfl) ?_
  refine Relation.ReflTransGen.head (.ask rfl rfl hsent) ?_
  refine Relation.ReflTransGen.head (.handleDatagram rfl hget hreply) ?_
  refine Relation.ReflTransGen.head
    (.receive d'.buffer rfl (length_le_of_receiveAnswer hreceive)) ?_
  exact Relation.ReflTransGen.single (step_handleStream hmay hd)

/-- **A run in program order** is a run of the network, whatever may overtake. -/
theorem reaches_run (hcomplete : ∀ cd ∈ sent, cd.2.Complete cd.1)
    (hanswered : none ∉ (run lib server sent).2) (answers : List (Option Answer)) :
    Reaches lib May ⟨sent.map Prod.fst, [], .nothing, server, answers⟩
      ⟨[], [], .nothing, (run lib server sent).1, answers ++ (run lib server sent).2⟩ := by
  induction sent generalizing server answers with
  | nil =>
    rw [run, List.append_nil]
    exact Relation.ReflTransGen.refl
  | cons cd sent ih =>
    obtain ⟨call, d⟩ := cd
    rw [run_cons, List.mem_cons, not_or] at hanswered
    obtain ⟨a, ha⟩ := Option.ne_none_iff_exists'.mp (Ne.symm hanswered.1)
    have hfirst := reaches_perform hmay (hcomplete _ List.mem_cons_self)
      (Prod.ext rfl ha : perform lib server d call = (_, some a)) (sent.map Prod.fst) answers
    have hrest := ih (fun cd hcd ↦ hcomplete cd (List.mem_cons_of_mem _ hcd)) hanswered.2
      (answers ++ [some a])
    rw [List.append_assoc, List.singleton_append, ← ha] at hrest
    rw [← ha] at hfirst
    exact hfirst.trans hrest

end Reaches

end Client

end NetCache
