import Mathlib.Logic.Function.Basic
import NetCache.Server.Life

/-!
# Many connections at once

So far a connection was one event. In truth the server has any number of connections open and reads
what arrives on them, a piece here and a piece there: `tcp_server` accepts the next connection as
soon as it has one, and every `tcp_con` has a `read_until_delim_op` that goes on whenever a read
ends.

## The loop

`Io.loop` runs on completions: a connection is accepted, a read of a connection ends with some bytes
or with an error, a datagram is received. Completions of different connections come in any order.
The state has, for each open connection, the operation that reads from it; the cache and the receive
buffer are shared, and only a handler touches them.

## The delimiter

`read_until_delim_op` is that of the vendored `asio/impl/read_until.hpp`. It searches the new data
only, from the position where the last search has ended, and so nothing is assumed of
`async_read_until` any more: it ends with the read that has brought a `NUL`, wherever in the new
data that is (`resume_of_mem`).

## The result

`loop_eventsOf` says that interleaving makes no difference: what the server does is what it does
when each connection is handled at once, at the moment when its `NUL` or its end has been read.
-/

namespace NetCache

open Text

namespace Server

/-! ## Reading up to a delimiter

The invariant of an operation is that no `NUL` is among the bytes that it has searched, and that
these are all it has read. -/

/-- `read_until_delim_op` between two reads, with its stream buffer. -/
structure ReadUntilDelimOp where
  /-- The data of `streambuf_`. -/
  streambuf : Bytes
  /-- `search_position_` -/
  searchPosition : ℕ

/-- How the operation goes on. -/
inductive Progress
  /-- It starts another read. -/
  | reads (op : ReadUntilDelimOp)
  /-- It calls its handler. -/
  | handler (b : Bytes) (ec : Bool) (bytesTransferred : ℕ)

namespace ReadUntilDelimOp

/-- The operation at its first read: the buffer of a new connection is empty. -/
def start : ReadUntilDelimOp := ⟨[], 0⟩

/-- `operator()` at the end of a read. The buffer is never full, since `max_size()` is the largest
`size_t`. -/
def resume (op : ReadUntilDelimOp) (delim : UInt8) (ec : Bool) (bytes : Bytes) : Progress :=
  let b := op.streambuf ++ bytes
  if ec ∨ bytes.length = 0 then .handler b ec (if ec then 0 else op.searchPosition)
  else
    match find b delim op.searchPosition with
    | some i => .handler b ec (i + 1)
    | none => .reads ⟨b, b.length⟩

/-- The operation has read the pieces, and waits for more. -/
structure HasRead (op : ReadUntilDelimOp) (pieces : List Bytes) : Prop where
  /-- They are in the buffer. -/
  streambuf : op.streambuf = pieces.flatten
  /-- They have been searched. -/
  searchPosition : op.searchPosition = pieces.flatten.length
  /-- There was no `NUL`. -/
  nul_free : 0 ∉ pieces.flatten

variable {op : ReadUntilDelimOp} {pieces : List Bytes} {ec : Bool} {bytes : Bytes}

theorem hasRead_start : start.HasRead [] := ⟨rfl, rfl, List.not_mem_nil⟩

theorem flatten_concat (pieces : List Bytes) (bytes : Bytes) :
    (pieces ++ [bytes]).flatten = pieces.flatten ++ bytes := by
  rw [List.flatten_append, List.flatten_singleton]

theorem resume_of_mem (h : op.HasRead pieces) (hmem : 0 ∈ bytes) : op.resume 0 false bytes
    = .handler (pieces ++ [bytes]).flatten false
        (((pieces ++ [bytes]).flatten.takeWhile (· ≠ 0)).length + 1) := by
  obtain ⟨p, q, rfl, hp⟩ := List.eq_append_cons_of_mem hmem
  have hlen : ¬ (p ++ 0 :: q).length = 0 := by simp
  have hfree : ∀ c ∈ pieces.flatten ++ p, decide (c ≠ 0) = true := by
    intro c hc
    refine decide_eq_true fun hzero ↦ ?_
    rcases List.mem_append.mp hc with hc | hc
    · exact h.nul_free (hzero ▸ hc)
    · exact hp (hzero ▸ hc)
  rw [resume]
  simp only [Bool.false_eq_true, false_or, if_neg hlen]
  rw [h.streambuf, h.searchPosition, find_append _ hp, flatten_concat, ← List.append_assoc,
    List.takeWhile_append_of_pos hfree]
  simp

/-- Whatever ends the operation, the handler finds all that was read. -/
theorem resume_of_ends (h : op.HasRead pieces) (hends : ec = true ∨ bytes = [] ∨ 0 ∈ bytes) :
    ∃ n, op.resume 0 ec bytes = .handler (pieces ++ [bytes]).flatten ec n := by
  rw [flatten_concat]
  by_cases hbreak : ec = true ∨ bytes.length = 0
  · exact ⟨_, by rw [resume, if_pos hbreak, h.streambuf]⟩
  · obtain ⟨hec, hlen⟩ := not_or.mp hbreak
    rw [Bool.not_eq_true] at hec
    subst hec
    have hmem : 0 ∈ bytes := by
      rcases hends with hec | rfl | hmem
      · cases hec
      · exact absurd List.length_nil hlen
      · exact hmem
    exact ⟨_, by rw [resume_of_mem h hmem, flatten_concat]⟩

theorem resume_of_not_ends (h : op.HasRead pieces)
    (hends : ¬ (ec = true ∨ bytes = [] ∨ 0 ∈ bytes)) :
    ∃ op', op.resume 0 ec bytes = .reads op' ∧ op'.HasRead (pieces ++ [bytes]) := by
  obtain ⟨hec, hne, hmem⟩ := not_or.mp hends |>.imp_right not_or.mp
  have hbreak : ¬ (ec = true ∨ bytes.length = 0) := by
    rw [List.length_eq_zero_iff]
    exact not_or.mpr ⟨hec, hne⟩
  have hfind : find (pieces.flatten ++ bytes) 0 pieces.flatten.length = none :=
    find_eq_none (by rwa [List.drop_left])
  refine ⟨⟨pieces.flatten ++ bytes, (pieces.flatten ++ bytes).length⟩, ?_, ?_⟩
  · rw [resume, if_neg hbreak, h.streambuf, h.searchPosition, hfind]
  · rw [← flatten_concat]
    refine ⟨rfl, rfl, ?_⟩
    rw [flatten_concat]
    exact fun hzero ↦ (List.mem_append.mp hzero).elim h.nul_free hmem

end ReadUntilDelimOp

/-- A connection that is handled at once finds the same in its buffer. -/
theorem readUntil_concat {b : Bytes} {pieces : List Bytes} (h : 0 ∉ b ++ pieces.flatten)
    (bytes : Bytes) : (readUntil b (pieces ++ [bytes])).1 = b ++ (pieces ++ [bytes]).flatten := by
  induction pieces generalizing b with
  | nil =>
    rw [List.nil_append, List.flatten_singleton, readUntil]
    split_ifs <;> rfl
  | cons piece pieces ih =>
    rw [List.flatten_cons, ← List.append_assoc] at h
    have hmem : 0 ∉ b ++ piece := fun hmem ↦ h (List.mem_append_left _ hmem)
    rw [List.cons_append, readUntil, if_neg hmem, ih h, List.flatten_cons, List.append_assoc]

/-! ## The event loop -/

/-- The server between two completions. -/
structure Io where
  /-- The state that all handlers share. -/
  state : State
  /-- How many connections were accepted. -/
  accepted : ℕ
  /-- The operation of a connection, `none` when its handler has been called. -/
  reading : ℕ → Option ReadUntilDelimOp

/-- An operation that has completed. -/
inductive Completion
  /-- `async_accept` -/
  | accept (error : Bool)
  /-- `async_read_some`, of a connection. -/
  | read (i : ℕ) (ec : Bool) (bytes : Bytes)
  /-- `async_receive_from` -/
  | receive (error : Bool) (d : Bytes)

/-- `run_server`, before the first completion. -/
def Io.start (maxmem : Int32) (recbuf : BufArr) : Io where
  state := Server.start maxmem recbuf
  accepted := 0
  reading _ := none

/-- `handle_accept`, `read_until_delim_op` with `tcp_con::handle_read`, and `handle_receive`. -/
def Io.step (io : Io) : Completion → Option (Io × Except Thrown (Option Bytes))
  | .accept error =>
    if error then some (io, .ok none)
    else some ({ io with
      accepted := io.accepted + 1
      reading := Function.update io.reading io.accepted (some .start) }, .ok none)
  | .read i ec bytes =>
    match io.reading i with
    -- no read of this connection is pending that could complete
    | none => some (io, .ok none)
    | some op =>
      match op.resume 0 ec bytes with
      | .reads op =>
        some ({ io with reading := Function.update io.reading i (some op) }, .ok none)
      | .handler b ec bytesTransferred => do
        let handled ← handleRead io.state.port b ec bytesTransferred
        some ({ io with
          state := ⟨handled.port, io.state.recbuf⟩
          reading := Function.update io.reading i none }, handled.outcome)
  | .receive error d =>
    if error then some (io, .ok none)
    else do
      let (s, outcome) ← io.state.step (.datagram d)
      some ({ io with state := s }, outcome)

/-- `my_io_service.run()`, with the operations in the order in which they complete. -/
def Io.loop (io : Io) : List Completion → Option Loop
  | [] => some (.waits io.state)
  | completion :: completions => do
    let (io, outcome) ← io.step completion
    match outcome with
    | .ok _ => io.loop completions
    | .error e => some (.thrown io.state e)

/-! ## Connections as events

The simulation: the loop and the events agree on the server, and each open connection has read
what its list of pieces says. A completion that does not end an operation is no event at all. -/

/-- The events that completions amount to, with the pieces that were read so far of every connection
that is open: a datagram is one when it is received, and a connection when a read fails, finds
nothing or finds a `NUL`. -/
def eventsFrom (accepted : ℕ) (pieces : ℕ → Option (List Bytes)) : List Completion → List Event
  | [] => []
  | .accept error :: completions =>
    if error then eventsFrom accepted pieces completions
    else eventsFrom (accepted + 1) (Function.update pieces accepted (some [])) completions
  | .read i ec bytes :: completions =>
    match pieces i with
    | none => eventsFrom accepted pieces completions
    | some before =>
      if ec = true ∨ bytes = [] ∨ 0 ∈ bytes then
        .stream (before ++ [bytes]) ::
          eventsFrom accepted (Function.update pieces i none) completions
      else eventsFrom accepted (Function.update pieces i (some (before ++ [bytes]))) completions
  | .receive error d :: completions =>
    if error then eventsFrom accepted pieces completions
    else .datagram d :: eventsFrom accepted pieces completions

/-- The events that reach a server. -/
def eventsOf (completions : List Completion) : List Event := eventsFrom 0 (fun _ ↦ none) completions

/-- The operations of the open connections have read the pieces. -/
structure Io.HasRead (io : Io) (accepted : ℕ) (pieces : ℕ → Option (List Bytes)) : Prop where
  /-- The connections have the same numbers. -/
  accepted : io.accepted = accepted
  /-- The same connections are open. -/
  reading : ∀ i, Option.Rel ReadUntilDelimOp.HasRead (io.reading i) (pieces i)

variable {io : Io} {accepted : ℕ} {pieces : ℕ → Option (List Bytes)}

theorem rel_update {α β : Type*} {r : α → β → Prop} {f : ℕ → Option α} {g : ℕ → Option β}
    (h : ∀ i, Option.Rel r (f i) (g i)) (j : ℕ) {a : Option α} {b : Option β}
    (hab : Option.Rel r a b) (i : ℕ) :
    Option.Rel r (Function.update f j a i) (Function.update g j b i) := by
  by_cases hi : i = j
  · subst hi
    rwa [Function.update_self, Function.update_self]
  · rw [Function.update_of_ne hi, Function.update_of_ne hi]
    exact h i

theorem Io.HasRead.reading_of_none (h : io.HasRead accepted pieces) {i : ℕ}
    (hpieces : pieces i = none) : io.reading i = none := by
  have hi := h.reading i
  rw [hpieces] at hi
  generalize io.reading i = a at hi
  cases hi
  rfl

theorem Io.HasRead.reading_of_some (h : io.HasRead accepted pieces) {i : ℕ} {before : List Bytes}
    (hpieces : pieces i = some before) : ∃ op, io.reading i = some op ∧ op.HasRead before := by
  have hi := h.reading i
  rw [hpieces] at hi
  generalize io.reading i = a at hi
  cases hi with
  | some hread => exact ⟨_, rfl, hread⟩

theorem handleRead_eq (s : State) {before : List Bytes} (h : 0 ∉ before.flatten) (bytes : Bytes)
    (ec : Bool) (n : ℕ) :
    (handleRead s.port (before ++ [bytes]).flatten ec n).map (Handled.after s.recbuf)
      = s.step (.stream (before ++ [bytes])) := by
  rw [step_stream, readUntil_concat (by rwa [List.nil_append]), List.nil_append]
  rfl

theorem Io.step_read_of_ends {i : ℕ} {op : ReadUntilDelimOp} {before : List Bytes} {ec : Bool}
    {bytes : Bytes} (hop : io.reading i = some op) (hread : op.HasRead before)
    (hends : ec = true ∨ bytes = [] ∨ 0 ∈ bytes) :
    io.step (.read i ec bytes) = (io.state.step (.stream (before ++ [bytes]))).map fun r ↦
      ({ io with state := r.1, reading := Function.update io.reading i none }, r.2) := by
  obtain ⟨n, hresume⟩ := ReadUntilDelimOp.resume_of_ends hread hends
  simp only [Io.step, hop, hresume, ← handleRead_eq io.state hread.nul_free bytes ec n]
  cases handleRead io.state.port (before ++ [bytes]).flatten ec n <;> rfl

theorem Io.step_read_of_not_ends {i : ℕ} {op : ReadUntilDelimOp} {before : List Bytes} {ec : Bool}
    {bytes : Bytes} (hop : io.reading i = some op) (hread : op.HasRead before)
    (hends : ¬ (ec = true ∨ bytes = [] ∨ 0 ∈ bytes)) :
    ∃ op', io.step (.read i ec bytes)
        = some ({ io with reading := Function.update io.reading i (some op') }, .ok none) ∧
      op'.HasRead (before ++ [bytes]) := by
  obtain ⟨op', hresume, hread'⟩ := ReadUntilDelimOp.resume_of_not_ends hread hends
  exact ⟨op', by simp only [Io.step, hop, hresume], hread'⟩

theorem Io.step_receive (d : Bytes) :
    io.step (.receive false d) = (io.state.step (.datagram d)).map fun r ↦
      ({ io with state := r.1 }, r.2) := by
  rw [Io.step, if_neg Bool.false_ne_true]
  cases io.state.step (.datagram d) <;> rfl

theorem Io.loop_of_ok {io' : Io} {completion : Completion} {reply : Option Bytes}
    (hstep : io.step completion = some (io', .ok reply)) (completions : List Completion) :
    io.loop (completion :: completions) = io'.loop completions := by
  rw [Io.loop, hstep]
  rfl

theorem Io.loop_of_event {completion : Completion} {event : Event}
    {reading : ℕ → Option ReadUntilDelimOp} {completions : List Completion} {events : List Event}
    (hstep : io.step completion = (io.state.step event).map fun r ↦
      ({ io with state := r.1, reading := reading }, r.2))
    (hrest : ∀ s, { io with state := s, reading := reading : Io }.loop completions
      = s.loop events) :
    io.loop (completion :: completions) = io.state.loop (event :: events) := by
  rw [Io.loop, hstep, State.loop]
  cases io.state.step event with
  | none => rfl
  | some r =>
    obtain ⟨s, outcome⟩ := r
    cases outcome with
    | ok reply => exact hrest s
    | error e => rfl

/-- **The order of completions** matters only through the order of the events. -/
theorem Io.HasRead.loop_eq (h : io.HasRead accepted pieces) (completions : List Completion) :
    io.loop completions = io.state.loop (eventsFrom accepted pieces completions) := by
  induction completions generalizing io accepted pieces with
  | nil => rfl
  | cons completion completions ih =>
    rw [eventsFrom.eq_def]
    cases completion with
    | accept error =>
      cases error with
      | true => exact ih h
      | false =>
        obtain ⟨rfl, hreading⟩ := h
        exact ih ⟨rfl, rel_update hreading _ (.some ReadUntilDelimOp.hasRead_start)⟩
    | read i ec bytes =>
      cases hbefore : pieces i with
      | none =>
        have hstep : io.step (.read i ec bytes) = some (io, .ok none) := by
          simp only [Io.step, h.reading_of_none hbefore]
        simp only [hbefore]
        exact (Io.loop_of_ok hstep completions).trans (ih h)
      | some before =>
        obtain ⟨op, hop, hread⟩ := h.reading_of_some hbefore
        by_cases hends : ec = true ∨ bytes = [] ∨ 0 ∈ bytes
        · simp only [hbefore, if_pos hends]
          exact Io.loop_of_event (Io.step_read_of_ends hop hread hends) fun s ↦
            ih ⟨h.accepted, rel_update h.reading i .none⟩
        · obtain ⟨op', hstep, hread'⟩ := Io.step_read_of_not_ends hop hread hends
          simp only [hbefore, if_neg hends]
          refine (Io.loop_of_ok hstep completions).trans ?_
          exact ih ⟨h.accepted, rel_update h.reading i (.some hread')⟩
    | receive error d =>
      cases error with
      | true => exact ih h
      | false => exact Io.loop_of_event (Io.step_receive d) fun s ↦ ih ⟨h.accepted, h.reading⟩

/-- What was read from a connection. -/
def readsOf (i : ℕ) : List Completion → List Bytes
  | [] => []
  | .read j _ bytes :: completions =>
    if j = i then bytes :: readsOf i completions else readsOf i completions
  | _ :: completions => readsOf i completions

/-- A connection that opens or closes has nothing to add to what is read later. -/
theorem infix_of_update {p rest : List Bytes} {i j : ℕ} {a : Option (List Bytes)}
    (h : p <:+: (Function.update pieces j a i).getD [] ++ rest) (ha : a.getD [] = []) :
    p <:+: (pieces i).getD [] ++ rest := by
  by_cases hi : i = j
  · subst hi
    rw [Function.update_self, ha, List.nil_append] at h
    exact h.trans (List.suffix_append _ _).isInfix
  · rwa [Function.update_of_ne hi] at h

theorem infix_readsOf_cons {p before : List Bytes} {i j : ℕ} {ec : Bool} {bytes : Bytes}
    {completions : List Completion} (h : p <:+: before ++ readsOf i completions)
    (hne : j = i → before = []) : p <:+: before ++ readsOf i (.read j ec bytes :: completions) := by
  rw [readsOf]
  split_ifs with hj
  · rw [hne hj] at h ⊢
    exact h.trans (List.suffix_cons _ _).isInfix
  · exact h

theorem infix_of_read {p before : List Bytes} {i j : ℕ} {ec : Bool} {bytes : Bytes}
    {completions : List Completion} {a : Option (List Bytes)} (hbefore : pieces j = some before)
    (ha : a.getD [] <:+ before ++ [bytes])
    (h : p <:+: (Function.update pieces j a i).getD [] ++ readsOf i completions) :
    p <:+: (pieces i).getD [] ++ readsOf i (.read j ec bytes :: completions) := by
  by_cases hij : i = j
  · subst hij
    rw [Function.update_self] at h
    obtain ⟨dropped, hdropped⟩ := ha
    rw [hbefore, Option.getD_some, readsOf, if_pos rfl, List.append_cons, ← hdropped,
      List.append_assoc]
    exact h.trans (List.suffix_append _ _).isInfix
  · rw [Function.update_of_ne hij] at h
    exact infix_readsOf_cons h fun heq ↦ absurd heq.symm hij

/-- The pieces of an event come from one connection, and nothing in between is left out. -/
theorem stream_mem_eventsFrom {p : List Bytes} {completions : List Completion}
    (h : .stream p ∈ eventsFrom accepted pieces completions) :
    ∃ i, p <:+: (pieces i).getD [] ++ readsOf i completions := by
  induction completions generalizing accepted pieces with
  | nil => cases h
  | cons completion completions ih =>
    rw [eventsFrom.eq_def] at h
    cases completion with
    | accept error =>
      cases error with
      | true => exact ih h
      | false =>
        obtain ⟨i, hi⟩ := ih h
        exact ⟨i, infix_of_update hi rfl⟩
    | read j ec bytes =>
      cases hbefore : pieces j with
      | none =>
        simp only [hbefore] at h
        obtain ⟨i, hi⟩ := ih h
        refine ⟨i, infix_readsOf_cons hi ?_⟩
        rintro rfl
        rw [hbefore, Option.getD_none]
      | some before =>
        simp only [hbefore] at h
        split_ifs at h with hends
        · rcases List.mem_cons.mp h with hp | h
          · -- the event that is complete now
            obtain rfl := Event.stream.inj hp
            have hsplit : before ++ bytes :: readsOf j completions
                = before ++ [bytes] ++ readsOf j completions := List.append_cons ..
            refine ⟨j, ?_⟩
            rw [hbefore, Option.getD_some, readsOf, if_pos rfl, hsplit]
            exact (List.prefix_append _ _).isInfix
          · obtain ⟨i, hi⟩ := ih h
            exact ⟨i, infix_of_read (a := none) hbefore List.nil_suffix hi⟩
        · obtain ⟨i, hi⟩ := ih h
          exact ⟨i, infix_of_read hbefore (List.suffix_refl _) hi⟩
    | receive error d =>
      cases error with
      | true => exact ih h
      | false =>
        rcases List.mem_cons.mp h with hp | h
        · cases hp
        · exact ih h

/-- **Connections are handled at once**, as far as anybody can tell: with any number of them open,
and their bytes arriving in any order between those of others and between datagrams, the server does
what it does with one event after another. An event has the bytes of a single connection, with none
of them left out or moved. -/
theorem loop_eventsOf (maxmem : Int32) (recbuf : BufArr) (completions : List Completion) :
    (Io.start maxmem recbuf).loop completions
        = (start maxmem recbuf).loop (eventsOf completions) ∧
      ∀ p, .stream p ∈ eventsOf completions → ∃ i, p <:+: readsOf i completions := by
  have hstart : (Io.start maxmem recbuf).HasRead 0 fun _ ↦ none := ⟨rfl, fun _ ↦ .none⟩
  exact ⟨hstart.loop_eq completions, fun p hp ↦ stream_mem_eventsFrom hp⟩

/-- The second connection is handled first, as its `NUL` comes first. -/
example : eventsOf [.accept false, .accept false, .read 0 false (ascii "PUT /k"),
    .read 1 false (ascii "DELETE /k" ++ [0]), .read 0 false (ascii "/v" ++ [0])]
    = [.stream [ascii "DELETE /k" ++ [0]], .stream [ascii "PUT /k", ascii "/v" ++ [0]]] := rfl

end Server

end NetCache
