import NetCache.Cache.Ownership
import NetCache.Server.Messages
import NetCache.Server.Receive

/-!
# The life of a server

The event loop of `run_server` goes on until a handler throws. `main` catches `ExitException` only:
on the way `safe_cache` destroys what its handle refers to, and the program ends. Nothing catches
another exception, and the program is terminated; C++ leaves open whether it destroys anything
before, so nothing is said of its memory.

## Owning

A server that runs has allocated what its entries need and no more, and a server whose `main`
returns has freed everything, each thing once, whatever was sent to it (`main_owned`). `Owns` is the
invariant: the handle refers to a cache whose live objects are counted by its entries. It covers the
caches of the past. A `POST memsize` destroys a cache and creates the next one in the heaps that are
left, so what the destruction forgot would be live in the new cache and belong to no entry.

## Messages

A message that succeeds leaves the handle as it was, or with the cache after one call, or with a new
cache (`Succeeds`).

## The end

When an `ExitException` ends the loop, the program ends with empty heaps. `exits_of_step` connects
this with a message: if a handler throws it, in a state that some events have led to, the process
exits there.
-/

namespace NetCache

open Text

namespace Server

variable {s s' : State} {port : Option CacheObj} {handled : Handled} {message : Bytes}
  {event : Event} {events : List Event}

/-! ## The program -/

/-- Where the event loop is. -/
inductive Loop
  /-- It waits for the next event. -/
  | waits (s : State)
  /-- An exception has ended it. -/
  | thrown (s : State) (e : Thrown)

/-- `my_io_service.run()`, with the events that reach the server; those that come after an exception
are not handled. -/
def State.loop (s : State) : List Event → Option Loop
  | [] => some (.waits s)
  | event :: events => do
    let (s, outcome) ← s.step event
    match outcome with
    | .ok _ => s.loop events
    | .error e => some (.thrown s e)

/-- `~safe_cache`. The handle is never `nullptr`, but it may refer to a destroyed cache. -/
def destroySafeCache (port : Option CacheObj) :
    Option (Heap LinkObj × Heap CStr × Heap (PinfoObj Addr)) := do
  let cache ← port
  cache.destroyCache

/-- What has become of the program. -/
inductive Process
  /-- It runs. -/
  | running (s : State)
  /-- `main` has returned 0; the cache has left these heaps. -/
  | exited (links : Heap LinkObj) (keys : Heap CStr) (infos : Heap (PinfoObj Addr))
  /-- An exception that is not caught has terminated it. -/
  | terminated (e : Thrown)

/-- `main`, after the options. -/
def main (maxmem : Int32) (recbuf : BufArr) (events : List Event) : Option Process := do
  match ← (start maxmem recbuf).loop events with
  | .waits s => some (.running s)
  | .thrown s .exitException => do
    let (links, keys, infos) ← destroySafeCache s.port
    some (.exited links keys infos)
  | .thrown _ e => some (.terminated e)

/-! ## One message -/

/-- The handle refers to a live cache, all of whose allocations are accounted for. -/
def Owns (port : Option CacheObj) : Prop :=
  ∃ cache c, port = some cache ∧ Keeps port (some c) ∧ cache.Balanced

theorem Owns.owned (h : Owns port) : ∃ cache, port = some cache ∧ cache.Owned := by
  obtain ⟨cache, c, rfl, ⟨cache', l, hcache, hr, -⟩, hb⟩ := h
  obtain rfl := Option.some.inj hcache
  exact ⟨cache, rfl, hr.owned hb⟩

theorem owns_createCache (maxmem : UInt64) : Owns (some (CacheObj.createCache maxmem none)) :=
  ⟨_, _, rfl, keeps_createCache maxmem, CacheObj.balanced_createCache maxmem none⟩

/-- A request that leaves a cache leaves one that was created in what `destroy_cache` left of the
one from before, or that keeps the accounts of that one. -/
inductive Succeeds (cache : CacheObj) : Option CacheObj → Prop
  /-- The cache was destroyed and not replaced. -/
  | lost : Succeeds cache none
  /-- It was replaced. -/
  | created {links : Heap LinkObj} {keys : Heap CStr} {infos : Heap (PinfoObj Addr)}
      (hdestroy : cache.destroyCache = some (links, keys, infos)) (maxmem : UInt64) :
      Succeeds cache (some (CacheObj.createCacheIn links keys infos maxmem none))
  /-- It was used. -/
  | used {cache' : CacheObj} (h : cache.Kept cache') : Succeeds cache (some cache')

variable {cache : CacheObj}

theorem Succeeds.same (cache : CacheObj) : Succeeds cache (some cache) := .used ⟨le_rfl, id⟩

theorem get_succeeds {key : Bytes} (h : get (some cache) key = some handled) :
    Succeeds cache handled.port := by
  obtain ⟨⟨cache', v, n⟩, hget, h⟩ := Option.bind_eq_some_iff.mp h
  cases v with
  | none =>
    obtain rfl := Option.some.inj h
    exact .used (CacheObj.cacheGet_kept hget)
  | some v =>
    obtain ⟨value, -, h⟩ := Option.bind_eq_some_iff.mp h
    obtain ⟨output, -, h⟩ := Option.bind_eq_some_iff.mp h
    obtain rfl := Option.some.inj h
    exact .used (CacheObj.cacheGet_kept hget)

theorem put_succeeds (hslot : cache.SlotEmpty) {key value : Bytes}
    (h : put (some cache) key value = some handled) : Succeeds cache handled.port := by
  obtain ⟨cache', hset, h⟩ := Option.bind_eq_some_iff.mp h
  obtain rfl := Option.some.inj h
  exact .used (CacheObj.cacheSet_kept hslot hset)

theorem delete_succeeds {key : Bytes} (h : delete_ (some cache) key = some handled) :
    Succeeds cache handled.port := by
  obtain ⟨cache', hdel, h⟩ := Option.bind_eq_some_iff.mp h
  obtain rfl := Option.some.inj h
  exact .used (CacheObj.cacheDelete_shrunk hdel).kept

theorem post_succeeds {postType extraInfo : Bytes}
    (h : post (some cache) postType extraInfo = some handled) : Succeeds cache handled.port := by
  rw [post] at h
  split at h
  · obtain rfl := Option.some.inj h
    exact .same cache
  · split_ifs at h with hshutdown hmemsize
    · obtain rfl := Option.some.inj h
      exact .same cache
    · simp only [Option.bind_eq_bind, Option.bind_some] at h
      split_ifs at h with hused
      · obtain ⟨⟨links, keys, infos⟩, hdestroy, h⟩ := Option.bind_eq_some_iff.mp h
        cases hnum : stoll extraInfo with
        | ok n =>
          rw [hnum] at h
          obtain rfl := Option.some.inj h
          exact .created hdestroy _
        | error e =>
          rw [hnum] at h
          obtain rfl := Option.some.inj h
          exact .lost
      · obtain rfl := Option.some.inj h
        exact .same cache
    · obtain rfl := Option.some.inj h
      exact .same cache

theorem actOnMessage_succeeds (hslot : cache.SlotEmpty)
    (h : actOnMessage (some cache) message = some handled) : Succeeds cache handled.port := by
  rw [actOnMessage] at h
  cases hparts : parts message with
  | none =>
    rw [hparts] at h
    obtain rfl := Option.some.inj h
    exact .same cache
  | some p =>
    obtain ⟨fword, info1, info2⟩ := p
    rw [hparts] at h
    simp only at h
    split_ifs at h
    · exact get_succeeds h
    · exact put_succeeds hslot h
    · exact delete_succeeds h
    · obtain rfl := Option.some.inj h
      exact .same cache
    · exact post_succeeds h
    · obtain rfl := Option.some.inj h
      exact .same cache

/-- **One message** keeps the accounts, unless it throws what `stoll` throws. -/
theorem Owns.act (h : Owns port) (hact : actOnMessage port message = some handled)
    (hthrown : ∀ e, handled.outcome ≠ .error (.conversion e)) : Owns handled.port := by
  obtain ⟨cache, c, rfl, hkeeps, hb⟩ := h
  obtain ⟨e, heffect, hafter⟩ := keeps_after hkeeps hact
  obtain ⟨cache', l, hcache, hr, -⟩ := hkeeps
  obtain rfl := Option.some.inj hcache
  have hsucceeds := actOnMessage_succeeds hr.slotEmpty hact
  cases e with
  | none =>
    -- only a number that cannot be read loses the cache
    generalize handled.outcome = outcome at heffect hthrown
    cases heffect with
    | lose e => exact absurd rfl (hthrown e)
  | some c' =>
    generalize hport : handled.port = port' at hsucceeds hafter
    cases hsucceeds with
    | lost => exact absurd rfl hafter.ne_none
    | created hdestroy maxmem =>
      -- the new cache starts where the old one has left nothing
      obtain ⟨_, _, _, hdestroy', hlinks, hkeys, -⟩ := (hr.owned hb).freed
      obtain ⟨rfl, h⟩ := Prod.mk.inj (Option.some.inj (hdestroy.symm.trans hdestroy'))
      obtain ⟨rfl, rfl⟩ := Prod.mk.inj h
      exact ⟨_, c', rfl, hafter, CacheObj.balanced_createCacheIn hlinks hkeys _ _ none⟩
    | used hkept => exact ⟨_, c', rfl, hafter, hkept.balanced hb⟩

/-! ## Runs

The loop ends with the events, with an exception, or undefined. Only in the first case is there a
server whose memory can be spoken of, and only an `ExitException` is followed by a destruction. -/

/-- **One event** keeps them. -/
theorem Owns.step (h : Owns s.port) {outcome : Except Thrown (Option Bytes)}
    (hstep : s.step event = some (s', outcome))
    (hthrown : ∀ e, outcome ≠ .error (.conversion e)) : Owns s'.port := by
  rcases State.step_cases hstep with ⟨message, handled, hact, hport, rfl⟩ | hport
  · rw [← hport]
    exact h.act hact hthrown
  · rwa [hport]

/-- What the event loop leaves to `main`. -/
def Loop.Owns : Loop → Prop
  | .waits s => Server.Owns s.port
  | .thrown s e => (∀ e', e ≠ .conversion e') → Server.Owns s.port

/-- **The event loop** keeps them. -/
theorem Owns.loop (h : Owns s.port) {loop : Loop} (hloop : s.loop events = some loop) :
    loop.Owns := by
  induction events generalizing s with
  | nil =>
    obtain rfl := Option.some.inj hloop
    exact h
  | cons event events ih =>
    obtain ⟨⟨s', outcome⟩, hstep, hloop⟩ := Option.bind_eq_some_iff.mp hloop
    cases outcome with
    | ok reply => exact ih (h.step hstep (by simp)) hloop
    | error e =>
      obtain rfl := Option.some.inj hloop
      exact fun he ↦ h.step hstep fun e' heq ↦ he e' (Except.error.inj heq)

/-- The memory of a process: a server that runs owns what its cache has allocated, and one that has
ended left nothing. -/
def Process.Owned : Process → Prop
  | running s => ∃ cache, s.port = some cache ∧ cache.Owned
  | exited links keys infos => links.live = ∅ ∧ keys.live = ∅ ∧ infos.live = ∅
  | terminated _ => True

theorem main_of_exit {maxmem : Int32} {recbuf : BufArr} (h : Owns s.port)
    (hloop : (start maxmem recbuf).loop events = some (.thrown s .exitException)) :
    ∃ links keys infos, main maxmem recbuf events = some (.exited links keys infos) ∧
      links.live = ∅ ∧ keys.live = ∅ ∧ infos.live = ∅ := by
  obtain ⟨cache, hport, howned⟩ := h.owned
  obtain ⟨links, keys, infos, hdestroy, hfreed⟩ := howned.freed
  refine ⟨links, keys, infos, ?_, hfreed⟩
  rw [main, hloop]
  simp only [Option.bind_eq_bind, Option.bind_some, destroySafeCache, hport, hdestroy]

/-- **A server owns its memory** whatever reaches it: a server that runs has as many allocations as
its entries need, one that exits has freed them all, and the cache that `safe_cache` destroys on the
way out is always a live one. -/
theorem main_owned {maxmem : Int32} {recbuf : BufArr} {loop : Loop}
    (hloop : (start maxmem recbuf).loop events = some loop) :
    ∃ process, main maxmem recbuf events = some process ∧ process.Owned := by
  have howns := Owns.loop (owns_createCache _) hloop
  cases loop with
  | waits s => exact ⟨.running s, by rw [main, hloop]; rfl, howns.owned⟩
  | thrown s e =>
    by_cases he : e = .exitException
    · subst he
      obtain ⟨links, keys, infos, hmain, hfreed⟩ := main_of_exit (howns (by simp)) hloop
      exact ⟨_, hmain, hfreed⟩
    · refine ⟨.terminated e, ?_, trivial⟩
      rw [main, hloop]
      cases e with
      | exitException => exact absurd rfl he
      | _ => rfl

/-- A server whose cache is replaced, filled and destroyed. -/
theorem main_owned_example : ∃ process, main 100 (filled 0)
      [.stream [ascii "POST /memsize/7" ++ [0]], .stream [ascii "PUT /k/v" ++ [0]],
        .stream [ascii "POST /shutdown" ++ [0]]] = some process ∧ process.Owned := by
  have hs : Keeps (start 100 (filled 0)).port (some ⟨(100 : Int32).toInt64.toUInt64, []⟩) :=
    keeps_createCache _
  obtain ⟨s₁, hstep₁, hs₁⟩ : ∃ s', (start 100 (filled 0)).step
      (.stream [ascii "POST /memsize/7" ++ [0]]) = some (s', .ok none) ∧
      Keeps s'.port (some ⟨7, []⟩) := step_stream_of_act hs rfl
  obtain ⟨s₂, hstep₂, hs₂⟩ : ∃ s', s₁.step (.stream [ascii "PUT /k/v" ++ [0]])
      = some (s', .ok none) ∧ Keeps s'.port _ := step_stream_of_act hs₁ rfl
  obtain ⟨s₃, hstep₃, -⟩ : ∃ s', s₂.step (.stream [ascii "POST /shutdown" ++ [0]])
      = some (s', .error .exitException) ∧ Keeps s'.port _ := step_stream_of_act hs₂ rfl
  have hloop : (start 100 (filled 0)).loop [.stream [ascii "POST /memsize/7" ++ [0]],
      .stream [ascii "PUT /k/v" ++ [0]], .stream [ascii "POST /shutdown" ++ [0]]]
      = some (.thrown s₃ .exitException) := by
    simp only [State.loop, hstep₁, hstep₂, hstep₃, Option.bind_eq_bind, Option.bind_some]
  exact main_owned hloop

theorem State.loop_append {later : List Event} (h : s.loop events = some (.waits s')) :
    s.loop (events ++ later) = s'.loop later := by
  induction events generalizing s with
  | nil =>
    obtain rfl := Loop.waits.inj (Option.some.inj h)
    rfl
  | cons event events ih =>
    obtain ⟨⟨s₁, outcome⟩, hstep, h⟩ := Option.bind_eq_some_iff.mp h
    cases outcome with
    | ok reply =>
      rw [List.cons_append, State.loop, hstep]
      exact ih h
    | error e => cases h

/-- A handler that throws `ExitException` ends the program, whatever comes after. -/
theorem exits_of_step {maxmem : Int32} {recbuf : BufArr}
    (hloop : (start maxmem recbuf).loop events = some (.waits s))
    (hstep : s.step event = some (s', .error .exitException)) (later : List Event) :
    ∃ links keys infos,
      main maxmem recbuf (events ++ event :: later) = some (.exited links keys infos) ∧
      links.live = ∅ ∧ keys.live = ∅ ∧ infos.live = ∅ := by
  have howns : Owns s.port := Owns.loop (owns_createCache _) hloop
  refine main_of_exit (howns.step hstep (by simp)) ?_
  rw [State.loop_append hloop, State.loop, hstep]
  rfl

end Server

end NetCache
