import NetCache.Cache.Contract
import NetCache.Server.Source

/-!
# What a request does

The server without its cache: its contents are a limit and a list of entries, most recently used
first, and a request is a function of the contents.

## Why contents

The handlers work on a cache with its table, its chains and its policy. None of that matters to what
a message does, and carrying it along would make every theorem about messages one about pointers as
well. `actOnMessage_refines` says that the handlers of the source compute the functions of this
module, for every message and whatever the bytes, so that later modules can argue about contents.

## What is refined

A handler and the request on the contents end alike (`Handled.Refines`): both are undefined or
neither is, both throw the same or answer the same, and the handle that is left keeps the contents
that are left. The contents may be gone, `none`: then the handle refers to a cache that has been
destroyed and not replaced.

The space used is the sum of the sizes as the cache computes it, in 64 bits. It is zero also when
all values are empty, which is what `POST memsize` takes for an empty cache.

## Events

An event has one message handled, or leaves the handle alone (`State.step_cases`). Together with the
refinement this is all that is used of the event loop when one connection is one event.
-/

namespace NetCache

open Text

namespace Server

/-- The answer to a `GET`. -/
def jsonText (key value : Bytes) : Bytes :=
  ascii "\x7b \"key\": \"" ++ key ++ ascii "\" , \"value\": \"" ++ value ++ ascii "\" \x7d "

/-- The value a `PUT` stores: its text, up to the size that is left of its length. -/
def putValue (value : Bytes) : Value := Value.ofBuffer (value ++ [0]) (UInt32.ofNat value.length)

theorem putValue_eq {value : Bytes} (h : value.length < 2 ^ 32) : putValue value = ⟨value, h⟩ := by
  ext1
  rw [putValue, Value.bytes_ofBuffer, UInt32.toNat_ofNat', Nat.mod_eq_of_lt h, List.take_left]

/-- What a server keeps. -/
structure Contents where
  /-- The limit. -/
  limit : UInt64
  /-- The entries, most recently used first. -/
  entries : List (CStr × Value)

/-- How the handling of a message ends: with the contents that are left, `none` if the cache was
destroyed and not replaced, and with what is thrown or answered. -/
abbrev Ended := Option Contents × Except Thrown (Option Bytes)

namespace Contents

/-- The space the values take. -/
def spaceUsed (c : Contents) : UInt64 := Lru.wordTotal Value.size c.entries

/-- A `GET`, undefined when the value is not a string or the key has no last byte. -/
def get (c : Contents) (key : Bytes) : Option Ended :=
  match Lru.find (CStr.ofBytes key) c.entries with
  | none => some (some c, .ok (some errorText))
  | some v =>
    if 0 ∈ v.bytes ∧ key ≠ [] then
      some (some { c with entries := Lru.touch (CStr.ofBytes key) c.entries },
        .ok (some (jsonText key.dropLast (v.bytes.takeWhile (· ≠ 0)))))
    else none

/-- A `PUT`. -/
def put (c : Contents) (key value : Bytes) : Contents :=
  { c with entries :=
      Lru.put (Lru.word Value.size c.limit) (CStr.ofBytes key) (putValue value) c.entries }

/-- A `DELETE`. -/
def delete (c : Contents) (key : Bytes) : Contents :=
  { c with entries := Lru.remove (CStr.ofBytes key) c.entries }

/-- A `POST`. -/
def post (c : Contents) (postType extraInfo : Bytes) : Ended :=
  match strip postType with
  | none => (some c, .error .resizeError)
  | some postType =>
    if postType = ascii "shutdown" then (some c, .error .exitException)
    else if postType = ascii "memsize" then
      if c.spaceUsed = 0 then
        match stoll extraInfo with
        | .ok n => (some ⟨UInt64.ofInt n, []⟩, .ok none)
        | .error e => (none, .error (.conversion e))
      else (some c, .ok (some errorText))
    else (some c, .error .badPostMessage)

theorem post_memsize (c : Contents) {postType : Bytes}
    (hmemsize : strip postType = some (ascii "memsize")) (extraInfo : Bytes) :
    c.post postType extraInfo = if c.spaceUsed = 0 then
      match stoll extraInfo with
      | .ok n => (some ⟨UInt64.ofInt n, []⟩, .ok none)
      | .error e => (none, .error (.conversion e))
    else (some c, .ok (some errorText)) := by
  have hshutdown : ascii "memsize" ≠ ascii "shutdown" := by decide
  rw [post, hmemsize]
  simp only [if_neg hshutdown, if_true]

/-- A message. -/
def act (c : Contents) (message : Bytes) : Option Ended :=
  match parts message with
  | none => some (some c, .error .lengthError)
  | some ⟨fword, info1, info2⟩ =>
    if fword = ascii "GET" then c.get info1
    else if fword = ascii "PUT" then some (some (c.put info1 info2), .ok none)
    else if fword = ascii "DELETE" then some (some (c.delete info1), .ok none)
    else if fword = ascii "HEAD" then some (some c, .ok none)
    else if fword = ascii "POST" then some (c.post info1 info2)
    else some (some c, .error .badMessage)

/-- A message, if `strip` has not thrown. -/
def actOnStripped (c : Contents) : Option Bytes → Option Ended
  | none => some (some c, .error .resizeError)
  | some message => c.act message

@[simp] theorem actOnStripped_some (c : Contents) (message : Bytes) :
    c.actOnStripped (some message) = c.act message := rfl

/-- The contents after a call of the LRU store. -/
def apply (c : Contents) (call : Lru.Call CStr Value) : Contents :=
  { c with entries := (Lru.step (Lru.word Value.size c.limit) c.entries call).1 }

end Contents

/-! ## Refinement -/

/-- What the handle of the server refers to: a live cache with the contents, or a destroyed one. -/
def Keeps (port : Option CacheObj) : Option Contents → Prop
  | none => port = none
  | some c => ∃ cache l, port = some cache ∧ cache.Rep c.limit defHashFn l ∧
      l.map Entry.kv = c.entries

/-- A handler ends as the request on the contents does. -/
structure Handled.Refines (handled : Handled) (ended : Ended) : Prop where
  /-- The contents that are left. -/
  port : Keeps handled.port ended.1
  /-- What is thrown or answered. -/
  outcome : handled.outcome = ended.2

variable {port : Option CacheObj} {c : Contents} {key value postType extraInfo : Bytes}

theorem keeps_createCacheIn {infos : Heap (PinfoObj Addr)} (hfree : ∀ a, infos.cell a = none)
    (links : Heap LinkObj) (keys : Heap CStr) (maxmem : UInt64) :
    Keeps (some (CacheObj.createCacheIn links keys infos maxmem none)) (some ⟨maxmem, []⟩) :=
  ⟨_, [], rfl, CacheObj.rep_createCacheIn hfree links keys maxmem none, rfl⟩

theorem keeps_createCache (maxmem : UInt64) :
    Keeps (some (CacheObj.createCache maxmem none)) (some ⟨maxmem, []⟩) :=
  keeps_createCacheIn (fun _ ↦ rfl) Heap.empty Heap.empty maxmem

theorem Keeps.nodup_keys (h : Keeps port (some c)) : (Lru.keys c.entries).Nodup := by
  obtain ⟨cache, l, -, hr, hl⟩ := h
  exact hl ▸ hr.nodup_keys

theorem Keeps.reads_eq {cache : CacheObj} (h : Keeps (some cache) (some c)) (key : CStr) :
    cache.reads key = some ((Lru.find key c.entries).map Value.bytes,
      ((Lru.find key c.entries).map Value.size).getD 0) := by
  obtain ⟨cache', l, hcache, hr, hl⟩ := h
  obtain rfl := Option.some.inj hcache
  rw [hr.reads_eq, hl]

theorem Keeps.holds_iff {cache : CacheObj} (h : Keeps (some cache) (some c)) {key : CStr} :
    cache.Holds key ↔ key ∈ Lru.keys c.entries := by
  obtain ⟨cache', l, hcache, hr, hl⟩ := h
  obtain rfl := Option.some.inj hcache
  rw [hr.holds_iff, hl]

theorem get_refines (h : Keeps port (some c)) (key : Bytes) :
    Option.Rel Handled.Refines (get port key) (c.get key) := by
  obtain ⟨cache, l, rfl, hr, hl⟩ := h
  obtain ⟨cache', l', hget, hr', hl'⟩ := hr.cacheGet (CStr.ofBytes key)
  rw [hl] at hget hl'
  cases hfind : Lru.find (CStr.ofBytes key) c.entries with
  | none =>
    rw [hfind] at hget
    rw [Lru.touch_of_none hfind] at hl'
    have hsource : get (some cache) key = some ⟨some cache', .ok (some errorText)⟩ := by
      simp [get, hget]
    rw [hsource, Contents.get, hfind]
    exact Option.Rel.some ⟨⟨cache', l', rfl, hr', hl'⟩, rfl⟩
  | some v =>
    rw [hfind] at hget
    have hsource : get (some cache) key = (cString v.bytes).bind fun value ↦
        (makeJson key value).bind fun output ↦ some ⟨some cache', .ok (some output)⟩ := by
      simp [get, hget]
    rw [hsource, Contents.get, hfind]
    by_cases hok : 0 ∈ v.bytes ∧ key ≠ []
    · simp only [cString, makeJson, if_pos hok, if_pos hok.1, if_neg hok.2, Option.bind_some]
      exact Option.Rel.some ⟨⟨cache', l', rfl, hr', hl'⟩, rfl⟩
    · -- the stored value has no end, or the key has no last byte
      have hundefined : ((cString v.bytes).bind fun value ↦ (makeJson key value).bind fun output ↦
          some (⟨some cache', .ok (some output)⟩ : Handled)) = none := by
        by_cases hv : 0 ∈ v.bytes
        · have hkey : key = [] := by_contra fun hkey ↦ hok ⟨hv, hkey⟩
          simp [cString, makeJson, hv, hkey]
        · simp [cString, hv]
      simp only [hundefined, if_neg hok]
      exact Option.Rel.none

theorem put_refines (h : Keeps port (some c)) (key value : Bytes) :
    Option.Rel Handled.Refines (put port key value) (some (some (c.put key value), .ok none)) := by
  obtain ⟨cache, l, rfl, hr, hl⟩ := h
  -- the size is narrowed, so it never exceeds the length of the buffer
  have hlen : (UInt32.ofNat value.length).toNat ≤ (value ++ [0]).length := by
    rw [UInt32.toNat_ofNat', List.length_append]
    exact (Nat.mod_le _ _).trans (Nat.le_add_right _ _)
  obtain ⟨cache', l', hset, hr', hl'⟩ := hr.cacheSet (CStr.ofBytes key) _ _ hlen
  rw [hl] at hl'
  have hsource : put (some cache) key value = some ⟨some cache', .ok none⟩ := by
    simp [put, hset]
  rw [hsource]
  exact Option.Rel.some ⟨⟨cache', l', rfl, hr', hl'⟩, rfl⟩

theorem delete_refines (h : Keeps port (some c)) (key : Bytes) :
    Option.Rel Handled.Refines (delete_ port key) (some (some (c.delete key), .ok none)) := by
  obtain ⟨cache, l, rfl, hr, hl⟩ := h
  obtain ⟨cache', hdel, hr'⟩ := hr.cacheDelete (CStr.ofBytes key)
  have hsource : delete_ (some cache) key = some ⟨some cache', .ok none⟩ := by
    simp [delete_, hdel]
  rw [hsource]
  refine Option.Rel.some ⟨⟨cache', _, rfl, hr', ?_⟩, rfl⟩
  rw [CacheObj.map_kv_without, hl]
  rfl

theorem post_refines (h : Keeps port (some c)) (postType extraInfo : Bytes) :
    Option.Rel Handled.Refines (post port postType extraInfo)
      (some (c.post postType extraInfo)) := by
  have hkeeps := h
  obtain ⟨cache, l, rfl, hr, hl⟩ := h
  rw [post, Contents.post]
  cases strip postType with
  | none => exact Option.Rel.some ⟨hkeeps, rfl⟩
  | some type =>
    simp only
    split_ifs with hshutdown hmemsize hused
    · exact Option.Rel.some ⟨hkeeps, rfl⟩
    · have hspace : cache.cacheSpaceUsed = 0 := by
        rw [CacheObj.cacheSpaceUsed, hr.used, hl]
        exact hused
      -- no node of the old policy is left when the new one is made
      obtain ⟨links, keys, infos, hdestroy, hfree⟩ := hr.destroyCache
      simp only [Option.bind_eq_bind, Option.bind_some, hspace, if_true, hdestroy]
      cases stoll extraInfo with
      | ok n => exact Option.Rel.some ⟨keeps_createCacheIn hfree links keys _, rfl⟩
      | error e => exact Option.Rel.some ⟨rfl, rfl⟩
    · have hspace : cache.cacheSpaceUsed ≠ 0 := by
        rw [CacheObj.cacheSpaceUsed, hr.used, hl]
        exact hused
      simp only [Option.bind_eq_bind, Option.bind_some, if_neg hspace]
      exact Option.Rel.some ⟨hkeeps, rfl⟩
    · exact Option.Rel.some ⟨hkeeps, rfl⟩

/-- **The server refines its contents**: every message is handled as the contents say, whatever
the bytes. -/
theorem actOnMessage_refines (h : Keeps port (some c)) (message : Bytes) :
    Option.Rel Handled.Refines (actOnMessage port message) (c.act message) := by
  rw [actOnMessage, Contents.act]
  cases parts message with
  | none => exact Option.Rel.some ⟨h, rfl⟩
  | some p =>
    obtain ⟨fword, info1, info2⟩ := p
    simp only
    split_ifs
    · exact get_refines h info1
    · exact put_refines h info1 info2
    · exact delete_refines h info1
    · exact Option.Rel.some ⟨h, rfl⟩
    · exact post_refines h info1 info2
    · exact Option.Rel.some ⟨h, rfl⟩

theorem actOnStripped_refines (h : Keeps port (some c)) (stripped : Option Bytes) :
    Option.Rel Handled.Refines (actOnStripped port stripped) (c.actOnStripped stripped) := by
  cases stripped with
  | none => exact Option.Rel.some ⟨h, rfl⟩
  | some message => exact actOnMessage_refines h message

/-! ## Events -/

/-- What the end of a handler makes of the state. -/
def Handled.after (recbuf : BufArr) (handled : Handled) :
    State × Except Thrown (Option Bytes) := (⟨handled.port, recbuf⟩, handled.outcome)

theorem step_stream (s : State) (pieces : List Bytes) : s.step (.stream pieces)
    = (actOnStripped s.port (strip (readUntil [] pieces).1)).map (Handled.after s.recbuf) := by
  rw [State.step]
  exact (Option.map_eq_bind ..).symm

theorem step_stream_of_act {s : State} (hs : Keeps s.port (some c)) {pieces : List Bytes}
    {e : Option Contents} {outcome : Except Thrown (Option Bytes)}
    (hact : c.actOnStripped (strip (readUntil [] pieces).1) = some (e, outcome)) :
    ∃ s', s.step (.stream pieces) = some (s', outcome) ∧ Keeps s'.port e := by
  have hrel := actOnStripped_refines hs (strip (readUntil [] pieces).1)
  rw [hact] at hrel
  generalize hhandled : actOnStripped s.port _ = handled at hrel
  cases hrel with
  | some hrefines =>
    rename_i handled
    refine ⟨⟨handled.port, s.recbuf⟩, ?_, hrefines.port⟩
    rw [step_stream, hhandled, Option.map_some, Handled.after, hrefines.outcome]

theorem step_datagram (s : State) (d : Bytes) : s.step (.datagram d)
    = (handleReceive s.port (receive s.recbuf d)).map (Handled.after (receive s.recbuf d)) := by
  rw [State.step]
  exact (Option.map_eq_bind ..).symm

theorem actOnStripped_cases {handled : Handled} {stripped : Option Bytes}
    (h : actOnStripped port stripped = some handled) :
    (∃ message, actOnMessage port message = some handled) ∨ handled.port = port := by
  cases stripped with
  | none => exact Or.inr (congrArg Handled.port (Option.some.inj h)).symm
  | some message => exact Or.inl ⟨message, h⟩

/-- An event has a message handled, or leaves the handle alone. -/
theorem State.step_cases {s s' : State} {event : Event} {outcome : Except Thrown (Option Bytes)}
    (h : s.step event = some (s', outcome)) :
    (∃ message handled, actOnMessage s.port message = some handled ∧ handled.port = s'.port ∧
      handled.outcome = outcome) ∨ s'.port = s.port := by
  cases event with
  | stream pieces =>
    rw [step_stream, Option.map_eq_some_iff] at h
    obtain ⟨handled, hact, heq⟩ := h
    obtain ⟨rfl, rfl⟩ := Prod.mk.inj heq
    rcases actOnStripped_cases hact with ⟨message, hact⟩ | hport
    · exact Or.inl ⟨message, handled, hact, rfl, rfl⟩
    · exact Or.inr hport
  | datagram d =>
    rw [step_datagram, Option.map_eq_some_iff] at h
    obtain ⟨handled, hact, heq⟩ := h
    obtain ⟨rfl, rfl⟩ := Prod.mk.inj heq
    rw [handleReceive] at hact
    split at hact
    · rcases actOnStripped_cases hact with ⟨message, hact⟩ | hport
      · exact Or.inl ⟨message, handled, hact, rfl, rfl⟩
      · exact Or.inr hport
    · exact Or.inr (congrArg Handled.port (Option.some.inj hact)).symm

end Server

end NetCache
