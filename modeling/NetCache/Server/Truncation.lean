import NetCache.Server.Messages
import NetCache.Server.Receive

/-!
# Requests that are cut short

When a connection ends before the `NUL`, the handler is called with an error and acts on what has
arrived all the same.

## Harmless messages

`Contents.Harmless` lists the messages that leave the server as it was, in the cache and in the
order of use: a `HEAD`, a `GET` or `DELETE` that does not find its key, a `GET` of the most recent
entry, a `PUT` that stores what is at the front already or is refused for a key that is not there, a
`POST memsize` that is refused or asks an empty cache for the limit it has. Any other message
changes the cache or stops the server, so a connection that ends early goes unnoticed if and only if
what is left of the request after stripping is harmless (`cut_request_unchanged_iff`).

## What is compared

The state of a server is compared by what a caller can observe: the view of the cache, and its
limit. Each handler has a lemma that says when the contents stay as they are, in both directions,
and the choice among the handlers puts them together. Nothing depends on where the request was cut.
A prefix of a request is a message like any other, and often a valid one: a `PUT` that has lost part
of its text stores the rest.
-/

namespace NetCache

open Text

namespace Server

variable {c : Contents} {key value message : Bytes}

/-- The key is that of the most recently used entry, whose value satisfies `p`. -/
def Contents.MostRecent (c : Contents) (key : CStr) (p : Value → Prop) : Prop :=
  ∃ v t, c.entries = (key, v) :: t ∧ p v

/-- The messages that leave the server as it was, told by their three substrings. -/
def Contents.Harmless (c : Contents) (message : Bytes) : Prop :=
  match parts message with
  | none => False
  | some ⟨fword, info1, info2⟩ =>
    if fword = ascii "GET" then
      CStr.ofBytes info1 ∉ Lru.keys c.entries ∨
        info1 ≠ [] ∧ c.MostRecent (CStr.ofBytes info1) fun v ↦ 0 ∈ v.bytes
    else if fword = ascii "PUT" then
      c.limit < (putValue info2).size.toUInt64 ∧ CStr.ofBytes info1 ∉ Lru.keys c.entries ∨
        (putValue info2).size.toUInt64 ≤ c.limit ∧ c.spaceUsed ≤ c.limit ∧
          c.MostRecent (CStr.ofBytes info1) fun v ↦ v = putValue info2
    else if fword = ascii "DELETE" then CStr.ofBytes info1 ∉ Lru.keys c.entries
    else if fword = ascii "HEAD" then True
    else if fword = ascii "POST" then
      strip info1 = some (ascii "memsize") ∧ (c.spaceUsed ≠ 0 ∨
        c.entries = [] ∧ ∃ n, stoll info2 = .ok n ∧ UInt64.ofInt n = c.limit)
    else False

theorem Contents.with_entries_eq_iff {l : List (CStr × Value)} {reply : Option Bytes} :
    (∃ r, (some (some { c with entries := l }, .ok reply) : Option Ended)
      = some (some c, .ok r)) ↔ l = c.entries := by
  obtain ⟨limit, entries⟩ := c
  simp

theorem Contents.get_unchanged_iff (hnd : (Lru.keys c.entries).Nodup) :
    (∃ reply, c.get key = some (some c, .ok reply)) ↔
      CStr.ofBytes key ∉ Lru.keys c.entries ∨
        key ≠ [] ∧ c.MostRecent (CStr.ofBytes key) fun v ↦ 0 ∈ v.bytes := by
  rw [Contents.get]
  cases hfind : Lru.find (CStr.ofBytes key) c.entries with
  | none => exact iff_of_true ⟨_, rfl⟩ (Or.inl (Lru.find_eq_none_iff.mp hfind))
  | some v =>
    have hmem : CStr.ofBytes key ∈ Lru.keys c.entries :=
      Lru.mem_keys_of_mem (Lru.mem_of_find hfind)
    -- what the key finds is the value of the first entry, if that has the key
    have hval : ∀ v' t, c.entries = (CStr.ofBytes key, v') :: t → v = v' := by
      intro v' t ht
      rw [ht, Lru.find_cons_self, Option.some.injEq] at hfind
      exact hfind.symm
    simp only
    split_ifs with hok
    · rw [Contents.with_entries_eq_iff, Lru.touch_eq_self_iff hnd]
      apply or_congr_right
      constructor
      · rintro ⟨v', t, ht⟩
        exact ⟨hok.2, v', t, ht, hval v' t ht ▸ hok.1⟩
      · rintro ⟨-, v', t, ht, -⟩
        exact ⟨v', t, ht⟩
    · refine iff_of_false (by simp) ?_
      rintro (hnotin | ⟨hkey, v', t, ht, hnul⟩)
      · exact hnotin hmem
      · exact hok ⟨hval v' t ht ▸ hnul, hkey⟩

theorem Contents.put_unchanged_iff (hnd : (Lru.keys c.entries).Nodup) :
    (∃ reply, (some (some (c.put key value), .ok none) : Option Ended)
      = some (some c, .ok reply)) ↔
      c.limit < (putValue value).size.toUInt64 ∧ CStr.ofBytes key ∉ Lru.keys c.entries ∨
        (putValue value).size.toUInt64 ≤ c.limit ∧ c.spaceUsed ≤ c.limit ∧
          c.MostRecent (CStr.ofBytes key) fun v ↦ v = putValue value := by
  rw [Contents.put, Contents.with_entries_eq_iff, Lru.put_word_eq_self_iff hnd]
  refine or_congr_right (and_congr_right' (and_congr_right' ⟨?_, ?_⟩))
  · rintro ⟨t, ht⟩
    exact ⟨_, t, ht, rfl⟩
  · rintro ⟨_, t, ht, rfl⟩
    exact ⟨t, ht⟩

theorem Contents.post_unchanged_iff {postType extraInfo : Bytes} :
    (∃ reply, some (c.post postType extraInfo) = some (some c, .ok reply)) ↔
      strip postType = some (ascii "memsize") ∧ (c.spaceUsed ≠ 0 ∨
        c.entries = [] ∧ ∃ n, stoll extraInfo = .ok n ∧ UInt64.ofInt n = c.limit) := by
  rw [Contents.post]
  cases strip postType with
  | none => simp
  | some type =>
    simp only
    split_ifs with hshutdown hmemsize hused
    · have hother : ascii "shutdown" ≠ ascii "memsize" := by decide
      simp [hshutdown, hother]
    · cases stoll extraInfo with
      | ok n =>
        obtain ⟨limit, entries⟩ := c
        simp [hmemsize, hused, and_comm, eq_comm]
      | error e => simp [hused]
    · simp [hmemsize, hused]
    · simp [hmemsize]

/-- A message is harmless exactly when its handler returns and leaves the contents as they were. -/
theorem Contents.act_unchanged_iff (hnd : (Lru.keys c.entries).Nodup) :
    (∃ reply, c.act message = some (some c, .ok reply)) ↔ c.Harmless message := by
  rw [Contents.act, Contents.Harmless]
  cases parts message with
  | none => simp
  | some p =>
    obtain ⟨fword, info1, info2⟩ := p
    simp only
    split_ifs
    · exact Contents.get_unchanged_iff hnd
    · exact Contents.put_unchanged_iff hnd
    · rw [Contents.delete, Contents.with_entries_eq_iff, Lru.remove_eq_self_iff]
    · simp
    · exact Contents.post_unchanged_iff
    · simp

theorem Contents.actOnStripped_unchanged_iff {stripped : Option Bytes}
    (hnd : (Lru.keys c.entries).Nodup) :
    (∃ reply, c.actOnStripped stripped = some (some c, .ok reply)) ↔
      ∃ message, stripped = some message ∧ c.Harmless message := by
  cases stripped with
  | none => simp [Contents.actOnStripped]
  | some message => simp [Contents.actOnStripped, Contents.act_unchanged_iff hnd]

/-! ## Connections that end early -/

/-- The server has a cache with the same limit that no request can tell from the old one. -/
def Unchanged (s s' : State) : Prop :=
  ∃ cache cache', s.port = some cache ∧ s'.port = some cache' ∧ cache'.SameView cache ∧
    cache'.maxmem = cache.maxmem

theorem unchanged_iff {s s' : State} {e : Option Contents} (h : Keeps s.port (some c))
    (h' : Keeps s'.port e) : Unchanged s s' ↔ e = some c := by
  obtain ⟨cache, l, hport, hr, hl⟩ := h
  constructor
  · rintro ⟨cache₁, cache', hport₁, hport', hsame, hlimit⟩
    obtain rfl := Option.some.inj (hport.symm.trans hport₁)
    cases e with
    | none => exact absurd (hport'.symm.trans h') (by simp)
    | some c' =>
      obtain ⟨cache₂, l', hport₂, hr', hl'⟩ := h'
      obtain rfl := Option.some.inj (hport'.symm.trans hport₂)
      rw [hr'.sameView_iff hr, hl, hl'] at hsame
      rw [hr.limit, hr'.limit] at hlimit
      obtain ⟨limit, entries⟩ := c
      obtain ⟨limit', entries'⟩ := c'
      simp_all
  · rintro rfl
    obtain ⟨cache', l', hport', hr', hl'⟩ := h'
    exact ⟨cache, cache', hport, hport', hr'.sameView hr (hl'.trans hl.symm),
      hr'.limit.trans hr.limit.symm⟩

/-- **A request that is cut short** leaves the server running and its cache as it was exactly when
what has arrived can be stripped and is harmless. -/
theorem cut_request_unchanged_iff {s : State} (hs : Reachable s) {pieces : List Bytes}
    (hcut : 0 ∉ pieces.flatten) :
    ∃ c, Keeps s.port (some c) ∧
      ((∃ s' reply, s.step (.stream pieces) = some (s', .ok reply) ∧ Unchanged s s') ↔
        ∃ message, strip pieces.flatten = some message ∧ c.Harmless message) := by
  obtain ⟨c, hc⟩ := hs.keeps
  refine ⟨c, hc, ?_⟩
  rw [step_stream, readUntil_of_notMem (by simpa using hcut), List.nil_append,
    ← Contents.actOnStripped_unchanged_iff hc.nodup_keys]
  have hrel := actOnStripped_refines hc (strip pieces.flatten)
  generalize actOnStripped s.port (strip pieces.flatten) = handled? at hrel
  generalize c.actOnStripped (strip pieces.flatten) = ended? at hrel
  cases hrel with
  | none => simp
  | some hrefines =>
    rename_i handled ended
    obtain ⟨contents, outcome⟩ := ended
    constructor
    · rintro ⟨s', reply, heq, hunchanged⟩
      obtain ⟨rfl, hok⟩ := Prod.mk.inj (Option.some.inj heq)
      rw [unchanged_iff hc hrefines.port] at hunchanged
      exact ⟨reply, congrArg some (Prod.ext hunchanged (hrefines.outcome.symm.trans hok))⟩
    · rintro ⟨reply, heq⟩
      obtain ⟨hcontents, hok⟩ := Prod.mk.inj (Option.some.inj heq)
      refine ⟨_, reply, congrArg some (Prod.ext rfl (hrefines.outcome.trans hok)), ?_⟩
      exact (unchanged_iff hc hrefines.port).mpr hcontents

theorem cut_request_unchanged_iff_example : ∃ c, Keeps (start 100 (filled 0)).port (some c) ∧
    ((∃ s' reply, (start 100 (filled 0)).step (.stream [ascii "GET", ascii " /k"])
        = some (s', .ok reply) ∧ Unchanged (start 100 (filled 0)) s') ↔
      ∃ message, strip [ascii "GET", ascii " /k"].flatten = some message ∧ c.Harmless message) :=
  cut_request_unchanged_iff (.start 100 (filled 0)) (by decide)

/-- A connection that ends within the value of its request stores what has arrived of it. -/
theorem cut_request_stores : ∃ s' cache',
    0 ∉ [ascii "PUT /k/va"].flatten ∧
      (start 100 (filled 0)).step (.stream [ascii "PUT /k/va"]) = some (s', .ok none) ∧
      s'.port = some cache' ∧
      cache'.reads (CStr.ofBytes (ascii "k")) = some (some (ascii "va" ++ [0]), 3) ∧
      ¬ Unchanged (start 100 (filled 0)) s' := by
  refine ⟨_, _, by decide, rfl, rfl, rfl, ?_⟩
  rintro ⟨cache, cache', hport, hport', hsame, -⟩
  obtain rfl := Option.some.inj hport
  obtain rfl := Option.some.inj hport'
  exact absurd (hsame.reads (CStr.ofBytes (ascii "k"))) (by decide)

end Server

end NetCache
